import VersionCatalog.Config.Basic
import VersionCatalog.Proofs.Rounded
import VersionCatalog.Proofs.Spans

/-!
# Configurations that are read back

A configuration is read back from its document as it was. The section of the backend's settings carries no
tag, and still it is read as the backend's for which it was written: the file backend's settings cannot be
read without a folder, and the memory backend's have none. The time to wait for the lock comes back as the
same span, whatever it is.

## Main results

* `BackendSettings.ofJson?_toJson`: settings are read as the backend's that they were written for.
* `StorageConfig.round_trips`: the configuration of the storage is read back.
* `Config.ofJson?_toJson`: so is the whole configuration.
-/

namespace VersionCatalog

namespace FileSettings

@[simp] theorem span?_text (s : Span) : span? (.text s.toText) = some s := by
  rw [span?, Json.text?, Option.bind_some, Span.parse?_toText]

theorem ofJson?_toJson (f : FileSettings) : ofJson? f.toJson = some f := by
  rw [ofJson?, toJson, Json.fields?_record (by rfl) (by decide)]
  simp [Json.Fields.required, Json.Fields.withDefault, Json.text?, List.lookup_cons]

/-- Settings without a folder are not the file backend's. -/
theorem ofJson?_memory (seed : Option String) : ofJson? (BackendSettings.memory seed).toJson = none := by
  have hfields : (BackendSettings.memory seed).toJson.fields? ["base_dir", "file_name", "lock_timeout"]
      = some ⟨false, []⟩ := rfl
  rw [ofJson?, hfields]
  rfl

end FileSettings

namespace BackendSettings

theorem seed?_toJson (seed : Option String) : seed? (memory seed).toJson = some seed := by
  rw [seed?, toJson, Json.fields?_record (by rfl) (by decide)]
  cases seed <;> rfl

theorem isReadable_toJson (b : BackendSettings) : b.toJson.isReadable = true := by
  cases b with
  | file f => rfl
  | memory seed => cases seed <;> rfl

theorem depth_toJson (b : BackendSettings) : b.toJson.depth = 1 := by
  cases b with
  | file f => rfl
  | memory seed => cases seed <;> rfl

theorem fits_toJson (b : BackendSettings) : b.toJson.fits = true := by
  cases b with
  | file f => rfl
  | memory seed => cases seed <;> rfl

/-- There are no numbers in settings. -/
theorem rounded_toJson (b : BackendSettings) : b.toJson.rounded = b.toJson := by
  cases b with
  | file f => rfl
  | memory seed => cases seed <;> rfl

/-- **Settings are read as the backend's that they were written for.** -/
theorem ofJson?_toJson (b : BackendSettings) : ofJson? b.toJson = some b := by
  rw [ofJson?, if_pos b.isReadable_toJson]
  cases b with
  | file f => rw [toJson, FileSettings.ofJson?_toJson]
  | memory seed => rw [FileSettings.ofJson?_memory, seed?_toJson, Option.map_some]

end BackendSettings

namespace StorageConfig

theorem isReadable_toJson (c : StorageConfig) : c.toJson.isReadable = true := by
  simp [toJson, Json.isReadable, Json.readableFields, c.settings.isReadable_toJson]

theorem depth_toJson (c : StorageConfig) : c.toJson.depth = 2 := by
  simp [toJson, Json.depth, Json.depthFields, c.settings.depth_toJson]

theorem fits_toJson (c : StorageConfig) : c.toJson.fits = true := by
  simp [toJson, c.settings.fits_toJson]

theorem rounded_toJson (c : StorageConfig) : c.toJson.rounded = c.toJson := by
  simp [toJson, c.settings.rounded_toJson]

theorem ofJson?_toJson (c : StorageConfig) : ofJson? c.toJson = some c := by
  rw [ofJson?, toJson, Json.fields?_record (by rfl) (by decide)]
  simp [Json.Fields.withDefault, Json.word?, BackendKind.ofName?_name, c.settings.ofJson?_toJson,
    List.lookup_cons]

/-- Nothing in the document is lost when it is written and read. -/
theorem parse?_toText (c : StorageConfig) : Json.parse? c.toJson.toText = some c.toJson := by
  have hdepth : 0 + c.toJson.depth ≤ Json.maxDepth := by
    rw [c.depth_toJson]
    decide
  rw [Json.toText, Json.parse?_toTextIn _ c.fits_toJson, c.rounded_toJson,
    Json.reread_eq_self _ c.isReadable_toJson hdepth]

/-- **The configuration of the storage is read back**, from its document and from the document's text: for every
backend that is named and all settings, of this backend or another. The section of the settings is read as the
settings that it was written of, and the time to wait for the lock, as it is written there, as the same span. -/
theorem round_trips (c : StorageConfig) :
    ofJson? c.toJson = some c ∧ (Json.parse? c.toJson.toText).bind ofJson? = some c ∧
      BackendSettings.ofJson? c.settings.toJson = some c.settings ∧
      ∀ f, c.settings = .file f → FileSettings.ofJson? c.settings.toJson = some f ∧
        Span.parse? f.lockTimeout.toText = some f.lockTimeout := by
  refine ⟨c.ofJson?_toJson, ?_, c.settings.ofJson?_toJson, fun f hf => ⟨?_, f.lockTimeout.parse?_toText⟩⟩
  · rw [c.parse?_toText, Option.bind_some, c.ofJson?_toJson]
  · rw [hf, BackendSettings.toJson, f.ofJson?_toJson]

end StorageConfig

/-- The whole configuration is read back. -/
theorem Config.ofJson?_toJson (c : Config) : ofJson? c.toJson = some c := by
  rw [ofJson?, toJson, Json.fields?_record (by rfl) (by decide)]
  simp [Json.Fields.withDefault, Json.text?, c.storage.ofJson?_toJson, List.lookup_cons]

end VersionCatalog
