import VersionCatalog.Backend.Storage
import VersionCatalog.Config.Toml
import VersionCatalog.Proofs.Calls
import VersionCatalog.Proofs.Naming

/-!
# Overrides

What the environment makes of a configuration. There are three cases for the storage: the environment names
no backend, or the one that is configured, or another one. In the first two the configured storage stays and
only its folder may change; in the third it gives way to the storage that the environment asks for. In every
case the storage is then as the environment has it, so the environment changes nothing when it is laid over the
configuration again.

A word that is no backend's name counts as the memory's, so under such a word a store that is configured for
files is looked for in memory.

## Main results

* `Config.mergeStorage_of_unset`, `Config.mergeStorage_of_same`, `Config.mergeStorage_of_other`: the three cases.
* `Config.overrides_consistent`: the two ways of opening a storage from the environment agree, and what an
  environment changes, it changes once.
* `Config.store_stays_unless_type_unknown`: an environment that names no backend leaves the storage where it is,
  except that a word for no backend moves a file's store into memory.
-/

namespace VersionCatalog

theorem BackendKind.ofName?_eq_none {word : String} (hfile : word ≠ BackendKind.file.name)
    (hmemory : word ≠ BackendKind.memory.name) : BackendKind.ofName? word = none := by
  rw [BackendKind.ofName?]
  · exact hfile
  · exact hmemory

namespace BackendSettings

@[simp] theorem kind_moveTo (b : BackendSettings) (folder : Option String) :
    (b.moveTo folder).kind = b.kind := by
  cases b <;> rfl

@[simp] theorem moveTo_moveTo (b : BackendSettings) (folder : Option String) :
    (b.moveTo folder).moveTo folder = b.moveTo folder := by
  cases b with
  | file f => cases folder <;> rfl
  | memory seed => rfl

end BackendSettings

namespace StorageConfig

variable {c : StorageConfig} {env : Environment} {home word : String}

/-! ### Validity -/

/-- A configuration is valid if its settings are those of the backend that it names, and its file has a
name. -/
theorem validate_eq_ok_iff : c.validate = .ok () ↔
    c.settings.kind = c.kind ∧ ∀ f, c.settings = .file f → Text.isBlankText f.fileName = false := by
  obtain ⟨kind, settings⟩ := c
  cases kind <;> cases settings <;> simp [validate, BackendSettings.kind]

/-! ### Another folder -/

@[simp] theorem validate_moveTo (c : StorageConfig) (folder : Option String) :
    (c.moveTo folder).validate = c.validate := by
  obtain ⟨kind, settings⟩ := c
  cases kind <;> cases settings <;> rfl

@[simp] theorem moveTo_moveTo (c : StorageConfig) (folder : Option String) :
    (c.moveTo folder).moveTo folder = c.moveTo folder := by
  rw [moveTo, moveTo, BackendSettings.moveTo_moveTo]

/-- A storage in memory stays as it is. -/
theorem moveTo_of_memory {folder seed : Option String} (h : c.settings.kind = c.kind)
    (hmemory : c.settings = .memory seed) : c.moveTo folder = ⟨.memory, .memory seed⟩ := by
  obtain ⟨kind, settings⟩ := c
  subst hmemory
  obtain rfl : BackendKind.memory = kind := h
  rfl

/-- Of a storage in files all settings stay but the folder. -/
theorem moveTo_of_file {folder : Option String} {f : FileSettings} (h : c.settings.kind = c.kind)
    (hfile : c.settings = .file f) :
    c.moveTo folder = ⟨.file, .file { f with folder := folder.getD f.folder }⟩ := by
  obtain ⟨kind, settings⟩ := c
  subst hfile
  obtain rfl : BackendKind.file = kind := h
  rfl

/-! ### What the environment asks for -/

/-- A variable that is not set asks for the memory. -/
theorem ofEnvironment_of_unset (h : env typeVariable = none) : ofEnvironment env home = inMemory := by
  rw [ofEnvironment, h]
  rfl

/-- A word for the memory does, too. -/
theorem ofEnvironment_of_memory (h : env typeVariable = some word) (hkind : kindNamed word = .memory) :
    ofEnvironment env home = inMemory := by
  rw [ofEnvironment, h, Option.map_some, hkind]

/-- A word for no backend stands for the memory. -/
theorem kindNamed_of_unknown (hfile : word.toLower ≠ BackendKind.file.name)
    (hmemory : word.toLower ≠ BackendKind.memory.name) : kindNamed word = .memory := by
  rw [kindNamed, BackendKind.ofName?_eq_none hfile hmemory]
  rfl

theorem kind_ofEnvironment (h : env typeVariable = some word) :
    (ofEnvironment env home).kind = kindNamed word := by
  rw [ofEnvironment, h, Option.map_some]
  cases kindNamed word <;> rfl

/-- The environment asks for the files in a folder or for an empty store in memory. -/
theorem ofEnvironment_eq_or (env : Environment) (home : String) :
    ofEnvironment env home = inFolder ((env folderVariable).getD home) ∨
      ofEnvironment env home = inMemory := by
  rw [ofEnvironment]
  cases (env typeVariable).map kindNamed with
  | none => exact .inr rfl
  | some kind =>
      cases kind with
      | file => exact .inl rfl
      | memory => exact .inr rfl

theorem validate_inFolder (folder : String) : (inFolder folder).validate = .ok () := by
  rw [validate_eq_ok_iff]
  refine ⟨rfl, ?_⟩
  rintro _ ⟨⟩
  change Text.isBlankText FileSettings.standardName = false
  decide +kernel

theorem validate_ofEnvironment (env : Environment) (home : String) :
    (ofEnvironment env home).validate = .ok () := by
  obtain h | h := ofEnvironment_eq_or env home
  · rw [h, validate_inFolder]
  · rw [h]
    rfl

/-- What the environment asks for is in the folder that it names. -/
theorem moveTo_ofEnvironment (env : Environment) (home : String) :
    (ofEnvironment env home).moveTo (env folderVariable) = ofEnvironment env home := by
  obtain h | h := ofEnvironment_eq_or env home
  · rw [h]
    cases env folderVariable <;> rfl
  · rw [h]
    rfl

end StorageConfig

namespace Config

open StorageConfig

variable {c : StorageConfig} {env : Environment} {home word : String}

/-! ### The three cases -/

/-- Where the environment names no backend, the storage stays, but for the folder. -/
theorem mergeStorage_of_unset (h : env typeVariable = none) :
    mergeStorage c env home = c.moveTo (env folderVariable) := by
  rw [mergeStorage, replaceStorage, h]

/-- Where it names the configured one, the storage stays, too. -/
theorem mergeStorage_of_same (h : env typeVariable = some word) (hkind : kindNamed word = c.kind)
    (hsettings : c.settings.kind = c.kind) :
    mergeStorage c env home = c.moveTo (env folderVariable) := by
  have hsame : (StorageConfig.ofEnvironment env home).kind = c.kind ∧
      (StorageConfig.ofEnvironment env home).kind = c.settings.kind := by
    rw [kind_ofEnvironment h, hsettings]
    exact ⟨hkind, hkind⟩
  simp only [mergeStorage, replaceStorage, h, if_pos hsame]

/-- Where it names another one, the storage is the one that the environment asks for. -/
theorem mergeStorage_of_other (h : env typeVariable = some word)
    (hother : ¬(kindNamed word = c.kind ∧ c.settings.kind = c.kind)) :
    mergeStorage c env home = StorageConfig.ofEnvironment env home := by
  have hdiffers : ¬((StorageConfig.ofEnvironment env home).kind = c.kind ∧
      (StorageConfig.ofEnvironment env home).kind = c.settings.kind) := by
    rw [kind_ofEnvironment h]
    rintro ⟨hkind, hsettings⟩
    exact hother ⟨hkind, hsettings.symm.trans hkind⟩
  simp only [mergeStorage, replaceStorage, h, if_neg hdiffers, moveTo_ofEnvironment]

/-- In each case the storage stays, but for the folder, or it is the one that the environment asks for. -/
theorem mergeStorage_eq_or (c : StorageConfig) (env : Environment) (home : String) :
    mergeStorage c env home = c.moveTo (env folderVariable) ∨
      mergeStorage c env home = StorageConfig.ofEnvironment env home := by
  cases h : env typeVariable with
  | none => exact .inl (mergeStorage_of_unset h)
  | some word =>
      by_cases hsame : kindNamed word = c.kind ∧ c.settings.kind = c.kind
      · exact .inl (mergeStorage_of_same h hsame.1 hsame.2)
      · exact .inr (mergeStorage_of_other h hsame)

/-- A valid storage stays valid. -/
theorem validate_mergeStorage (env : Environment) (home : String) (h : c.validate = .ok ()) :
    (mergeStorage c env home).validate = .ok () := by
  obtain hstays | hother := mergeStorage_eq_or c env home
  · rw [hstays, validate_moveTo, h]
  · rw [hother, validate_ofEnvironment]

/-- The storage is in the folder that the environment names. -/
theorem moveTo_mergeStorage (c : StorageConfig) (env : Environment) (home : String) :
    (mergeStorage c env home).moveTo (env folderVariable) = mergeStorage c env home := by
  obtain hstays | hother := mergeStorage_eq_or c env home
  · rw [hstays, moveTo_moveTo]
  · rw [hother, moveTo_ofEnvironment]

/-- A backend that the environment names is the one in use, with settings of its own. -/
theorem kind_mergeStorage (c : StorageConfig) (home : String) (h : env typeVariable = some word) :
    (mergeStorage c env home).kind = kindNamed word ∧
      (mergeStorage c env home).settings.kind = kindNamed word := by
  by_cases hsame : kindNamed word = c.kind ∧ c.settings.kind = c.kind
  · rw [mergeStorage_of_same h hsame.1 hsame.2, moveTo, BackendSettings.kind_moveTo]
    exact ⟨hsame.1.symm, hsame.2.trans hsame.1.symm⟩
  · rw [mergeStorage_of_other h hsame, (validate_eq_ok_iff.1 (validate_ofEnvironment env home)).1,
      kind_ofEnvironment h]
    exact ⟨rfl, rfl⟩

/-- A storage that is as the environment has it stays as it is. -/
theorem mergeStorage_mergeStorage (c : StorageConfig) (env : Environment) (home home' : String) :
    mergeStorage (mergeStorage c env home) env home' = mergeStorage c env home := by
  cases h : env typeVariable with
  | none => rw [mergeStorage_of_unset h, moveTo_mergeStorage]
  | some word =>
      -- After the first time the named backend is in use, so the second time it is the configured one.
      obtain ⟨hkind, hsettings⟩ := kind_mergeStorage c home h
      rw [mergeStorage_of_same h hkind.symm (hsettings.trans hkind.symm), moveTo_mergeStorage]

/-! ### Opening from the environment -/

variable {d : Config}

theorem validate_eq_ok_iff : d.validate = .ok () ↔
    (VersionName.parse? d.seed).isSome = true ∧ d.storage.validate = .ok () := by
  rw [validate]
  cases VersionName.parse? d.seed with
  | none => simp
  | some n => cases d.storage.validate <;> simp

theorem validated_eq_ok_iff {d' : Config} : d.validated = .ok d' ↔ d.validate = .ok () ∧ d' = d := by
  rw [validated]
  cases d.validate <;> simp [Except.map, eq_comm]

/-- Where nothing else is configured the storage is the one that the environment asks for. -/
theorem mergeStorage_standard (env : Environment) (home : String) :
    mergeStorage standard.storage env home = StorageConfig.ofEnvironment env home := by
  cases h : env typeVariable with
  | none =>
      rw [mergeStorage_of_unset h, ofEnvironment_of_unset h]
      rfl
  | some word =>
      by_cases hsame : kindNamed word = BackendKind.memory
      · rw [mergeStorage_of_same h hsame rfl, ofEnvironment_of_memory h hsame]
        rfl
      · exact mergeStorage_of_other h fun hboth => hsame hboth.1

/-- What the environment asks for is refused only for its seed. -/
theorem ofEnvironment_eq_ok_iff : ofEnvironment env home = .ok d ↔
    (VersionName.parse? d.seed).isSome = true ∧
      d = ⟨(env seedVariable).getD standard.seed, StorageConfig.ofEnvironment env home⟩ := by
  have hmerge : standard.merge env home =
      ⟨(env seedVariable).getD standard.seed, StorageConfig.ofEnvironment env home⟩ := by
    rw [merge, mergeStorage_standard]
  rw [ofEnvironment, validated_eq_ok_iff, hmerge, validate_eq_ok_iff]
  constructor
  · rintro ⟨⟨hseed, -⟩, rfl⟩
    exact ⟨hseed, rfl⟩
  · rintro ⟨hseed, rfl⟩
    exact ⟨⟨hseed, validate_ofEnvironment env home⟩, rfl⟩

/-- The engine of a valid configuration is opened over the configured storage, or fails as that does. -/
theorem storage_ofConfig (h : d.validate = .ok ()) :
    Engine.storage <$> Engine.ofConfig d = Call.ofStore (Storage.ofConfig d.storage) := by
  obtain ⟨n, hn⟩ := Option.isSome_iff_exists.1 (validate_eq_ok_iff.1 h).1
  have hseed : Calculator.ofSeed d.seed = .ok ⟨n⟩ := by
    rw [Calculator.ofSeed, VersionName.parse_eq_ok.2 hn]
    rfl
  funext disk
  cases hopen : Storage.ofConfig d.storage disk with
  | ok storage disk' =>
      have hengine : Engine.ofConfig d disk = .ok ⟨storage, ⟨n⟩⟩ disk' := by
        rw [Engine.ofConfig, bind_ok (Call.ofExcept_ok h disk), bind_ok (Call.ofStore_ok hopen),
          bind_ok (Call.ofExcept_ok hseed disk')]
        rfl
      rw [map_eq_ok.2 ⟨_, hengine, rfl⟩, Call.ofStore_ok hopen]
  | error e disk' =>
      have hengine : Engine.ofConfig d disk = .error (.ofStore e) disk' := by
        rw [Engine.ofConfig, bind_ok (Call.ofExcept_ok h disk), bind_error (Call.ofStore_error hopen)]
      rw [map_error hengine, Call.ofStore_error hopen]

/-- **The environment's overrides are consistent.** The storage of a configuration that comes from the environment
alone is the one that the environment asks for, so the engine is opened over the same storage that is opened
without it. Over any configuration, also one whose settings are another backend's, an environment changes nothing
when it is laid a second time; a backend that it names is in use with settings of its own; and where that one was
configured already, all its settings stay but for the folder. -/
theorem overrides_consistent (env : Environment) (home : String) :
    (∀ d, ofEnvironment env home = .ok d → d.storage = StorageConfig.ofEnvironment env home ∧
      Engine.storage <$> Engine.ofConfig d =
        Call.ofStore (Storage.ofConfig (StorageConfig.ofEnvironment env home))) ∧
    ∀ d : Config, (∀ home', (d.merge env home).merge env home' = d.merge env home) ∧
      ∀ word, env typeVariable = some word →
        (d.merge env home).storage.kind = kindNamed word ∧
        (d.merge env home).storage.settings.kind = kindNamed word ∧
        (d.storage.kind = kindNamed word → d.storage.settings.kind = kindNamed word →
          (∀ seed, d.storage.settings = .memory seed →
            (d.merge env home).storage = ⟨.memory, .memory seed⟩) ∧
          ∀ f, d.storage.settings = .file f → (d.merge env home).storage =
            ⟨.file, .file { f with folder := (env folderVariable).getD f.folder }⟩) := by
  refine ⟨fun d hd => ?_, fun d => ⟨fun home' => ?_, fun word hword => ?_⟩⟩
  · have hvalid : d.validate = .ok () := by
      obtain ⟨hvalid, rfl⟩ := validated_eq_ok_iff.1 hd
      exact hvalid
    obtain ⟨-, hd⟩ := ofEnvironment_eq_ok_iff.1 hd
    have hstorage : d.storage = StorageConfig.ofEnvironment env home := by
      rw [hd]
    exact ⟨hstorage, by rw [storage_ofConfig hvalid, hstorage]⟩
  · rw [merge, merge, mergeStorage_mergeStorage]
    cases env seedVariable <;> rfl
  · obtain ⟨hkind, hsettings⟩ := kind_mergeStorage d.storage home hword
    refine ⟨hkind, hsettings, fun hsame hown => ?_⟩
    have hmerge : (d.merge env home).storage = d.storage.moveTo (env folderVariable) :=
      mergeStorage_of_same hword hsame.symm (hown.trans hsame.symm)
    rw [hmerge]
    exact ⟨fun _ => moveTo_of_memory (hown.trans hsame.symm), fun _ => moveTo_of_file (hown.trans hsame.symm)⟩

/-- The settings of the file backend are kept under a variable in capital letters, but for the folder, also where
a memory was named beside them. -/
theorem files_kept_under_capitals :
    let env : Environment := ([(typeVariable, "FILE"), (folderVariable, "/other")].lookup ·)
    let home := "/var/lib/item-versioning"
    let timeout : Span := .ofSeconds 2 (by decide)
    let filed : Config := ⟨"1.0", ⟨.file, .file ⟨"/var/lib/iv", "items.json", timeout⟩⟩⟩
    let crossed : Config := ⟨"1.0", ⟨.memory, .file ⟨"/var/lib/iv", "items.json", timeout⟩⟩⟩
    ofEnvironment env home = .ok ⟨"0.0", .inFolder "/other"⟩ ∧
      StorageConfig.ofEnvironment env home = .inFolder "/other" ∧
      (filed.merge env home).storage = ⟨.file, .file ⟨"/other", "items.json", timeout⟩⟩ ∧
      (filed.merge env home).merge env home = filed.merge env home ∧
      (crossed.merge env home).storage.kind = .file ∧
      (crossed.merge env home).merge env home = crossed.merge env home := by
  intro env home timeout filed crossed
  obtain ⟨halone, hover⟩ := overrides_consistent env home
  have hword : env typeVariable = some "FILE" := by decide +kernel
  have hkind : kindNamed "FILE" = .file := by decide +kernel
  have hopen : ofEnvironment env home = .ok ⟨"0.0", .inFolder "/other"⟩ :=
    ofEnvironment_eq_ok_iff.2 ⟨by decide +kernel, by decide +kernel⟩
  obtain ⟨hagain, hnamed⟩ := hover filed
  obtain ⟨-, -, hkept⟩ := hnamed "FILE" hword
  obtain ⟨hcrossedAgain, hcrossed⟩ := hover crossed
  refine ⟨hopen, (halone _ hopen).1.symm, ?_, hagain _, ?_, hcrossedAgain _⟩
  · rw [(hkept hkind.symm hkind.symm).2 _ rfl]
    decide +kernel
  · rw [(hcrossed "FILE" hword).1, hkind]

/-! ### Words for no backend -/

/-- A valid configuration is refused under an environment only for its seed. -/
theorem load_eq_ok_iff {d' : Config} {path text : String} (hread : parseToml text = .ok d)
    (hvalid : d.validate = .ok ()) : load path (.ok text) env home = .ok d' ↔
      (VersionName.parse? d'.seed).isSome = true ∧ d' = d.merge env home := by
  have hload : load path (.ok text) env home = (d.merge env home).validated := by
    rw [load, hread]
    rfl
  have hstorage : (d.merge env home).storage.validate = .ok () :=
    validate_mergeStorage env home (validate_eq_ok_iff.1 hvalid).2
  rw [hload, validated_eq_ok_iff, validate_eq_ok_iff]
  constructor
  · rintro ⟨⟨hseed, -⟩, rfl⟩
    exact ⟨hseed, rfl⟩
  · rintro ⟨hseed, rfl⟩
    exact ⟨⟨hseed, hstorage⟩, rfl⟩

/-- **An environment that names no backend leaves the storage where it is**, except that a word for no
backend moves a file's store into memory. Any valid configuration is loaded as the environment has it, unless
its seed is no name then. If no backend is named, the settings of the memory backend stay as they are, and
those of the file backend but for the folder; if a word is given that names none, the file backend gives way to
an empty store in memory. -/
theorem store_stays_unless_type_unknown (home : String) (hvalid : d.validate = .ok ())
    (hunknown : ∀ word, env typeVariable = some word →
      word.toLower ≠ BackendKind.file.name ∧ word.toLower ≠ BackendKind.memory.name) :
    (∀ path text, parseToml text = .ok d → ∀ d', load path (.ok text) env home = .ok d' ↔
      (VersionName.parse? d'.seed).isSome = true ∧ d' = d.merge env home) ∧
    (d.merge env home).seed = (env seedVariable).getD d.seed ∧
    (∀ seed, d.storage.settings = .memory seed →
      (d.merge env home).storage = ⟨.memory, .memory seed⟩) ∧
    ∀ f, d.storage.settings = .file f → (d.merge env home).storage =
      if env typeVariable = none then
        ⟨.file, .file { f with folder := (env folderVariable).getD f.folder }⟩
      else .inMemory := by
  have hown : d.storage.settings.kind = d.storage.kind :=
    (StorageConfig.validate_eq_ok_iff.1 (validate_eq_ok_iff.1 hvalid).2).1
  have hmemory : ∀ word, env typeVariable = some word → kindNamed word = .memory := fun word hword =>
    kindNamed_of_unknown (hunknown word hword).1 (hunknown word hword).2
  refine ⟨fun path text hread d' => load_eq_ok_iff hread hvalid, rfl, fun seed hseed => ?_, fun f hfile => ?_⟩
  · have hstays : (d.merge env home).storage = d.storage.moveTo (env folderVariable) := by
      cases hword : env typeVariable with
      | none => exact mergeStorage_of_unset hword
      | some word =>
          have hkind : d.storage.kind = .memory := by
            rw [← hown, hseed]
            rfl
          exact mergeStorage_of_same hword ((hmemory word hword).trans hkind.symm) hown
    rw [hstays, moveTo_of_memory hown hseed]
  · cases hword : env typeVariable with
    | none =>
        rw [if_pos rfl, ← moveTo_of_file hown hfile]
        exact mergeStorage_of_unset hword
    | some word =>
        have hother : ¬(kindNamed word = d.storage.kind ∧ d.storage.settings.kind = d.storage.kind) := by
          rw [hmemory word hword, ← hown, hfile]
          rintro ⟨⟨⟩, -⟩
        rw [if_neg (Option.some_ne_none word), ← ofEnvironment_of_memory hword (hmemory word hword)]
        exact mergeStorage_of_other hword hother

/-- Under a misspelt word the engine looks into an empty memory for the store of a configured file. -/
theorem files_missed_under_misspelt_type :
    let env : Environment := ([(typeVariable, "flie"), (folderVariable, "/other")].lookup ·)
    let home := "/var/lib/item-versioning"
    let text := "[storage]\nbackend = \"file\"\n\n[storage.backend_config]\nbase_dir = \"/var/lib/iv\"\n"
    let filed : Config := ⟨"0.0", .inFolder "/var/lib/iv"⟩
    parseToml text = .ok filed ∧ filed.validate = .ok () ∧
      load "iv.toml" (.ok text) env home = .ok ⟨"0.0", .inMemory⟩ := by
  intro env home text filed
  have hparse : (Toml.parse? text).bind ofTable? = some filed := by decide +kernel
  have hread : parseToml text = .ok filed := by rw [parseToml, hparse]
  have hvalid : filed.validate = .ok () :=
    validate_eq_ok_iff.2 ⟨by decide +kernel, validate_inFolder "/var/lib/iv"⟩
  have hword : env typeVariable = some "flie" := by decide +kernel
  have hunknown : ∀ word, env typeVariable = some word →
      word.toLower ≠ BackendKind.file.name ∧ word.toLower ≠ BackendKind.memory.name := by
    intro word h
    obtain rfl : word = "flie" := Option.some.inj (h.symm.trans hword)
    decide +kernel
  obtain ⟨hload, -, -, hfile⟩ := store_stays_unless_type_unknown home hvalid hunknown
  refine ⟨hread, hvalid, (hload "iv.toml" text hread _).2 ⟨by decide +kernel, ?_⟩⟩
  have hstorage : (filed.merge env home).storage = .inMemory := by
    rw [hfile _ rfl, hword, if_neg (by decide)]
  rw [← hstorage]
  rfl

end Config

end VersionCatalog
