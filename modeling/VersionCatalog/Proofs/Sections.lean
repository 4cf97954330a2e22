import Mathlib.Data.List.Nodup
import VersionCatalog.Config.Toml
import VersionCatalog.Proofs.Overrides

/-!
# Sections of the backend's settings

The section of the backend's settings carries no tag. What it says is the texts of its fields
(`Section`), in JSON as in TOML. If these give settings of the file backend (`FileSettings.IsGivenBy`),
the section is read as these settings. In every other case the memory backend's reader has it, which
passes over all fields but one. So a section that has a folder and a field that cannot be read is refused
where the file backend is named, because its settings are missing; but where the memory backend is named, or
none, it is taken for the memory's, and the folder is forgotten.

## Main results

* `FileSettings.ofJson?_record_iff`, `FileSettings.ofToml?_table_iff`: which settings a section is read as.
* `BackendSettings.IsReadFrom`: what a section that is read was read as.
* `Config.Document.file_section_kept_unless_ill_formed`: a valid configuration has the settings of its
  section with a folder, unless that is ill-formed and the memory backend is named, or none.
-/

namespace VersionCatalog

/-! ### What a section says -/

/-- What a section of a document says under each name: of each field of that name its text, or nothing where
the field is no text. -/
abbrev Section := String → List (Option String)

namespace Section

variable {α : Type}

/-- Under a name the section gives a value: in one field, as a text that is read as the value. -/
def Gives (s : Section) (name : String) (read : String → Option α) (a : α) : Prop :=
  ∃ text, s name = [some text] ∧ read text = some a

/-- The section gives a value, or nothing where `default` is to stand. -/
def GivesOr (s : Section) (name : String) (read : String → Option α) (default a : α) : Prop :=
  s.Gives name read a ∨ s name = [] ∧ a = default

/-- There is something under a name, but no value. -/
def Spoils (s : Section) (name : String) (read : String → Option α) : Prop :=
  s name ≠ [] ∧ ∀ a, ¬s.Gives name read a

/-- Some field of the file backend's settings is there and has no value. -/
def IsIllFormed (s : Section) : Prop :=
  s.Spoils "base_dir" some ∨ s.Spoils "file_name" some ∨ s.Spoils "lock_timeout" Span.parse?

/-- The section that is made of the values under each name. -/
def ofValues {ν : Type} (text? : ν → Option String) (values : String → List ν) : Section :=
  fun name => (values name).map text?

theorem Gives.length_le {s : Section} {name : String} {read : String → Option α} {a : α}
    (h : s.Gives name read a) : (s name).length ≤ 1 := by
  obtain ⟨text, htext, -⟩ := h
  simp [htext]

theorem GivesOr.length_le {s : Section} {name : String} {read : String → Option α} {default a : α}
    (h : s.GivesOr name read default a) : (s name).length ≤ 1 := by
  obtain hgives | ⟨hnone, -⟩ := h
  · exact hgives.length_le
  · simp [hnone]

theorem exists_givesOr_iff {s : Section} {name : String} {read : String → Option α} (default : α) :
    (∃ a, s.GivesOr name read default a) ↔ ¬s.Spoils name read := by
  constructor
  · rintro ⟨a, hgives | ⟨hnone, -⟩⟩ ⟨hsome, hspoils⟩
    · exact hspoils a hgives
    · exact hsome hnone
  · intro hspoils
    by_cases hnone : s name = []
    · exact ⟨default, .inr ⟨hnone, rfl⟩⟩
    · by_contra hgives
      exact hspoils ⟨hnone, fun a ha => hgives ⟨a, .inl ha⟩⟩

section

variable {ν : Type} {text? : ν → Option String} {values : String → List ν} {name : String}
  {read : String → Option α} {default a : α}

/-- A field that is there at most once gives what its first value is read as. -/
theorem gives_ofValues_iff (h : (values name).length ≤ 1) :
    (ofValues text? values).Gives name read a ↔
      ((values name).head?.bind fun v => (text? v).bind read) = some a := by
  rw [Gives, ofValues]
  match hvalues : values name with
  | [] => simp
  | [v] => simp [Option.bind_eq_some_iff]
  | _ :: _ :: _ => simp [hvalues] at h

theorem givesOr_ofValues_iff (h : (values name).length ≤ 1) :
    (ofValues text? values).GivesOr name read default a ↔
      ((values name).head?.elim (some default) fun v => (text? v).bind read) = some a := by
  rw [GivesOr, gives_ofValues_iff h, ofValues]
  match hvalues : values name with
  | [] => simp [eq_comm]
  | [v] => simp
  | _ :: _ :: _ => simp [hvalues] at h

end

end Section

/-- The settings are what a section says: the folder, and what else it gives, with the usual settings for the
rest. -/
structure FileSettings.IsGivenBy (f : FileSettings) (s : Section) : Prop where
  folder : s.Gives "base_dir" some f.folder
  fileName : s.GivesOr "file_name" some standardName f.fileName
  lockTimeout : s.GivesOr "lock_timeout" Span.parse? standardTimeout f.lockTimeout

/-- A section with a folder gives settings unless it is ill-formed. -/
theorem Section.isIllFormed_iff {s : Section} (h : s "base_dir" ≠ []) :
    s.IsIllFormed ↔ ∀ f : FileSettings, ¬f.IsGivenBy s := by
  constructor
  · rintro (⟨-, hspoils⟩ | hspoils | hspoils) f hf
    · exact hspoils f.folder hf.folder
    · exact (exists_givesOr_iff _).1 ⟨_, hf.fileName⟩ hspoils
    · exact (exists_givesOr_iff _).1 ⟨_, hf.lockTimeout⟩ hspoils
  · intro hnone
    by_contra hwell
    rw [IsIllFormed, not_or, not_or] at hwell
    obtain ⟨hfolder, hname, htimeout⟩ := hwell
    obtain ⟨fileName, hname⟩ := (exists_givesOr_iff FileSettings.standardName).2 hname
    obtain ⟨lockTimeout, htimeout⟩ := (exists_givesOr_iff FileSettings.standardTimeout).2 htimeout
    refine hfolder ⟨h, fun folder hgives => ?_⟩
    exact hnone ⟨folder, fileName, lockTimeout⟩ ⟨hgives, hname, htimeout⟩

/-! ### Sections in JSON -/

/-- The first of the values that stand under a name is the one that is looked up. -/
theorem lookup_eq_head? {ν : Type} (fields : List (String × ν)) (name : String) :
    fields.lookup name = ((fields.filter fun e => e.1 = name).map (·.2)).head? := by
  induction fields with
  | nil => rfl
  | cons e fields ih =>
      obtain ⟨key, value⟩ := e
      by_cases h : key = name
      · simp [h]
      · rw [List.lookup_cons, beq_eq_false_iff_ne.2 (Ne.symm h), List.filter_cons_of_neg (by simpa using h), ih]

namespace Json

/-- The values of the fields of one name. -/
def named (fields : List (String × Json)) (name : String) : List Json :=
  (fields.filter fun e => e.1 = name).map (·.2)

variable {fields : List (String × Json)} {names : List String} {fs : Fields} {name : String}

theorem count_names (fields : List (String × Json)) (h : name ∈ names) :
    ((fields.filter fun e => names.contains e.1).map (·.1)).count name = (named fields name).length := by
  rw [List.count, List.countP_map, List.countP_filter, named, List.length_map, ← List.countP_eq_length_filter]
  refine List.countP_congr fun e _ => ?_
  by_cases hname : e.1 = name
  · simp [hname, h]
  · simp [hname]

/-- A record can be read if each known name is there at most once. -/
theorem fields?_record_eq_some_iff : (record fields).fields? names = some fs ↔
    (∀ name ∈ names, (named fields name).length ≤ 1) ∧
      fs = ⟨false, fields.filter fun e => names.contains e.1⟩ := by
  have hnodup : ((fields.filter fun e => names.contains e.1).map (·.1)).Nodup ↔
      ∀ name ∈ names, (named fields name).length ≤ 1 := by
    -- No other name than the known ones is left, so only their counts matter.
    rw [List.nodup_iff_count_le_one]
    constructor
    · intro h name hname
      rw [← count_names fields hname]
      exact h name
    · intro h name
      by_cases hname : name ∈ names
      · rw [count_names fields hname]
        exact h name hname
      · rw [List.count_eq_zero_of_not_mem]
        · exact Nat.zero_le 1
        · intro hmem
          obtain ⟨e, he, rfl⟩ := List.mem_map.1 hmem
          exact hname (List.contains_iff_mem.1 (List.mem_filter.1 he).2)
  have hfields : (record fields).fields? names =
      if ((fields.filter fun e => names.contains e.1).map (·.1)).Nodup then
        some ⟨false, fields.filter fun e => names.contains e.1⟩ else none := rfl
  rw [hfields, ← hnodup, Option.ite_none_right_eq_some, Option.some.injEq, eq_comm (a := fs)]

/-- A known field is looked up among all fields of its name. -/
theorem lookup_found (hfs : (record fields).fields? names = some fs) (hname : name ∈ names) :
    fs.found.lookup name = (named fields name).head? := by
  obtain ⟨-, rfl⟩ := fields?_record_eq_some_iff.1 hfs
  have hfilter : ((fields.filter fun e => names.contains e.1).filter fun e => e.1 = name) =
      fields.filter fun e => e.1 = name := by
    rw [List.filter_filter]
    refine List.filter_congr fun e _ => ?_
    by_cases h : e.1 = name
    · simp [h, hname]
    · simp [h]
  rw [lookup_eq_head?, hfilter, named]

/-- What a record says as a section. -/
def toSection (fields : List (String × Json)) : Section :=
  .ofValues text? (named fields)

variable {α : Type} {read : String → Option α} {readValue : Json → Option α} {default a : α}

/-- A field that has to be there is read as what the section gives. -/
theorem required_eq_some_iff (hfs : (record fields).fields? names = some fs) (hname : name ∈ names)
    (hread : ∀ j, readValue j = j.text?.bind read) :
    fs.required name readValue = some a ↔ (toSection fields).Gives name read a := by
  have honce := (fields?_record_eq_some_iff.1 hfs).1 name hname
  rw [toSection, Section.gives_ofValues_iff honce, Fields.required, lookup_found hfs hname, funext hread]

/-- A field that may be missing is read as what the section gives, or as the default. -/
theorem withDefault_eq_some_iff (hfs : (record fields).fields? names = some fs) (hname : name ∈ names)
    (hread : ∀ j, readValue j = j.text?.bind read) :
    fs.withDefault name readValue default = some a ↔
      (toSection fields).GivesOr name read default a := by
  have honce := (fields?_record_eq_some_iff.1 hfs).1 name hname
  rw [toSection, Section.givesOr_ofValues_iff honce, Fields.withDefault, lookup_found hfs hname,
    funext hread]
  cases (named fields name).head? <;> rfl

end Json

namespace FileSettings

variable {f : FileSettings}

/-- The settings that a document holds are read field by field. -/
theorem ofJson?_eq_some_iff {j : Json} : ofJson? j = some f ↔
    ∃ fs, j.fields? ["base_dir", "file_name", "lock_timeout"] = some fs ∧
      fs.required "base_dir" Json.text? = some f.folder ∧
      fs.withDefault "file_name" Json.text? standardName = some f.fileName ∧
      fs.withDefault "lock_timeout" span? standardTimeout = some f.lockTimeout := by
  obtain ⟨folder, fileName, lockTimeout⟩ := f
  simp only [ofJson?, Option.bind_eq_bind, Option.bind_eq_some_iff, Option.pure_def, Option.some.injEq,
    FileSettings.mk.injEq]
  constructor
  · rintro ⟨fs, hfs, _, hfolder, _, hname, _, htimeout, rfl, rfl, rfl⟩
    exact ⟨fs, hfs, hfolder, hname, htimeout⟩
  · rintro ⟨fs, hfs, hfolder, hname, htimeout⟩
    exact ⟨fs, hfs, _, hfolder, _, hname, _, htimeout, rfl, rfl, rfl⟩

/-- A record that gives settings has each of their fields at most once. -/
theorem IsGivenBy.exists_fields {fields : List (String × Json)} (h : f.IsGivenBy (Json.toSection fields)) :
    ∃ fs, (Json.record fields).fields? ["base_dir", "file_name", "lock_timeout"] = some fs := by
  have honce : ∀ name ∈ ["base_dir", "file_name", "lock_timeout"], (Json.named fields name).length ≤ 1 := by
    intro name hname
    rw [← List.length_map Json.text?]
    simp only [List.mem_cons, List.not_mem_nil, or_false] at hname
    obtain rfl | rfl | rfl := hname
    · exact h.folder.length_le
    · exact h.fileName.length_le
    · exact h.lockTimeout.length_le
  exact ⟨_, Json.fields?_record_eq_some_iff.2 ⟨honce, rfl⟩⟩

/-- **A section in JSON is read as the settings of the file backend that it gives**, and as none if it gives
none. -/
theorem ofJson?_record_iff {fields : List (String × Json)} :
    ofJson? (.record fields) = some f ↔ f.IsGivenBy (Json.toSection fields) := by
  have htext : ∀ j : Json, j.text? = j.text?.bind some := fun j => (Option.bind_fun_some j.text?).symm
  have hspan : ∀ j : Json, span? j = j.text?.bind Span.parse? := fun _ => rfl
  have hfield : ∀ {fs}, (Json.record fields).fields? ["base_dir", "file_name", "lock_timeout"] = some fs →
      (fs.required "base_dir" Json.text? = some f.folder ∧
        fs.withDefault "file_name" Json.text? standardName = some f.fileName ∧
        fs.withDefault "lock_timeout" span? standardTimeout = some f.lockTimeout ↔
      f.IsGivenBy (Json.toSection fields)) := by
    intro fs hfs
    rw [Json.required_eq_some_iff hfs (by simp) htext, Json.withDefault_eq_some_iff hfs (by simp) htext,
      Json.withDefault_eq_some_iff hfs (by simp) hspan]
    exact ⟨fun h => ⟨h.1, h.2.1, h.2.2⟩, fun h => ⟨h.folder, h.fileName, h.lockTimeout⟩⟩
  rw [ofJson?_eq_some_iff]
  constructor
  · rintro ⟨fs, hfs, h⟩
    exact (hfield hfs).1 h
  · intro h
    obtain ⟨fs, hfs⟩ := h.exists_fields
    exact ⟨fs, hfs, (hfield hfs).2 h⟩

end FileSettings

/-! ### Sections in TOML -/

namespace Toml

variable {t : Table} {name : String} {α : Type} {read : String → Option α} {default a : α}

/-- What a table says as a section. -/
def toSection (t : Table) : Section :=
  .ofValues Value.text? fun name => (t.lookup name).toList

theorem length_lookup_le (t : Table) (name : String) : (t.lookup name).toList.length ≤ 1 := by
  cases t.lookup name <;> simp

variable {readValue : Value → Option α}

/-- A field that has to be there is read as what the section gives. -/
theorem lookup_bind_eq_some_iff (hread : ∀ v, readValue v = v.text?.bind read) :
    (t.lookup name).bind readValue = some a ↔ (toSection t).Gives name read a := by
  rw [toSection, Section.gives_ofValues_iff (length_lookup_le t name), Option.head?_toList, funext hread]

/-- A field that may be missing is read as what the section gives, or as the default. -/
theorem withDefault_eq_some_iff (hread : ∀ v, readValue v = v.text?.bind read) :
    Table.withDefault t name readValue default = some a ↔
      (toSection t).GivesOr name read default a := by
  rw [toSection, Section.givesOr_ofValues_iff (length_lookup_le t name), Option.head?_toList,
    Table.withDefault, funext hread]
  cases t.lookup name <;> rfl

end Toml

namespace FileSettings

variable {f : FileSettings}

/-- The settings that a table holds are read field by field. -/
theorem ofToml?_eq_some_iff {t : Toml.Table} : ofToml? (.table t) = some f ↔
    (Toml.Value.table t).fits 64 = true ∧
      (t.lookup "base_dir").bind Toml.Value.text? = some f.folder ∧
      Toml.Table.withDefault t "file_name" Toml.Value.text? standardName = some f.fileName ∧
      Toml.Table.withDefault t "lock_timeout" (fun v => v.text?.bind Span.parse?) standardTimeout =
        some f.lockTimeout := by
  obtain ⟨folder, fileName, lockTimeout⟩ := f
  simp only [ofToml?, Toml.Value.wholeFields?, Option.bind_eq_bind, Option.bind_eq_some_iff,
    Option.ite_none_right_eq_some, Option.some.injEq, Option.pure_def, FileSettings.mk.injEq]
  constructor
  · rintro ⟨_, ⟨hfits, rfl⟩, v, hv, _, hfolder, _, hname, _, htimeout, rfl, rfl, rfl⟩
    exact ⟨hfits, ⟨v, hv, hfolder⟩, hname, htimeout⟩
  · rintro ⟨hfits, ⟨v, hv, hfolder⟩, hname, htimeout⟩
    exact ⟨t, ⟨hfits, rfl⟩, v, hv, _, hfolder, _, hname, _, htimeout, rfl, rfl, rfl⟩

/-- **A section in TOML is read as the settings of the file backend that it gives**, if all its numbers fit, and
as none if it gives none. -/
theorem ofToml?_table_iff {t : Toml.Table} :
    ofToml? (.table t) = some f ↔ (Toml.Value.table t).fits 64 = true ∧ f.IsGivenBy (Toml.toSection t) := by
  have htext : ∀ v : Toml.Value, v.text? = v.text?.bind some := fun v => (Option.bind_fun_some v.text?).symm
  rw [ofToml?_eq_some_iff, Toml.lookup_bind_eq_some_iff htext, Toml.withDefault_eq_some_iff htext,
    Toml.withDefault_eq_some_iff fun _ => rfl]
  exact and_congr_right fun _ =>
    ⟨fun h => ⟨h.1, h.2.1, h.2.2⟩, fun h => ⟨h.folder, h.fileName, h.lockTimeout⟩⟩

end FileSettings

/-! ### The untagged section -/

/-- What a section that is read was read as: settings of the file backend, which it gives, or the memory
backend's, where it gives none. -/
def BackendSettings.IsReadFrom (s : Section) : BackendSettings → Prop
  | file f => f.IsGivenBy s
  | memory _ => ∀ f : FileSettings, ¬f.IsGivenBy s

namespace BackendSettings

variable {b : BackendSettings}

theorem isReadFrom_of_ofJson? {fields : List (String × Json)} (h : ofJson? (.record fields) = some b) :
    b.IsReadFrom (Json.toSection fields) := by
  rw [ofJson?] at h
  obtain ⟨-, h⟩ := Option.ite_none_right_eq_some.1 h
  cases hfile : FileSettings.ofJson? (.record fields) with
  | some f =>
      rw [hfile] at h
      obtain rfl := Option.some.inj h
      exact FileSettings.ofJson?_record_iff.1 hfile
  | none =>
      rw [hfile] at h
      obtain ⟨seed, -, rfl⟩ := Option.map_eq_some_iff.1 h
      intro f hf
      rw [FileSettings.ofJson?_record_iff.2 hf] at hfile
      cases hfile

theorem isReadFrom_of_ofToml? {t : Toml.Table} (h : ofToml? (.table t) = some b) :
    b.IsReadFrom (Toml.toSection t) := by
  rw [ofToml?] at h
  cases hfile : FileSettings.ofToml? (.table t) with
  | some f =>
      rw [hfile] at h
      obtain rfl := Option.some.inj h
      exact (FileSettings.ofToml?_table_iff.1 hfile).2
  | none =>
      rw [hfile] at h
      -- What the memory backend's reader took in whole would have been taken in for the file backend, too.
      obtain ⟨seed, hseed, rfl⟩ := Option.map_eq_some_iff.1 h
      obtain ⟨_, hwhole, -⟩ := Option.bind_eq_some_iff.1 hseed
      intro f hf
      rw [FileSettings.ofToml?_table_iff.2 ⟨(Option.ite_none_right_eq_some.1 hwhole).1, hf⟩] at hfile
      cases hfile

end BackendSettings

/-- The storage that is read from a section with a folder is valid if it is the file backend with the settings
that the section gives, or if it is the memory backend and the section is ill-formed. -/
theorem StorageConfig.validate_iff_of_isReadFrom {c : StorageConfig} {s : Section}
    (hread : c.settings.IsReadFrom s) (hfolder : s "base_dir" ≠ []) : c.validate = .ok () ↔
      (∃ f : FileSettings, f.IsGivenBy s ∧ Text.isBlankText f.fileName = false ∧
          c = ⟨.file, .file f⟩) ∨
        s.IsIllFormed ∧ ∃ seed, c = ⟨.memory, .memory seed⟩ := by
  rw [validate_eq_ok_iff]
  obtain ⟨kind, settings⟩ := c
  cases settings with
  | file f =>
      have hgiven : f.IsGivenBy s := hread
      constructor
      · rintro ⟨hown, hname⟩
        obtain rfl : BackendKind.file = kind := hown
        exact .inl ⟨f, hgiven, hname f rfl, rfl⟩
      · rintro (⟨g, -, hname, hc⟩ | ⟨hill, -⟩)
        · cases hc
          refine ⟨rfl, ?_⟩
          rintro _ ⟨⟩
          exact hname
        · exact absurd hgiven ((Section.isIllFormed_iff hfolder).1 hill f)
  | memory seed =>
      have hnone : ∀ f : FileSettings, ¬f.IsGivenBy s := hread
      constructor
      · rintro ⟨hown, -⟩
        obtain rfl : BackendKind.memory = kind := hown
        exact .inr ⟨(Section.isIllFormed_iff hfolder).2 hnone, seed, rfl⟩
      · rintro (⟨f, hgiven, -, -⟩ | ⟨-, _, hc⟩)
        · exact absurd hgiven (hnone f)
        · cases hc
          refine ⟨rfl, ?_⟩
          rintro _ ⟨⟩

/-! ### Documents -/

/-- What is made of two parts of a record is made of both as they are read. -/
theorem exists_parts {φ α β γ : Type} {record : Option φ} {first : φ → Option α}
    {second : φ → Option β} {make : α → β → γ} {c : γ}
    (h : (do let fs ← record; let a ← first fs; let b ← second fs; return make a b) = some c) :
    ∃ fs a b, record = some fs ∧ first fs = some a ∧ second fs = some b ∧ c = make a b := by
  obtain ⟨fs, hfs, h⟩ := Option.bind_eq_some_iff.1 h
  obtain ⟨a, ha, h⟩ := Option.bind_eq_some_iff.1 h
  obtain ⟨b, hb, h⟩ := Option.bind_eq_some_iff.1 h
  exact ⟨fs, a, b, hfs, ha, hb, (Option.some.inj h).symm⟩

namespace Config

/-- A document that a configuration may be read from. -/
inductive Document where
  | json (document : Json)
  | toml (document : Toml.Table)

namespace Document

/-- The configuration that a document holds, valid or not. -/
def config? : Document → Option Config
  | json j => ofJson? j
  | toml t => ofTable? t

/-- The fields of the storage in a JSON document. -/
def jsonStorage? (j : Json) : Option Json.Fields := do
  let fs ← j.fields? ["initial_base", "storage"]
  (← fs.found.lookup "storage").fields? ["backend", "backend_config"]

/-- The fields of the storage in a TOML document. -/
def tomlStorage? (t : Toml.Table) : Option Toml.Table := do
  let t ← (Toml.Value.table t).fields? ["initial_base", "storage"]
  (← t.lookup "storage").fields? ["backend", "backend_config"]

/-- The backend that a document names for its storage, or else the memory. -/
def backend? : Document → Option BackendKind
  | json j => (jsonStorage? j).bind fun fs =>
      fs.withDefault "backend" (Json.word? BackendKind.ofName?) .memory
  | toml t => (tomlStorage? t).bind fun t =>
      t.withDefault "backend" (Toml.Value.word? BackendKind.ofName?) .memory

/-- What the section of the backend's settings in a document says, if it is a record. -/
def section? : Document → Option Section
  | json j =>
    match (jsonStorage? j).bind fun fs => fs.found.lookup "backend_config" with
    | some (.record fields) => some (Json.toSection fields)
    | _ => none
  | toml t =>
    match (tomlStorage? t).bind fun t => t.lookup "backend_config" with
    | some (.table fields) => some (Toml.toSection fields)
    | _ => none

variable {d : Document} {c : Config} {s : Section}

theorem reads_json {j : Json} (hread : ofJson? j = some c) (hsection : (json j).section? = some s) :
    (json j).backend? = some c.storage.kind ∧ c.storage.settings.IsReadFrom s := by
  rw [section?] at hsection
  split at hsection
  · rename_i fields hfields
    obtain rfl := Option.some.inj hsection
    obtain ⟨fs, hfs, hconfig⟩ := Option.bind_eq_some_iff.1 hfields
    obtain ⟨outer, houter, hfs'⟩ := Option.bind_eq_some_iff.1 hfs
    obtain ⟨v, hv, hinner⟩ := Option.bind_eq_some_iff.1 hfs'
    obtain ⟨outer', seed, storage, houter', -, hstorage, rfl⟩ := exists_parts hread
    obtain rfl : outer = outer' := Option.some.inj (houter.symm.trans houter')
    rw [Json.Fields.withDefault, hv] at hstorage
    obtain ⟨inner, kind, settings, hinner', hkind, hsettings, rfl⟩ := exists_parts hstorage
    obtain rfl : fs = inner := Option.some.inj (hinner.symm.trans hinner')
    rw [Json.Fields.withDefault, hconfig] at hsettings
    exact ⟨by rw [backend?, hfs, Option.bind_some, hkind], BackendSettings.isReadFrom_of_ofJson? hsettings⟩
  · cases hsection

theorem reads_toml {t : Toml.Table} (hread : ofTable? t = some c) (hsection : (toml t).section? = some s) :
    (toml t).backend? = some c.storage.kind ∧ c.storage.settings.IsReadFrom s := by
  rw [section?] at hsection
  split at hsection
  · rename_i fields hfields
    obtain rfl := Option.some.inj hsection
    obtain ⟨fs, hfs, hconfig⟩ := Option.bind_eq_some_iff.1 hfields
    obtain ⟨outer, houter, hfs'⟩ := Option.bind_eq_some_iff.1 hfs
    obtain ⟨v, hv, hinner⟩ := Option.bind_eq_some_iff.1 hfs'
    obtain ⟨outer', seed, storage, houter', -, hstorage, rfl⟩ := exists_parts hread
    obtain rfl : outer = outer' := Option.some.inj (houter.symm.trans houter')
    rw [Toml.Table.withDefault, hv] at hstorage
    obtain ⟨inner, kind, settings, hinner', hkind, hsettings, rfl⟩ := exists_parts hstorage
    obtain rfl : fs = inner := Option.some.inj (hinner.symm.trans hinner')
    rw [Toml.Table.withDefault, hconfig] at hsettings
    exact ⟨by rw [backend?, hfs, Option.bind_some, hkind], BackendSettings.isReadFrom_of_ofToml? hsettings⟩
  · cases hsection

/-- A document with a section of settings is read as naming its backend and as what its section says. -/
theorem reads (hread : d.config? = some c) (hsection : d.section? = some s) :
    d.backend? = some c.storage.kind ∧ c.storage.settings.IsReadFrom s := by
  cases d with
  | json j => exact reads_json hread hsection
  | toml t => exact reads_toml hread hsection

/-- **A section with a folder is kept unless it is ill-formed.** A document whose section of settings has a
folder is read as naming the backend that it names. If the configuration is valid, it is the file backend with
the settings that the section gives, unless the section is ill-formed and the memory backend is named, or none:
then the section is forgotten, and the store is kept in memory. -/
theorem file_section_kept_unless_ill_formed (hread : d.config? = some c) (hsection : d.section? = some s)
    (hfolder : s "base_dir" ≠ []) :
    d.backend? = some c.storage.kind ∧
    (c.validate = .ok () ↔ (VersionName.parse? c.seed).isSome = true ∧
      ((∃ f : FileSettings, f.IsGivenBy s ∧ Text.isBlankText f.fileName = false ∧
          c.storage = ⟨.file, .file f⟩) ∨
        s.IsIllFormed ∧ ∃ seed, c.storage = ⟨.memory, .memory seed⟩)) := by
  obtain ⟨hkind, hsettings⟩ := reads hread hsection
  refine ⟨hkind, ?_⟩
  rw [validate_eq_ok_iff, StorageConfig.validate_iff_of_isReadFrom hsettings hfolder]

/-- A section whose time to wait for the lock is a bare number is forgotten where no backend is named, so the
store is kept in memory and not in the folder. -/
theorem folder_forgotten_for_bare_number :
    let fields : Toml.Table := [("base_dir", .scalar (.text "/var/lib/iv")), ("lock_timeout", .scalar (.int 5))]
    let table : Toml.Table :=
      [("initial_base", .scalar (.text "1.0")), ("storage", .table [("backend_config", .table fields)])]
    let text := "initial_base = \"1.0\"\n\n[storage.backend_config]\n" ++
      "base_dir = \"/var/lib/iv\"\nlock_timeout = 5\n"
    let forgetful : Config := ⟨"1.0", .inMemory⟩
    (toml table).config? = some forgetful ∧ (toml table).section? = some (Toml.toSection fields) ∧
      Toml.toSection fields "base_dir" = [some "/var/lib/iv"] ∧ (Toml.toSection fields).IsIllFormed ∧
      (toml table).backend? = some .memory ∧ forgetful.validate = .ok () ∧ ofToml text = .ok forgetful := by
  intro fields table text forgetful
  have hread : (toml table).config? = some forgetful := by decide +kernel
  have hsection : (toml table).section? = some (Toml.toSection fields) := rfl
  have hfolder : Toml.toSection fields "base_dir" = [some "/var/lib/iv"] := by decide +kernel
  have htimeout : Toml.toSection fields "lock_timeout" = [none] := by decide +kernel
  have hill : (Toml.toSection fields).IsIllFormed := by
    refine .inr (.inr ⟨by rw [htimeout]; simp, ?_⟩)
    rintro a ⟨text, hgives, -⟩
    rw [htimeout] at hgives
    cases hgives
  obtain ⟨hkind, hvalid⟩ := file_section_kept_unless_ill_formed hread hsection (by rw [hfolder]; simp)
  have hvalid : forgetful.validate = .ok () := hvalid.2 ⟨by decide +kernel, .inr ⟨hill, none, rfl⟩⟩
  have hparse : (Toml.parse? text).bind ofTable? = some forgetful := by decide +kernel
  have hload : parseToml text = .ok forgetful := by rw [parseToml, hparse]
  refine ⟨hread, hsection, hfolder, hill, hkind, hvalid, ?_⟩
  rw [ofToml, hload]
  exact validated_eq_ok_iff.2 ⟨hvalid, rfl⟩

end Document

end Config

end VersionCatalog
