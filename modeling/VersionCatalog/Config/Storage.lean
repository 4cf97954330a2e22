import VersionCatalog.Backend.File
import VersionCatalog.Naming

/-!
# Configuration of the storage

Which backend keeps the store, and its settings. The settings carry no tag: a document that can be
read as the file backend's settings is that, and any other is read as the memory backend's, which
know only the path of a seed.
-/

namespace VersionCatalog

/-- The backends there are. -/
inductive BackendKind where
  | file
  | memory
  deriving DecidableEq

namespace BackendKind

/-- The word for a backend in documents. -/
def name : BackendKind → String
  | file => "file"
  | memory => "memory"

/-- The backend that a word names. -/
def ofName? : String → Option BackendKind
  | "file" => some file
  | "memory" => some memory
  | _ => none

@[simp] theorem ofName?_name (k : BackendKind) : ofName? k.name = some k := by
  cases k <;> rfl

/-- The word for a backend in messages. -/
def label : BackendKind → String
  | file => "File"
  | memory => "Memory"

end BackendKind

/-- The settings of a backend. -/
inductive BackendSettings where
  | file (settings : FileSettings)
  /-- The store starts as the one in the seed file, if there is one. -/
  | memory (seed : Option String)
  deriving DecidableEq

namespace BackendSettings

/-- The backend that settings are for. -/
def kind : BackendSettings → BackendKind
  | file _ => .file
  | memory _ => .memory

/-- The settings with another folder, if one is given. The memory backend has no folder. -/
def moveTo (folder : Option String) : BackendSettings → BackendSettings
  | file f => file { f with folder := folder.getD f.folder }
  | memory seed => memory seed

end BackendSettings

/-- The configuration of the storage. -/
structure StorageConfig where
  kind : BackendKind
  settings : BackendSettings
  deriving DecidableEq

namespace FileSettings

/-- The name of the store's file where none is given. -/
def standardName : String := "versioning-store.json"

/-- The time to wait for the lock where none is given: ten seconds. -/
def standardTimeout : Span := .ofSeconds 10 (by decide)

/-- The settings for a folder, otherwise as usual. -/
def ofFolder (folder : String) : FileSettings :=
  ⟨folder, standardName, standardTimeout⟩

/-- The document of the file backend's settings. -/
def toJson (f : FileSettings) : Json :=
  .record [("base_dir", .text f.folder), ("file_name", .text f.fileName),
    ("lock_timeout", .text f.lockTimeout.toText)]

/-- A span of time as a document holds it. -/
def span? (j : Json) : Option Span :=
  j.text?.bind Span.parse?

/-- The settings of the file backend that a document holds. -/
def ofJson? (j : Json) : Option FileSettings := do
  let fs ← j.fields? ["base_dir", "file_name", "lock_timeout"]
  let folder ← fs.required "base_dir" Json.text?
  let fileName ← fs.withDefault "file_name" Json.text? standardName
  let lockTimeout ← fs.withDefault "lock_timeout" span? standardTimeout
  return { folder, fileName, lockTimeout }

end FileSettings

namespace BackendSettings

/-- The document of a backend's settings. -/
def toJson : BackendSettings → Json
  | file f => f.toJson
  | memory seed => .record [("seed_path", Json.textOrNull seed)]

/-- The path of the seed in the memory backend's settings that a document holds. -/
def seed? (j : Json) : Option (Option String) := do
  let fs ← j.fields? ["seed_path"]
  fs.withDefault "seed_path" (Json.optional? Json.text?) none

/-- The settings that a document holds. -/
def ofJson? (j : Json) : Option BackendSettings :=
  if j.isReadable then
    match FileSettings.ofJson? j with
    | some f => some (.file f)
    | none => (seed? j).map .memory
  else none

end BackendSettings

/-- The variables of the environment; a variable that is not set has no value. -/
abbrev Environment := String → Option String

namespace StorageConfig

/-- The configuration with another folder, if one is given. -/
def moveTo (folder : Option String) (c : StorageConfig) : StorageConfig :=
  { c with settings := c.settings.moveTo folder }

/-- The memory backend without a seed. -/
def inMemory : StorageConfig := ⟨.memory, .memory none⟩

/-- The file backend in a folder. -/
def inFolder (folder : String) : StorageConfig := ⟨.file, .file (.ofFolder folder)⟩

/-- The document of a configuration. -/
def toJson (c : StorageConfig) : Json :=
  .record [("backend", .text c.kind.name), ("backend_config", c.settings.toJson)]

/-- The configuration that a document holds. -/
def ofJson? (j : Json) : Option StorageConfig := do
  let fs ← j.fields? ["backend", "backend_config"]
  let kind ← fs.withDefault "backend" (Json.word? BackendKind.ofName?) .memory
  let settings ← fs.withDefault "backend_config" BackendSettings.ofJson? (.memory none)
  return { kind, settings }

/-! ### Environment -/

/-- The variable that names the backend. -/
def typeVariable : String := "ITEM_VERSIONING_STORAGE_TYPE"

/-- The variable that names the file backend's folder. -/
def folderVariable : String := "ITEM_VERSIONING_STORAGE_DIR"

/-- The backend that a word names in small or capital letters; any other word stands for the memory.
No word with a letter outside ASCII becomes one of the names when it is made small. -/
def kindNamed (word : String) : BackendKind :=
  (BackendKind.ofName? word.toLower).getD .memory

/-- The configuration that the environment asks for. The folder of the file backend where the
environment gives none, `home`, is the machine's. -/
def ofEnvironment (env : Environment) (home : String) : StorageConfig :=
  match (env typeVariable).map kindNamed with
  | some .file => inFolder ((env folderVariable).getD home)
  | some .memory | none => inMemory

/-! ### Validity -/

/-- Refuses settings of another backend than the one that is named, and a file without a name. -/
def validate (c : StorageConfig) : Except StoreError Unit :=
  match c.kind, c.settings with
  | .file, .file f =>
    if Text.isBlankText f.fileName then
      .error ⟨.configuration, "file backend needs a non-empty file_name"⟩
    else .ok ()
  | .memory, .memory _ => .ok ()
  | kind, _ =>
    .error ⟨.configuration, s!"backend_config does not match backend type {kind.label}"⟩

end StorageConfig

end VersionCatalog
