import VersionCatalog.Config.Basic
import VersionCatalog.Toml.Document

/-!
# Configuration in TOML

The configuration that a TOML document holds, and the one of a file under an environment. The section
of the backend's settings is taken in whole before it is tried as the one or the other backend's.
-/

namespace VersionCatalog

/-- The settings of the file backend that a value holds. -/
def FileSettings.ofToml? (v : Toml.Value) : Option FileSettings := do
  let t ← v.wholeFields? ["base_dir", "file_name", "lock_timeout"]
  let folder ← (← t.lookup "base_dir").text?
  let fileName ← t.withDefault "file_name" Toml.Value.text? standardName
  let lockTimeout ← t.withDefault "lock_timeout" (·.text?.bind Span.parse?) standardTimeout
  return { folder, fileName, lockTimeout }

namespace BackendSettings

/-- The path of the seed in the memory backend's settings that a value holds. -/
def tomlSeed? (v : Toml.Value) : Option (Option String) := do
  let t ← v.wholeFields? ["seed_path"]
  t.withDefault "seed_path" (·.text?.map some) none

/-- The settings of a backend that a value holds. -/
def ofToml? (v : Toml.Value) : Option BackendSettings :=
  match FileSettings.ofToml? v with
  | some f => some (.file f)
  | none => (tomlSeed? v).map .memory

end BackendSettings

/-- The configuration of the storage that a value holds. -/
def StorageConfig.ofToml? (v : Toml.Value) : Option StorageConfig := do
  let t ← v.fields? ["backend", "backend_config"]
  let kind ← t.withDefault "backend" (Toml.Value.word? BackendKind.ofName?) .memory
  let settings ← t.withDefault "backend_config" BackendSettings.ofToml? (.memory none)
  return { kind, settings }

namespace Config

/-- The configuration that a document's table holds. -/
def ofTable? (t : Toml.Table) : Option Config := do
  let t ← (Toml.Value.table t).fields? ["initial_base", "storage"]
  let seed ← t.withDefault "initial_base" Toml.Value.text? standard.seed
  let storage ← t.withDefault "storage" StorageConfig.ofToml? standard.storage
  return { seed, storage }

/-- The configuration that a TOML document holds, valid or not. -/
def parseToml (text : String) : Except EngineError Config :=
  match (Toml.parse? text).bind ofTable? with
  | some c => .ok c
  | none => .error (.config "invalid TOML: not a configuration")

/-- The valid configuration that a TOML document holds. -/
def ofToml (text : String) : Except EngineError Config := do
  (← parseToml text).validated

/-- The configuration in a TOML file at a path, under an environment. `content` is what reading the
file gave. -/
def load (path : String) (content : Except DiskError String) (env : Environment) (home : String) :
    Except EngineError Config := do
  match content with
  | .error e => .error (.config s!"failed to read {path}: {e.message}")
  | .ok text => ((← parseToml text).merge env home).validated

end Config

end VersionCatalog
