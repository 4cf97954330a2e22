import VersionCatalog.Config.Storage

/-!
# Configuration

The configuration of the engine: the seed of the calculator and the storage. It is what a document
says, over which the variables of the environment are laid.
-/

namespace VersionCatalog

/-- The configuration of the engine. -/
structure Config where
  /-- The name after which versions without a base are named. -/
  seed : String
  storage : StorageConfig
  deriving DecidableEq

namespace Config

/-- The configuration where nothing is configured. -/
def standard : Config := ⟨"0.0", .inMemory⟩

/-- The configuration that a document holds. -/
def ofJson? (j : Json) : Option Config := do
  let fs ← j.fields? ["initial_base", "storage"]
  let seed ← fs.withDefault "initial_base" Json.text? standard.seed
  let storage ← fs.withDefault "storage" StorageConfig.ofJson? standard.storage
  return { seed, storage }

/-- The document of a configuration. -/
def toJson (c : Config) : Json :=
  .record [("initial_base", .text c.seed), ("storage", c.storage.toJson)]

/-- Refuses a seed that is no name of a version, and a storage that is not valid. -/
def validate (c : Config) : Except EngineError Unit :=
  match VersionName.parse? c.seed with
  | none =>
    .error (.config (s!"initial_base '{c.seed}' must be in the format " ++
      "{integer}.{integer}"))
  | some _ =>
    match c.storage.validate with
    | .ok () => .ok ()
    | .error e => .error (.config e.message)

/-- A configuration that is valid. -/
def validated (c : Config) : Except EngineError Config :=
  c.validate.map fun () => c

/-! ### Environment -/

/-- The variable that names the seed. -/
def seedVariable : String := "ITEM_VERSIONING_INITIAL_BASE"

/-- The storage that an environment names, in place of one that is another backend's or has another
backend's settings. -/
def replaceStorage (c : StorageConfig) (env : Environment) (home : String) : StorageConfig :=
  match env StorageConfig.typeVariable with
  | none => c
  | some _ =>
    let named := StorageConfig.ofEnvironment env home
    if named.kind = c.kind ∧ named.kind = c.settings.kind then c else named

/-- The storage under an environment. A backend that the environment names replaces the configured
storage only if that is another backend or has another's settings; the folder is then replaced where
the file backend is in use. -/
def mergeStorage (c : StorageConfig) (env : Environment) (home : String) : StorageConfig :=
  (replaceStorage c env home).moveTo (env StorageConfig.folderVariable)

/-- The configuration under an environment. -/
def merge (c : Config) (env : Environment) (home : String) : Config where
  seed := (env seedVariable).getD c.seed
  storage := mergeStorage c.storage env home

/-- The configuration that the environment asks for where nothing else is configured. -/
def ofEnvironment (env : Environment) (home : String) : Except EngineError Config :=
  (standard.merge env home).validated

end Config

end VersionCatalog
