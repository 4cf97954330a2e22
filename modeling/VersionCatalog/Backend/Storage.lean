import VersionCatalog.Backend.Memory
import VersionCatalog.Config.Basic
import VersionCatalog.Manager.Items

/-!
# Opening a storage

From a configuration to a backend that is ready for calls, and to the engine over it.
-/

namespace VersionCatalog

/-- An open storage. -/
inductive Storage where
  /-- The memory backend, with the store it starts from. -/
  | memory (store : Store)
  /-- The file backend. -/
  | file (settings : FileSettings)

namespace Storage

/-- Opens the memory backend. A seed is read from its file. -/
def openMemory (c : StorageConfig) : EStateM StoreError Disk Storage := fun d =>
  match c.settings with
  | .file _ => .error ⟨.configuration, "Invalid backend config for memory storage"⟩ d
  | .memory none => .ok (.memory .empty) d
  | .memory (some path) =>
    match d.read path with
    | .error e => .error (.ofDisk e) d
    | .ok text =>
      match Store.parse? text with
      | some s => .ok (.memory s) d
      | none => .error .unreadable d

/-- Opens the file backend, which makes its folder. -/
def openFile (c : StorageConfig) : EStateM StoreError Disk Storage := fun d =>
  match c.settings with
  | .memory _ => .error ⟨.configuration, "Invalid backend config for file storage"⟩ d
  | .file f =>
    match File.openFolder f d with
    | .ok () d => .ok (.file f) d
    | .error e d => .error e d

/-- Opens the storage of a valid configuration. -/
def ofConfig (c : StorageConfig) : EStateM StoreError Disk Storage := do
  match c.validate with
  | .error e => throw e
  | .ok () =>
    match c.kind with
    | .file => openFile c
    | .memory => openMemory c

end Storage

/-- The engine over an open storage. -/
structure Engine where
  storage : Storage
  naming : Calculator

/-- Opens the engine of a valid configuration. -/
def Engine.ofConfig (c : Config) : EStateM EngineError Disk Engine := do
  Call.ofExcept c.validate
  let storage ← Call.ofStore (Storage.ofConfig c.storage)
  let naming ← Call.ofExcept (Calculator.ofSeed c.seed)
  return { storage, naming }

end VersionCatalog
