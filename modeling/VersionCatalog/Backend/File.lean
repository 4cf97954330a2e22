import VersionCatalog.Backend.Keeper
import VersionCatalog.Disk.Basic
import VersionCatalog.Span
import VersionCatalog.Store.Document

/-!
# The file backend

A store that is kept as one document in a file. Every call reads the document, and a call that
changes the store and succeeds writes it back: first into a file beside it, which is then put in its
place. A call that fails writes nothing. One call at a time has the store's lock; a call that does not
get it in time fails.
-/

namespace VersionCatalog

/-- Where a store's file is, and how long a call waits for the lock. -/
structure FileSettings where
  folder : String
  fileName : String
  lockTimeout : Span
  deriving DecidableEq

namespace FileSettings

/-- The path of the store's file. -/
def storePath (f : FileSettings) : String :=
  Path.join f.folder f.fileName

/-- The path of the file that a new document is written into. -/
def draftPath (f : FileSettings) : String :=
  Path.withExtension f.storePath "json.tmp"

/-- The path of the file that a check of the health writes and removes. -/
def probePath (f : FileSettings) : String :=
  Path.join f.folder ".health_check"

end FileSettings

/-- The store's error for a failed call on the disk. -/
def StoreError.ofDisk (e : DiskError) : StoreError :=
  ⟨.io, e.message⟩

namespace File

variable {α : Type}

/-- Makes the store's folder. -/
def openFolder (f : FileSettings) : EStateM StoreError Disk Unit := fun d =>
  match d.makeFolders f.folder with
  | .ok d => .ok () d
  | .error e => .error (.ofDisk e) d

/-- The store in the file. A missing file is a store without anything in it. -/
def load (f : FileSettings) (d : Disk) : Except StoreError Store :=
  match d.read f.storePath with
  | .ok text =>
    match Store.parse? text with
    | some s => .ok s
    | none => .error .unreadable
  | .error .missing => .ok .empty
  | .error e => .error (.ofDisk e)

/-- Writes a store into the file. -/
def save (f : FileSettings) (s : Store) : EStateM StoreError Disk Unit := fun d =>
  match d.write f.draftPath s.toText with
  | .error e => .error (.ofDisk e) d
  | .ok written =>
    match written.rename f.draftPath f.storePath with
    | .error e => .error (.ofDisk e) written
    | .ok d => .ok () d

/-- The store in the file, for a call that has the lock. -/
def loadLocked (f : FileSettings) (locked : Bool) (d : Disk) : Except StoreError Store :=
  if locked then .error ⟨.unavailable, s!"store file {f.storePath} is locked"⟩ else load f d

/-- A call that reads the store. -/
def reading (f : FileSettings) (locked : Bool) (g : Store → α) : EStateM StoreError Disk α :=
  fun d =>
    match loadLocked f locked d with
    | .ok s => .ok (g s) d
    | .error e => .error e d

/-- A call that changes the store. -/
def changing (f : FileSettings) (locked : Bool) (change : Change α) :
    EStateM StoreError Disk α := fun d =>
  match loadLocked f locked d with
  | .error e => .error e d
  | .ok s =>
    match change s with
    | .error e _ => .error e d
    | .ok a s =>
      match save f s d with
      | .ok () d => .ok a d
      | .error e d => .error e d

/-- The store is in the file. `locked` says that another call keeps the lock for longer than this one
waits. -/
def keeper (f : FileSettings) (locked : Bool) : Keeper Disk where
  name := "file"
  reading := reading f locked
  changing := changing f locked

/-- The file as a backend. -/
def backend (f : FileSettings) (locked : Bool) (fresh : Fresh) : Backend Disk :=
  (keeper f locked).backend fresh

/-- Checks the health: whether a file can be written into the folder, which is then removed, and
whether the store can be read. The report says how long all that took. -/
def checkHealth (f : FileSettings) (locked : Bool) (latency : Nat) (d : Disk) : Health × Disk :=
  let (unwritable, d) := match d.write f.probePath "health_check" with
    | .ok d => ([], d)
    | .error e => ([e.message], d)
  let d := match d.remove f.probePath with
    | .ok d => d
    | .error _ => d
  let unreadable := match loadLocked f locked d with
    | .ok _ => []
    | .error e => [e.message]
  (.ofErrors "file" latency (unwritable ++ unreadable), d)

end File

end VersionCatalog
