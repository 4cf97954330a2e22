import VersionCatalog.Disk.Path

/-!
# A disk

The files that a store is kept in: folders and text files under one root, with the calls that the
file backend makes and the reasons for which they fail. Paths that do not begin with a slash start
at the root too.
-/

namespace VersionCatalog

/-- What a path may lead to. -/
inductive Node where
  | folder
  | file (text : String)
  deriving DecidableEq

/-- The folders and files there are, by the names on the way to them. The root is a folder. -/
structure Disk where
  nodes : List (List String × Node)
  deriving DecidableEq

/-- Why a call on the disk fails. -/
inductive DiskError where
  | missing
  | notFolder
  | isFolder
  | occupied
  | nameTooLong
  | zeroByte
  | notText
  deriving DecidableEq

/-- The operating system's words for a failure. -/
def DiskError.message : DiskError → String
  | missing => "No such file or directory (os error 2)"
  | notFolder => "Not a directory (os error 20)"
  | isFolder => "Is a directory (os error 21)"
  | occupied => "File exists (os error 17)"
  | nameTooLong => "File name too long (os error 36)"
  | zeroByte => "file name contained an unexpected NUL byte"
  | notText => "stream did not contain valid UTF-8"

namespace Disk

/-- The disk with nothing but its root. -/
def empty : Disk := ⟨[]⟩

/-- What the names lead to. -/
def node? (d : Disk) : List String → Option Node
  | [] => some .folder
  | at_ => d.nodes.lookup at_

/-- Puts a folder or file where the names lead. -/
def put (d : Disk) (place : List String) (n : Node) : Disk :=
  ⟨(place, n) :: d.nodes.filter fun e => e.1 ≠ place⟩

/-- Takes what the names lead to away. -/
def drop (d : Disk) (place : List String) : Disk :=
  ⟨d.nodes.filter fun e => e.1 ≠ place⟩

/-- Takes a folder away with all that is in it. -/
def dropTree (d : Disk) (place : List String) : Disk :=
  ⟨d.nodes.filter fun e => !place.isPrefixOf e.1⟩

/-! ### Finding the way -/

/-- The folder that names lead to from a folder. -/
def enter (d : Disk) : (folder : List String) → List String → Except DiskError (List String)
  | folder, [] => .ok folder
  | folder, name :: rest =>
    if name = ".." then enter d folder.dropLast rest
    else if 255 < name.utf8ByteSize then .error .nameTooLong
    else
      match d.node? (folder ++ [name]) with
      | none => .error .missing
      | some (.file _) => .error .notFolder
      | some .folder => enter d (folder ++ [name]) rest

/-- The end of a path: its folder and its last name, or only a folder where the path ends with the
root or with `..`. -/
inductive Place where
  | folder
  | named (folder : List String) (name : String)

/-- Where a path ends. The last name need not exist. -/
def locate (d : Disk) (path : String) : Except DiskError Place := do
  if path.toList.contains '\x00' then .error .zeroByte
  else if path = "" then .error .missing
  else
    let names := Path.names path
    match names.getLast? with
    | none | some ".." => (d.enter [] names).map fun _ => .folder
    | some name =>
      let folder ← d.enter [] names.dropLast
      if 255 < name.utf8ByteSize then .error .nameTooLong else .ok (.named folder name)

/-! ### Calls -/

/-- The text of a file. -/
def read (d : Disk) (path : String) : Except DiskError String := do
  match ← d.locate path with
  | .folder => .error .isFolder
  | .named folder name =>
    match d.node? (folder ++ [name]) with
    | none => .error .missing
    | some .folder => .error .isFolder
    | some (.file text) => if Path.namesFolder path then .error .notFolder else .ok text

/-- Makes a file with a text, or gives an existing file the text. -/
def write (d : Disk) (path text : String) : Except DiskError Disk := do
  match ← d.locate path with
  | .folder => .error .isFolder
  | .named folder name =>
    if Path.namesFolder path then .error .isFolder
    else if d.node? (folder ++ [name]) = some .folder then .error .isFolder
    else .ok (d.put (folder ++ [name]) (.file text))

/-- Removes a file. -/
def remove (d : Disk) (path : String) : Except DiskError Disk := do
  match ← d.locate path with
  | .folder => .error .isFolder
  | .named folder name =>
    match d.node? (folder ++ [name]) with
    | none => .error .missing
    | some .folder => .error .isFolder
    | some (.file _) =>
      if Path.namesFolder path then .error .notFolder else .ok (d.drop (folder ++ [name]))

/-- Moves a file to another path, in place of the file there. -/
def rename (d : Disk) (source target : String) : Except DiskError Disk := do
  let text ← d.read source
  match ← d.locate target with
  | .folder => .error .isFolder
  | .named folder name =>
    if Path.namesFolder target then .error .notFolder
    else if d.node? (folder ++ [name]) = some .folder then .error .isFolder
    else (← d.remove source).write target text

/-- Makes the folders that names lead to from a folder where they are missing. -/
def makeFoldersFrom (d : Disk) : (folder : List String) → List String → Except DiskError Disk
  | _, [] => .ok d
  | folder, name :: rest =>
    if name = ".." then makeFoldersFrom d folder.dropLast rest
    else if 255 < name.utf8ByteSize then .error .nameTooLong
    else
      match d.node? (folder ++ [name]) with
      | some .folder => makeFoldersFrom d (folder ++ [name]) rest
      | some (.file _) => .error (if rest.isEmpty then .occupied else .notFolder)
      | none => makeFoldersFrom (d.put (folder ++ [name]) .folder) (folder ++ [name]) rest

/-- Makes a folder, and those around it, where they are missing. -/
def makeFolders (d : Disk) (path : String) : Except DiskError Disk :=
  if path.toList.contains '\x00' then .error .zeroByte
  else d.makeFoldersFrom [] (Path.names path)

/-- Removes a folder with all that is in it. -/
def removeTree (d : Disk) (path : String) : Disk :=
  match d.enter [] (Path.names path) with
  | .ok place => d.dropTree place
  | .error _ => d

end Disk

end VersionCatalog
