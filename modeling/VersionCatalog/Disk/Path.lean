/-!
# Paths

Paths are texts whose names are separated by slashes. Empty names and the name `.` are of no
account, `..` leads back to the folder around; a path that begins with a slash starts at the root.
-/

namespace VersionCatalog.Path

/-- A text cut at its slashes; empty parts are kept. -/
def cut : List Char → List (List Char)
  | [] => [[]]
  | c :: cs =>
    if c = '/' then [] :: cut cs
    else
      match cut cs with
      | [] => [[c]]
      | part :: parts => (c :: part) :: parts

/-- The names along a path. -/
def names (path : String) : List String :=
  ((cut path.toList).filter fun part => part ≠ [] && part ≠ ['.']).map String.ofList

/-- Whether a path ends with a slash or with `/.`, which only a folder's path may. -/
def namesFolder (path : String) : Bool :=
  match (cut path.toList).getLast? with
  | some part => part.isEmpty || part == ['.']
  | none => false

/-- The path that leads from a folder along another path: a slash is put between them unless one is
there, and a path from the root stands for itself. -/
def join (folder path : String) : String :=
  match path.toList, folder.toList.getLast? with
  | '/' :: _, _ => path
  | _, none => path
  | _, some '/' => folder ++ path
  | _, some _ => folder ++ "/" ++ path

/-- A path without what follows its last name: slashes, and the name `.` after one. -/
def trimEnd (reversed : List Char) : List Char :=
  match reversed with
  | '/' :: rest => trimEnd rest
  | '.' :: '/' :: rest => trimEnd rest
  | other => other

/-- The name without its extension, which is its last point and what follows it; a point that the
name begins with starts no extension. -/
def stem (name : List Char) : List Char :=
  match name.reverse.dropWhile (· ≠ '.') with
  | [] | [_] => name
  | _ :: rest => rest.reverse

/-- The path with another extension for its last name. A path whose last name is missing, `.` or
`..` stays as it is. -/
def withExtension (path extension : String) : String :=
  let reversed := trimEnd path.toList.reverse
  let name := (reversed.takeWhile (· ≠ '/')).reverse
  let before := (reversed.dropWhile (· ≠ '/')).reverse
  if name = [] ∨ name = ['.'] ∨ name = ['.', '.'] then path
  else String.ofList (before ++ stem name) ++ "." ++ extension

end VersionCatalog.Path
