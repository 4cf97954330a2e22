import VersionCatalog.Backend.Basic

/-!
# The scripted backend

A backend whose answers are laid down beforehand, and which keeps a record of what it is asked. It
answers what no real store would, so that every path through the engine can be taken. A call without
an answer that is laid down gets the plainest one.
-/

namespace VersionCatalog

/-- A call that a scripted backend got: which one, and with what arguments after the session. -/
structure Asked where
  call : String
  arguments : List Json
  deriving DecidableEq

/-- The answers that are laid down for each call, in the order of their use, and the calls so far,
the last one first. -/
structure Script where
  answers : Keyed (List (Except StoreError Json))
  asked : List Asked

namespace Script

variable {α : Type}

/-- Takes the next answer to a call, read with `read`. -/
def answer (call : String) (arguments : List Json) (read : Json → Option α) (plain : α) :
    EStateM StoreError Script α := fun s =>
  let s := { s with asked := ⟨call, arguments⟩ :: s.asked }
  match s.answers.getD call [] with
  | [] => .ok plain s
  | next :: rest =>
    let s := { s with answers := s.answers.insert call rest }
    match next with
    | .error e => .error e s
    | .ok j => .ok ((read j).getD plain) s

/-- Takes the next answer to a call that answers nothing but success. -/
def done (call : String) (arguments : List Json) : EStateM StoreError Script Unit :=
  answer call arguments (fun _ => some ()) ()

/-- The calls so far, the first one first. -/
def calls (s : Script) : List Asked :=
  s.asked.reverse

/-- The script as a backend. -/
def backend : Backend Script where
  listItems _ := answer "items.list" [] (Json.list? Item.ofJson?) []
  getItem _ item := answer "items.get" [.text item] (Json.optional? Item.ofJson?) none
  createItem _ item := answer "items.create" [item.toJson] Item.ofJson? item
  updateItem _ item := done "items.update" [item.toJson]
  deleteItem _ item := done "items.delete" [.text item]
  listVersions _ item := answer "list" [.text item] (Json.list? Version.ofJson?) []
  createVersion _ item v := answer "create" [.text item, v.toJson] Version.ofJson? v
  updateVersion _ item v := done "update" [.text item, v.toJson]
  getVersion _ item version :=
    answer "get" [.text item, .text version] (Json.optional? Version.ofJson?) none
  deleteVersion _ item version := done "delete" [.text item, .text version]
  publish _ item version message := done "publish" [.text item, .text version, .text message]
  sync _ item version := done "sync" [.text item, .text version]
  forceSync _ item version := done "force_sync" [.text item, .text version]
  clean _ item version := done "clean" [.text item, .text version]
  revert _ item version revision := done "revert" [.text item, .text version, .text revision]
  listRevisions _ item version :=
    answer "list_revisions" [.text item, .text version] (Json.list? Revision.ofJson?) []

end Script

end VersionCatalog
