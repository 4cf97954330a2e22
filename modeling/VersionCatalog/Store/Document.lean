import VersionCatalog.Json.Reader
import VersionCatalog.Json.Writer
import VersionCatalog.Store.Basic

/-!
# The document of a store

The form in which a store is kept in a file: one JSON document that holds all of it. All fields are
written; the tables may be missing when a document is read, and are empty then.
-/

namespace VersionCatalog

namespace Keyed

/-- The document of a table, each of its values written with `write`. -/
def toJson {α : Type} (write : α → Json) (t : Keyed α) : Json :=
  .record (t.entries.map fun (k, x) => (k, write x))

end Keyed

namespace Entry

/-- The document of a publication. -/
def toJson (e : Entry) : Json :=
  .record [("revision", e.revision.toJson), ("content", e.content.toJson)]

/-- The publication that a document holds. -/
def ofJson? (j : Json) : Option Entry := do
  let fs ← j.fields? ["revision", "content"]
  let revision ← fs.required "revision" Revision.ofJson?
  let content ← fs.required "content" Content.ofJson?
  return { revision, content }

end Entry

namespace SharedCopy

/-- The document of a shared copy. -/
def toJson (s : SharedCopy) : Json :=
  .record [("revisions", .list (s.entries.map Entry.toJson))]

/-- The shared copy that a document holds. -/
def ofJson? (j : Json) : Option SharedCopy := do
  let fs ← j.fields? ["revisions"]
  let entries ← fs.required "revisions" (Json.list? Entry.ofJson?)
  return { entries }

end SharedCopy

namespace WorkingCopy

/-- The document of a user's copy. -/
def toJson (c : WorkingCopy) : Json :=
  .record [("content", c.content.toJson), ("synced_revision", Json.textOrNull c.synced),
    ("dirty", .bool c.dirty), ("merging", .bool c.merging)]

/-- The user's copy that a document holds. -/
def ofJson? (j : Json) : Option WorkingCopy := do
  let fs ← j.fields? ["content", "synced_revision", "dirty", "merging"]
  let content ← fs.required "content" Content.ofJson?
  let synced ← fs.optional "synced_revision" Json.text?
  let dirty ← fs.required "dirty" Json.bool?
  let merging ← fs.required "merging" Json.bool?
  return { content, synced, dirty, merging }

end WorkingCopy

namespace Shelf

/-- The document of an item's versions. -/
def toJson (s : Shelf) : Json :=
  .record [("public", s.shared.toJson SharedCopy.toJson),
    ("private", s.copies.toJson (Keyed.toJson WorkingCopy.toJson))]

/-- The versions that a document holds. -/
def ofJson? (j : Json) : Option Shelf := do
  let fs ← j.fields? ["public", "private"]
  let shared ← fs.withDefault "public" (Json.keyed? SharedCopy.ofJson?) ∅
  let copies ← fs.withDefault "private" (Json.keyed? (Json.keyed? WorkingCopy.ofJson?)) ∅
  return { shared, copies }

end Shelf

namespace Tenant

/-- The document of what is stored for a tenant. -/
def toJson (t : Tenant) : Json :=
  .record [("items", t.items.toJson Item.toJson), ("versions", t.shelves.toJson Shelf.toJson)]

/-- What a document holds for a tenant. -/
def ofJson? (j : Json) : Option Tenant := do
  let fs ← j.fields? ["items", "versions"]
  let items ← fs.withDefault "items" (Json.keyed? Item.ofJson?) ∅
  let shelves ← fs.withDefault "versions" (Json.keyed? Shelf.ofJson?) ∅
  return { items, shelves }

end Tenant

namespace Store

/-- The document of a store. -/
def toJson (s : Store) : Json :=
  .record [("tenants", s.tenants.toJson Tenant.toJson)]

/-- The store that a document holds. -/
def ofJson? (j : Json) : Option Store := do
  let fs ← j.fields? ["tenants"]
  let tenants ← fs.withDefault "tenants" (Json.keyed? Tenant.ofJson?) ∅
  return { tenants }

/-- The text of a store, on many lines. -/
def toText (s : Store) : String :=
  s.toJson.toTextIn .indented

/-- The store that a text holds. -/
def parse? (s : String) : Option Store :=
  (Json.parse? s).bind ofJson?

end Store

end VersionCatalog
