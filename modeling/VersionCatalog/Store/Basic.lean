import VersionCatalog.Item
import VersionCatalog.Revision
import VersionCatalog.Session

/-!
# The store

Everything that is stored: for every tenant its items, and for every item the shared copy of each of
its versions and the copies that its users work on. A shared copy is the list of what was published,
the latest last (its *head*); a user's copy remembers the revision that it was made from.
-/

namespace VersionCatalog

/-- A publication: its record, and the content that was published. -/
structure Entry where
  revision : Revision
  content : Content
  deriving DecidableEq

/-- The shared copy of a version: all that was published of it, the latest last. -/
structure SharedCopy where
  entries : List Entry
  deriving DecidableEq

namespace SharedCopy

/-- The latest publication. -/
def head? (s : SharedCopy) : Option Entry :=
  s.entries.getLast?

end SharedCopy

/-- The copy of a version that a user works on. -/
structure WorkingCopy where
  content : Content
  /-- The revision that the copy was made from or published as. -/
  synced : Option String
  /-- Whether the copy has edits that were not published. -/
  dirty : Bool
  /-- Whether the copy had edits when a later revision was pulled. -/
  merging : Bool
  deriving DecidableEq

namespace WorkingCopy

/-- The unedited copy of a publication. -/
def ofEntry (e : Entry) : WorkingCopy :=
  ⟨e.content, some e.revision.id, false, false⟩

/-- How a copy stands to the shared one with the given head. -/
def syncState (c : WorkingCopy) (head : Option Entry) : SyncState :=
  if c.merging then .merging
  else if head.map (·.revision.id) = c.synced then .upToDate
  else .outOfSync

end WorkingCopy

/-- The versions of one item. -/
structure Shelf where
  /-- The shared copies by version. -/
  shared : Keyed SharedCopy
  /-- The users' copies by user and version. -/
  copies : Keyed (Keyed WorkingCopy)
  deriving DecidableEq

namespace Shelf

/-- The shelf without versions. -/
def empty : Shelf := ⟨∅, ∅⟩

/-- The latest publication of a version. -/
def head? (s : Shelf) (version : String) : Option Entry :=
  (s.shared.get? version).bind SharedCopy.head?

/-- A user's copy of a version. -/
def copy? (s : Shelf) (user version : String) : Option WorkingCopy :=
  (s.copies.get? user).bind (·.get? version)

/-- All latest publications, in the order of the versions' ids. -/
def heads (s : Shelf) : List Entry :=
  s.shared.values.filterMap SharedCopy.head?

/-- Puts a user's copy of a version into the shelf. -/
def putCopy (s : Shelf) (user version : String) (c : WorkingCopy) : Shelf :=
  { s with copies := s.copies.insert user ((s.copies.getD user ∅).insert version c) }

end Shelf

/-- What is stored for one tenant. -/
structure Tenant where
  items : Keyed Item
  shelves : Keyed Shelf
  deriving DecidableEq

/-- The tenant without items. -/
def Tenant.empty : Tenant := ⟨∅, ∅⟩

/-- Everything that is stored. -/
structure Store where
  tenants : Keyed Tenant
  deriving DecidableEq

namespace Store

/-- The store without anything in it. -/
def empty : Store := ⟨∅⟩

/-- What is stored for a tenant. -/
def tenant (s : Store) (name : String) : Tenant :=
  s.tenants.getD name Tenant.empty

/-- Puts what is stored for a tenant in place of what was. -/
def putTenant (s : Store) (name : String) (t : Tenant) : Store :=
  ⟨s.tenants.insert name t⟩

/-- The versions of an item. -/
def shelf (s : Store) (tenant item : String) : Shelf :=
  ((s.tenant tenant).shelves.get? item).getD Shelf.empty

end Store

/-- A change of the store that may fail; a change that fails may have done something before. -/
abbrev Change (α : Type) := EStateM StoreError Store α

end VersionCatalog
