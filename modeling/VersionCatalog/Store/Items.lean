import VersionCatalog.Store.Basic

/-!
# Items in the store

The items of the session's tenant are listed, got, created, updated and deleted. What a session
changes is its own tenant's part of the store; a call that changes something makes that part first
if there is none.
-/

namespace VersionCatalog.Store

/-- Changes what is stored for the session's tenant. -/
def onTenant {α : Type} (session : Session) (change : EStateM StoreError Tenant α) : Change α :=
  fun s =>
    match change (s.tenant session.tenant) with
    | .ok a t => .ok a (s.putTenant session.tenant t)
    | .error e t => .error e (s.putTenant session.tenant t)

/-- The tenant's items, in the order of their creation. -/
def listItems (s : Store) (session : Session) : List Item :=
  (s.tenant session.tenant).items.values.mergeSort Item.listedBefore

/-- The item with an id, if the tenant has it. -/
def getItem (s : Store) (session : Session) (item : String) : Option Item :=
  (s.tenant session.tenant).items.get? item

/-- Stores an item as a new one under a new id, created now. -/
def createItem (id : String) (now : Instant) (session : Session) (item : Item) : Change Item :=
  onTenant session fun t =>
    let item := { item with id := id, created := some now, modified := some now }
    .ok item { t with items := t.items.insert id item }

/-- Stores an item in place of the one with its id, whose creation time it keeps. -/
def updateItem (now : Instant) (session : Session) (item : Item) : Change Unit :=
  onTenant session fun t =>
    match t.items.get? item.id with
    | none => .error (.noItem item.id) t
    | some stored =>
      let item := { item with created := stored.created, modified := some now }
      .ok () { t with items := t.items.insert item.id item }

/-- Deletes an item and all its versions. -/
def deleteItem (session : Session) (item : String) : Change Unit :=
  onTenant session fun t =>
    if t.items.contains item then
      .ok () { t with items := t.items.erase item, shelves := t.shelves.erase item }
    else .error (.noItem item) t

end VersionCatalog.Store
