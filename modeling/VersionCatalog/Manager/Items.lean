import VersionCatalog.Backend.Basic

/-!
# Managing items

The engine's calls on items, over any backend.
-/

namespace VersionCatalog

/-- A call of the engine on a backend over states `σ`. -/
abbrev Call (σ α : Type) := EStateM EngineError σ α

namespace Call

variable {σ α : Type}

/-- A call of the store as a call of the engine. -/
def ofStore (call : EStateM StoreError σ α) : Call σ α :=
  EStateM.adaptExcept EngineError.ofStore call

/-- A computation of the engine that does not touch the store. -/
def ofExcept (x : Except EngineError α) : Call σ α :=
  match x with
  | .ok a => pure a
  | .error e => throw e

end Call

namespace Items

variable {σ : Type}

/-- The tenant's items that a caller asks for, in the order of their creation. -/
def list (b : Backend σ) (session : Session) (keep : Item → Bool) : Call σ (List Item) := do
  let items ← .ofStore (b.listItems session)
  return items.filter keep

/-- An item of the tenant. -/
def get (b : Backend σ) (session : Session) (item : String) : Call σ Item := do
  match ← .ofStore (b.getItem session item) with
  | some stored => return stored
  | none => throw (.notFound s!"item {item}")

/-- Makes a new item of what a caller may set. -/
def create (b : Backend σ) (session : Session) (request : Item) : Call σ Item :=
  .ofStore (b.createItem session (Item.blank.overlay request))

/-- Takes what a caller may set over into an item. -/
def update (b : Backend σ) (session : Session) (item : String) (request : Item) : Call σ Item := do
  let stored ← get b session item
  .ofStore (b.updateItem session (stored.overlay request))
  get b session item

/-- Deletes an item and its versions. -/
def delete (b : Backend σ) (session : Session) (item : String) : Call σ Unit := do
  let _ ← get b session item
  .ofStore (b.deleteItem session item)

/-- Gives an item another status. -/
def updateStatus (b : Backend σ) (session : Session) (item : String) (status : ItemStatus) :
    Call σ Item := do
  let stored ← get b session item
  if stored.status = status then
    throw (.validation s!"Item {item} is already in status {status.name}")
  let changed := { stored with status := status }
  .ofStore (b.updateItem session changed)
  return changed

end Items

end VersionCatalog
