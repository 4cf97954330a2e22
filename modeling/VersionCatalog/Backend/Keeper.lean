import VersionCatalog.Backend.Basic
import VersionCatalog.Store.Versions

/-!
# Backends that keep a store

Backends differ in where they keep the store, and so in how it is read and changed there. All else is
the same: each call is a reading or a change of the store.
-/

namespace VersionCatalog

/-- How a store is kept in states `σ`. -/
structure Keeper (σ : Type) where
  /-- What the backend is called. -/
  name : String
  /-- A call that reads the store. -/
  reading : {α : Type} → (Store → α) → EStateM StoreError σ α
  /-- A call that changes the store. -/
  changing : {α : Type} → Change α → EStateM StoreError σ α

/-- The backend of a store that is kept. Versions are never deleted. -/
def Keeper.backend {σ : Type} (k : Keeper σ) (fresh : Fresh) : Backend σ where
  listItems session := k.reading (·.listItems session)
  getItem session item := k.reading (·.getItem session item)
  createItem session item :=
    k.changing (Store.createItem fresh.item fresh.clock.createItem session item)
  updateItem session item := k.changing (Store.updateItem fresh.clock.updateItem session item)
  deleteItem session item := k.changing (Store.deleteItem session item)
  listVersions session item := k.reading (·.listVersions session item)
  createVersion session item v :=
    k.changing (Store.createVersion fresh.version fresh.clock.createVersion session item v)
  updateVersion session item v :=
    k.changing (Store.updateVersion fresh.clock.updateVersion session item v)
  getVersion session item version := k.reading (·.getVersion session item version)
  deleteVersion _ _ _ := throw ⟨.unsupported, s!"{k.name} backend does not delete versions"⟩
  publish session item version message :=
    k.changing (Store.publish fresh.revision fresh.clock.publish session item version message)
  sync session item version := k.changing (Store.sync session item version)
  forceSync session item version := k.changing (Store.forceSync session item version)
  clean session item version := k.changing (Store.clean session item version)
  revert session item version revision :=
    k.changing (Store.revert fresh.clock.revert session item version revision)
  listRevisions session item version := k.reading (·.listRevisions session item version)

end VersionCatalog
