import VersionCatalog.Proofs.Table
import VersionCatalog.Store.Versions

/-!
# Places in the store

A store is looked at through two questions: which item a tenant has under an id (`Store.item?`), and
what is kept of its versions (`Store.shelf`). Each call of the store is restated here as an equation
whose right-hand side puts something into one place (`putItem`, `putShelf`), takes something out of one
(`dropItem`), or touches a tenant without changing what it holds (`touch`); what these do to the two
questions is said once for each.

Two stores are **alike** when the two questions cannot tell them apart, and neither can a look at any
user's copies. They differ at most in tables that are empty.
-/

namespace VersionCatalog

/-! ### What a store is asked -/

namespace Shelf

/-- All that was published of a version, the latest last. -/
def entries (s : Shelf) (version : String) : List Entry :=
  (s.shared.get? version).elim [] (·.entries)

/-- Two shelves that differ at most in users without copies. -/
structure Alike (a b : Shelf) : Prop where
  shared : a.shared = b.shared
  copies : ∀ user, a.copies.getD user ∅ = b.copies.getD user ∅

theorem Alike.refl (a : Shelf) : a.Alike a :=
  ⟨rfl, fun _ => rfl⟩

theorem Alike.symm {a b : Shelf} (h : a.Alike b) : b.Alike a :=
  ⟨h.shared.symm, fun user => (h.copies user).symm⟩

theorem Alike.trans {a b c : Shelf} (h : a.Alike b) (h' : b.Alike c) : a.Alike c :=
  ⟨h.shared.trans h'.shared, fun user => (h.copies user).trans (h'.copies user)⟩

end Shelf

namespace Store

/-- The item that a tenant has under an id. -/
def item? (s : Store) (tenant id : String) : Option Item :=
  (s.tenant tenant).items.get? id

/-- What a tenant keeps of the versions of an item, if there is an entry for them. -/
def shelf? (s : Store) (tenant item : String) : Option Shelf :=
  (s.tenant tenant).shelves.get? item

/-- Without an entry there are no versions. -/
theorem shelf_eq (s : Store) (tenant item : String) :
    s.shelf tenant item = (s.shelf? tenant item).getD Shelf.empty := rfl

/-- Two stores that differ at most in empty tables: tenants with nothing in them, items without
versions, users without copies. -/
structure Alike (s t : Store) : Prop where
  items : ∀ tenant, (s.tenant tenant).items = (t.tenant tenant).items
  shelves : ∀ tenant item, (s.shelf tenant item).Alike (t.shelf tenant item)

theorem Alike.refl (s : Store) : s.Alike s :=
  ⟨fun _ => rfl, fun _ _ => .refl _⟩

theorem Alike.symm {s t : Store} (h : s.Alike t) : t.Alike s :=
  ⟨fun tenant => (h.items tenant).symm, fun tenant item => (h.shelves tenant item).symm⟩

theorem Alike.trans {s t u : Store} (h : s.Alike t) (h' : t.Alike u) : s.Alike u :=
  ⟨fun tenant => (h.items tenant).trans (h'.items tenant),
    fun tenant item => (h.shelves tenant item).trans (h'.shelves tenant item)⟩

theorem Alike.item? {s t : Store} (h : s.Alike t) (tenant id : String) :
    s.item? tenant id = t.item? tenant id := by
  rw [Store.item?, Store.item?, h.items]

/-! ### Changes of one place -/

/-- Makes a tenant's part of the store if there is none; what it holds stays. -/
def touch (s : Store) (tenant : String) : Store :=
  s.putTenant tenant (s.tenant tenant)

/-- Puts an item in its place. -/
def putItem (s : Store) (tenant : String) (i : Item) : Store :=
  s.putTenant tenant { s.tenant tenant with items := (s.tenant tenant).items.insert i.id i }

/-- Puts an item's versions in their place. -/
def putShelf (s : Store) (tenant item : String) (shelf : Shelf) : Store :=
  s.putTenant tenant { s.tenant tenant with shelves := (s.tenant tenant).shelves.insert item shelf }

/-- Takes an item and its versions out of their places. -/
def dropItem (s : Store) (tenant item : String) : Store :=
  s.putTenant tenant
    { s.tenant tenant with
      items := (s.tenant tenant).items.erase item
      shelves := (s.tenant tenant).shelves.erase item }

theorem tenant_putTenant (s : Store) (name name' : String) (t : Tenant) :
    (s.putTenant name t).tenant name' = if name' = name then t else s.tenant name' :=
  Keyed.getD_insert _ _ _ _ _

@[simp] theorem item?_empty (tenant id : String) : empty.item? tenant id = none := rfl

@[simp] theorem item?_touch (s : Store) (tenant t i : String) :
    (s.touch tenant).item? t i = s.item? t i := by
  rw [item?, item?, touch, tenant_putTenant]
  split
  · rename_i h
    rw [h]
  · rfl

@[simp] theorem shelf_touch (s : Store) (tenant t i : String) :
    (s.touch tenant).shelf t i = s.shelf t i := by
  rw [shelf, shelf, touch, tenant_putTenant]
  split
  · rename_i h
    rw [h]
  · rfl

theorem item?_putItem (s : Store) (tenant t i : String) (x : Item) :
    (s.putItem tenant x).item? t i = if t = tenant ∧ i = x.id then some x else s.item? t i := by
  rw [item?, item?, putItem, tenant_putTenant]
  by_cases ht : t = tenant
  · subst ht
    simp [Keyed.get?_insert]
  · simp [ht]

@[simp] theorem shelf_putItem (s : Store) (tenant t i : String) (x : Item) :
    (s.putItem tenant x).shelf t i = s.shelf t i := by
  rw [shelf, shelf, putItem, tenant_putTenant]
  split
  · rename_i h
    rw [h]
  · rfl

@[simp] theorem item?_putShelf (s : Store) (tenant item t i : String) (x : Shelf) :
    (s.putShelf tenant item x).item? t i = s.item? t i := by
  rw [item?, item?, putShelf, tenant_putTenant]
  split
  · rename_i h
    rw [h]
  · rfl

theorem shelf_putShelf (s : Store) (tenant item t i : String) (x : Shelf) :
    (s.putShelf tenant item x).shelf t i
      = if t = tenant ∧ i = item then x else s.shelf t i := by
  rw [shelf, shelf, putShelf, tenant_putTenant]
  by_cases ht : t = tenant
  · subst ht
    by_cases hi : i = item <;> simp [Keyed.get?_insert, hi]
  · simp [ht]

@[simp] theorem shelf_putShelf_self (s : Store) (tenant item : String) (x : Shelf) :
    (s.putShelf tenant item x).shelf tenant item = x := by
  rw [shelf_putShelf, if_pos ⟨rfl, rfl⟩]

@[simp] theorem shelf?_touch (s : Store) (tenant t i : String) :
    (s.touch tenant).shelf? t i = s.shelf? t i := by
  rw [shelf?, shelf?, touch, tenant_putTenant]
  split
  · rename_i h
    rw [h]
  · rfl

@[simp] theorem shelf?_putItem (s : Store) (tenant t i : String) (x : Item) :
    (s.putItem tenant x).shelf? t i = s.shelf? t i := by
  rw [shelf?, shelf?, putItem, tenant_putTenant]
  split
  · rename_i h
    rw [h]
  · rfl

theorem shelf?_putShelf (s : Store) (tenant item t i : String) (x : Shelf) :
    (s.putShelf tenant item x).shelf? t i
      = if t = tenant ∧ i = item then some x else s.shelf? t i := by
  rw [shelf?, shelf?, putShelf, tenant_putTenant]
  by_cases ht : t = tenant
  · subst ht
    simp [Keyed.get?_insert]
  · simp [ht]

theorem shelf?_dropItem (s : Store) (tenant item t i : String) :
    (s.dropItem tenant item).shelf? t i
      = if t = tenant ∧ i = item then none else s.shelf? t i := by
  rw [shelf?, shelf?, dropItem, tenant_putTenant]
  by_cases ht : t = tenant
  · subst ht
    simp [Keyed.get?_erase]
  · simp [ht]

theorem item?_dropItem (s : Store) (tenant item t i : String) :
    (s.dropItem tenant item).item? t i
      = if t = tenant ∧ i = item then none else s.item? t i := by
  rw [item?, item?, dropItem, tenant_putTenant]
  by_cases ht : t = tenant
  · subst ht
    simp [Keyed.get?_erase]
  · simp [ht]

theorem shelf_dropItem (s : Store) (tenant item t i : String) :
    (s.dropItem tenant item).shelf t i
      = if t = tenant ∧ i = item then Shelf.empty else s.shelf t i := by
  rw [shelf, shelf, dropItem, tenant_putTenant]
  by_cases ht : t = tenant
  · subst ht
    by_cases hi : i = item <;> simp [Keyed.get?_erase, hi]
  · simp [ht]

/-- Of two shelves put into one place the later one remains. -/
@[simp] theorem putShelf_putShelf (s : Store) (tenant item : String) (x y : Shelf) :
    (s.putShelf tenant item x).putShelf tenant item y = s.putShelf tenant item y := by
  simp [putShelf, putTenant, Store.tenant, Keyed.getD_insert]

/-- An item and its versions are put in either order. -/
theorem putShelf_putItem (s : Store) (tenant item : String) (x : Shelf) (y : Item) :
    (s.putShelf tenant item x).putItem tenant y = (s.putItem tenant y).putShelf tenant item x := by
  simp [putShelf, putItem, putTenant, Store.tenant, Keyed.getD_insert]

@[simp] theorem touch_touch (s : Store) (tenant : String) :
    (s.touch tenant).touch tenant = s.touch tenant := by
  simp [touch, putTenant, Store.tenant, Keyed.getD_insert]

/-- A touched store differs at most in an empty tenant. -/
theorem alike_touch (s : Store) (tenant : String) : s.Alike (s.touch tenant) where
  items name := by
    rw [touch, tenant_putTenant]
    split
    · rename_i h
      rw [h]
    · rfl
  shelves name item := by
    rw [shelf_touch]
    exact .refl _

/-- A shelf in the place of one that it is alike to makes an alike store. -/
theorem alike_putShelf {s : Store} {tenant item : String} {x : Shelf}
    (h : (s.shelf tenant item).Alike x) : s.Alike (s.putShelf tenant item x) where
  items name := by
    rw [putShelf, tenant_putTenant]
    split
    · rename_i h
      rw [h]
    · rfl
  shelves name i := by
    rw [shelf_putShelf]
    split
    · rename_i hplace
      rw [hplace.1, hplace.2]
      exact h
    · exact .refl _

/-- Putting back the shelf that is there changes nothing. -/
theorem putShelf_eq_self {s : Store} {tenant item : String} {t : Tenant}
    (ht : s.tenants.get? tenant = some t) {x : Shelf} (hx : t.shelves.get? item = some x) :
    s.putShelf tenant item x = s := by
  have htenant : s.tenant tenant = t := by rw [Store.tenant, Keyed.getD_eq, ht, Option.getD_some]
  rw [putShelf, htenant, Keyed.insert_eq_self hx, putTenant, Keyed.insert_eq_self ht]

/-! ### The calls of the store as changes of one place -/

theorem contains_items (s : Store) (tenant item : String) :
    (s.tenant tenant).items.contains item = (s.item? tenant item).isSome := rfl

theorem createItem_eq (id : String) (now : Instant) (session : Session) (item : Item) (s : Store) :
    createItem id now session item s =
      let item := { item with id := id, created := some now, modified := some now }
      .ok item (s.putItem session.tenant item) := rfl

theorem updateItem_eq (now : Instant) (session : Session) (item : Item) (s : Store) :
    updateItem now session item s =
      match s.item? session.tenant item.id with
      | none => .error (.noItem item.id) (s.touch session.tenant)
      | some stored =>
        .ok () (s.putItem session.tenant
          { item with created := stored.created, modified := some now }) := by
  simp only [updateItem, onTenant, item?]
  cases (s.tenant session.tenant).items.get? item.id <;> rfl

theorem deleteItem_eq (session : Session) (item : String) (s : Store) :
    deleteItem session item s =
      match s.item? session.tenant item with
      | none => .error (.noItem item) (s.touch session.tenant)
      | some _ => .ok () (s.dropItem session.tenant item) := by
  cases h : s.item? session.tenant item <;>
    simp only [deleteItem, onTenant, contains_items, h, Option.isSome_none, Option.isSome_some,
      Bool.false_eq_true, if_true, if_false] <;>
    rfl

theorem onShelf_eq {α : Type} (session : Session) (item : String)
    (change : EStateM StoreError Shelf α) (s : Store) :
    onShelf session item change s =
      match s.item? session.tenant item with
      | none => .error (.noItem item) (s.touch session.tenant)
      | some _ =>
        match change (s.shelf session.tenant item) with
        | .ok a shelf => .ok a (s.putShelf session.tenant item shelf)
        | .error e shelf => .error e (s.putShelf session.tenant item shelf) := by
  cases h : s.item? session.tenant item with
  | none =>
      simp only [onShelf, onTenant, contains_items, h, Option.isSome_none, Bool.false_eq_true,
        if_false]
      rfl
  | some _ =>
      simp only [onShelf, onTenant, contains_items, h, Option.isSome_some, if_true, shelf]
      cases change (((s.tenant session.tenant).shelves.get? item).getD Shelf.empty) <;> rfl

section

variable {α : Type} {session : Session} {item : String} {s : Store} {x : Item} {shelf after : Shelf}
  {change : EStateM StoreError Shelf α}

/-! What comes of a change of an item's versions, if it is known what comes of it on their shelf. -/

theorem onShelf_ok (hx : s.item? session.tenant item = some x) {a : α}
    (h : change (s.shelf session.tenant item) = .ok a after) :
    onShelf session item change s = .ok a (s.putShelf session.tenant item after) := by
  rw [onShelf_eq, hx]
  simp only [h]

theorem onShelf_error (hx : s.item? session.tenant item = some x) {e : StoreError}
    (h : change (s.shelf session.tenant item) = .error e after) :
    onShelf session item change s = .error e (s.putShelf session.tenant item after) := by
  rw [onShelf_eq, hx]
  simp only [h]

theorem onShelf_noItem (hx : s.item? session.tenant item = none) :
    onShelf session item change s = .error (.noItem item) (s.touch session.tenant) := by
  rw [onShelf_eq, hx]

/-- A change of an item's versions succeeds where the item is and it succeeds on them. -/
theorem exists_of_onShelf {a : α} {s' : Store} (h : onShelf session item change s = .ok a s') :
    ∃ after, change (s.shelf session.tenant item) = .ok a after ∧
      s' = s.putShelf session.tenant item after := by
  rw [onShelf_eq] at h
  cases hx : s.item? session.tenant item with
  | none => simp [hx] at h
  | some x =>
      cases hchange : change (s.shelf session.tenant item) with
      | ok b after =>
          simp only [hx, hchange] at h
          cases h
          exact ⟨after, rfl, rfl⟩
      | error e after => simp [hx, hchange] at h

/-- A change of an item's versions after they have been put. -/
theorem onShelf_putShelf_ok (hx : s.item? session.tenant item = some x) {a : α}
    (h : change shelf = .ok a after) :
    onShelf session item change (s.putShelf session.tenant item shelf)
      = .ok a (s.putShelf session.tenant item after) := by
  rw [onShelf_ok (x := x) (by rw [item?_putShelf, hx]) (by rw [shelf_putShelf_self, h]),
    putShelf_putShelf]

theorem onShelf_putShelf_error (hx : s.item? session.tenant item = some x) {e : StoreError}
    (h : change shelf = .error e after) :
    onShelf session item change (s.putShelf session.tenant item shelf)
      = .error e (s.putShelf session.tenant item after) := by
  rw [onShelf_error (x := x) (by rw [item?_putShelf, hx]) (by rw [shelf_putShelf_self, h]),
    putShelf_putShelf]

end

end Store

end VersionCatalog
