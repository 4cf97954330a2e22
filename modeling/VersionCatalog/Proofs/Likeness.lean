import VersionCatalog.Proofs.Effects

/-!
# Alike stores

Alike stores differ in tables that are empty, and no call can tell: it gives the same answer and leaves
alike stores behind. A call that fails may have made such a table before, but leaves a store that is alike
to the one it found, and fails for one of the store's own rules. All this is said of a change of any kind of
state at once (`Discreet`); it is shown for the rules on the versions of one item, and lifted to the calls of
the store.

## Main results

* `Shelf.discreet_publish`, `Shelf.discreet_sync` and so on: the rules on the versions of one item.
* `Store.discreet_onShelf`: discreet changes of an item's versions are discreet changes of the store.
* `Store.Alike.listItems`, `Store.Alike.getVersion` and so on: what is read of alike stores.
-/

namespace VersionCatalog

/-- Two results are the same answer, and the states left behind correspond. -/
structure SameOutcome {ε σ α : Type} (R : σ → σ → Prop) (x y : EStateM.Result ε σ α) : Prop where
  answer : answerOf x = answerOf y
  state : R (stateOf x) (stateOf y)

/-- An error of the store's own rules: something does not exist, or versions are in each other's way. -/
def StoreError.OfRules (e : StoreError) : Prop :=
  e.isNotFound = true ∨ e.isConflict = true

theorem StoreError.OfRules.fault_ne {e : StoreError} (h : e.OfRules) : e.fault ≠ .serialization := by
  intro hfault
  rcases h with h | h
  · simp [isNotFound, hfault] at h
  · simp [isConflict, hfault] at h

/-- A change that cannot tell corresponding states apart. It fails only where a rule of the store says so,
and leaves a corresponding state then. -/
structure Discreet {σ α : Type} (R : σ → σ → Prop) (change : EStateM StoreError σ α) : Prop where
  same : ∀ {s s' : σ}, R s s' → SameOutcome R (change s) (change s')
  failed : ∀ {s s' : σ} {e : StoreError}, change s = .error e s' → R s s' ∧ e.OfRules

/-! ### Shelves -/

namespace Shelf

variable {s s' : Shelf} {user version : String}

namespace Alike

theorem putCopy (h : s.Alike s') (user version : String) (c : WorkingCopy) :
    (s.putCopy user version c).Alike (s'.putCopy user version c) where
  shared := h.shared
  copies u := by
    rw [Shelf.putCopy, Shelf.putCopy, Keyed.getD_insert, Keyed.getD_insert, h.copies user, h.copies u]

theorem append (h : s.Alike s') (version : String) (e : Entry) :
    (s.append version e).Alike (s'.append version e) where
  shared := by rw [Shelf.append, Shelf.append, h.shared]
  copies := h.copies

theorem dropCopy (h : s.Alike s') (user version : String) :
    (s.dropCopy user version).Alike (s'.dropCopy user version) where
  shared := by rw [shared_dropCopy, shared_dropCopy, h.shared]
  copies u := by rw [getD_copies_dropCopy, getD_copies_dropCopy, h.copies user, h.copies u]

theorem usesName (h : s.Alike s') (name : String) : s.usesName name = s'.usesName name := by
  rw [Bool.eq_iff_iff, usesName_iff, usesName_iff]
  simp only [h.head?, h.copy?]

theorem sharesName (h : s.Alike s') (version name : String) :
    s.sharesName version name = s'.sharesName version name := by
  rw [Bool.eq_iff_iff, sharesName_iff, sharesName_iff]
  simp only [h.head?]

theorem restored? (h : s.Alike s') (version revision : String) :
    s.restored? version revision = s'.restored? version revision := by
  rw [Shelf.restored?, Shelf.restored?, h.entries]

theorem list (h : s.Alike s') : s.list = s'.list := by
  rw [Shelf.list, Shelf.list, h.heads]

theorem get? (h : s.Alike s') (user version : String) : s.get? user version = s'.get? user version := by
  rw [Shelf.get?, Shelf.get?, h.copy?, h.head?]

theorem revisions (h : s.Alike s') (version : String) :
    s.revisions version = s'.revisions version := by
  rw [Shelf.revisions, Shelf.revisions, h.shared]

end Alike

/-! ### The rules -/

theorem discreet_create (item id : String) (now : Instant) (user : String) (v : Version) :
    Discreet Alike (create item id now user v) where
  same {s s'} h := by
    rw [create, create, h.usesName]
    cases s'.usesName v.name with
    | true => exact ⟨rfl, h⟩
    | false => exact ⟨rfl, h.putCopy user id _⟩
  failed {s s' e} h := by
    rw [create] at h
    cases hname : s.usesName v.name <;> simp only [hname] at h <;> cases h
    exact ⟨.refl s, .inr rfl⟩

theorem discreet_update (item : String) (now : Instant) (user : String) (v : Version) :
    Discreet Alike (update item now user v) where
  same {s s'} h := by
    rw [update, update, h.copy?]
    cases s'.copy? user v.id with
    | none => exact ⟨rfl, h⟩
    | some c => exact ⟨rfl, h.putCopy user v.id _⟩
  failed {s s' e} h := by
    rw [update] at h
    cases hcopy : s.copy? user v.id <;> simp only [hcopy] at h <;> cases h
    exact ⟨.refl s, .inl rfl⟩

theorem discreet_publish (item revision : String) (now : Instant) (user version message : String) :
    Discreet Alike (publish item revision now user version message) where
  same {s s'} h := by
    rw [publish, publish, h.copy?, h.head?]
    cases s'.copy? user version with
    | none => exact ⟨rfl, h⟩
    | some c =>
        dsimp only
        cases c.syncState (s'.head? version) with
        | merging => exact ⟨rfl, h⟩
        | outOfSync => exact ⟨rfl, h⟩
        | upToDate =>
            dsimp only
            rw [h.sharesName]
            split
            · exact ⟨rfl, h⟩
            · split
              · exact ⟨rfl, h⟩
              · exact ⟨rfl, (h.append version _).putCopy user version _⟩
  failed {s s' e} h := by
    rw [publish] at h
    cases hcopy : s.copy? user version with
    | none =>
        simp only [hcopy] at h
        cases h
        exact ⟨.refl s, .inl rfl⟩
    | some c =>
        cases hsync : c.syncState (s.head? version) with
        | merging | outOfSync =>
            simp only [hcopy, hsync] at h
            cases h
            exact ⟨.refl s, .inr rfl⟩
        | upToDate =>
            simp only [hcopy, hsync] at h
            split at h
            · cases h
            · split at h <;> cases h
              exact ⟨.refl s, .inr rfl⟩

theorem discreet_sync (item user version : String) : Discreet Alike (sync item user version) where
  same {s s'} h := by
    rw [sync, sync, h.copy?, h.head?]
    cases s'.copy? user version with
    | none =>
        cases s'.head? version with
        | none =>
            exact ⟨rfl, (s.alike_insert_copies user).symm.trans (h.trans (s'.alike_insert_copies user))⟩
        | some e => exact ⟨rfl, h.putCopy user version _⟩
    | some c =>
        cases s'.head? version with
        | none => exact ⟨rfl, h⟩
        | some e =>
            dsimp only
            split
            · exact ⟨rfl, h⟩
            · split
              · exact ⟨rfl, h.putCopy user version _⟩
              · exact ⟨rfl, h.putCopy user version _⟩
  failed {s s' e} h := by
    rw [sync] at h
    cases hcopy : s.copy? user version with
    | none =>
        cases hhead : s.head? version with
        | none =>
            simp only [hcopy, hhead] at h
            cases h
            exact ⟨s.alike_insert_copies user, .inl rfl⟩
        | some head =>
            simp only [hcopy, hhead] at h
            cases h
    | some c =>
        cases hhead : s.head? version with
        | none =>
            simp only [hcopy, hhead] at h
            cases h
        | some head =>
            simp only [hcopy, hhead] at h
            split at h
            · cases h
            · split at h <;> cases h

theorem discreet_forceSync (item user version : String) :
    Discreet Alike (forceSync item user version) where
  same {s s'} h := by
    rw [forceSync, forceSync, h.head?]
    cases s'.head? version with
    | none => exact ⟨rfl, h⟩
    | some e => exact ⟨rfl, h.putCopy user version _⟩
  failed {s s' e} h := by
    rw [forceSync] at h
    cases hhead : s.head? version <;> simp only [hhead] at h <;> cases h
    exact ⟨.refl s, .inl rfl⟩

theorem discreet_clean (user version : String) : Discreet Alike (clean user version) where
  same {s s'} h := by
    rw [clean_eq, clean_eq]
    exact ⟨rfl, h.dropCopy user version⟩
  failed {s s' e} h := by
    rw [clean_eq] at h
    cases h

theorem discreet_revert (item : String) (now : Instant) (user version revision : String) :
    Discreet Alike (revert item now user version revision) where
  same {s s'} h := by
    rw [revert_eq, revert_eq, h.restored?, h.copy?]
    cases s'.restored? version revision with
    | none => exact ⟨rfl, h⟩
    | some e =>
        cases s'.copy? user version with
        | none => exact ⟨rfl, h⟩
        | some c => exact ⟨rfl, h.putCopy user version _⟩
  failed {s s' e} h := by
    rw [revert_eq] at h
    cases hentry : s.restored? version revision with
    | none =>
        simp only [hentry] at h
        cases h
        exact ⟨.refl s, .inl rfl⟩
    | some entry =>
        cases hcopy : s.copy? user version <;> simp only [hentry, hcopy] at h <;> cases h
        exact ⟨.refl s, .inl rfl⟩

end Shelf

/-! ### Stores -/

namespace Store

variable {s s' : Store} {tenant item : String}

namespace Alike

theorem touch (h : s.Alike s') (tenant : String) : (s.touch tenant).Alike (s'.touch tenant) :=
  (s.alike_touch tenant).symm.trans (h.trans (s'.alike_touch tenant))

theorem putItem (h : s.Alike s') (tenant : String) (i : Item) :
    (s.putItem tenant i).Alike (s'.putItem tenant i) where
  items t := by
    rw [Store.putItem, Store.putItem, tenant_putTenant, tenant_putTenant]
    split
    · exact congrArg (·.insert i.id i) (h.items tenant)
    · exact h.items t
  shelves t item := by
    rw [shelf_putItem, shelf_putItem]
    exact h.shelves t item

theorem putShelf (h : s.Alike s') (tenant item : String) {x x' : Shelf} (hx : x.Alike x') :
    (s.putShelf tenant item x).Alike (s'.putShelf tenant item x') where
  items t := by
    rw [Store.putShelf, Store.putShelf, tenant_putTenant, tenant_putTenant]
    split
    · exact h.items tenant
    · exact h.items t
  shelves t i := by
    rw [shelf_putShelf, shelf_putShelf]
    split
    · exact hx
    · exact h.shelves t i

theorem dropItem (h : s.Alike s') (tenant item : String) :
    (s.dropItem tenant item).Alike (s'.dropItem tenant item) where
  items t := by
    rw [Store.dropItem, Store.dropItem, tenant_putTenant, tenant_putTenant]
    split
    · exact congrArg (·.erase item) (h.items tenant)
    · exact h.items t
  shelves t i := by
    rw [shelf_dropItem, shelf_dropItem]
    split
    · exact .refl _
    · exact h.shelves t i

end Alike

/-! ### The calls that change a store -/

theorem discreet_createItem (id : String) (now : Instant) (session : Session) (item : Item) :
    Discreet Alike (createItem id now session item) where
  same {s s'} h := by
    rw [createItem_eq, createItem_eq]
    exact ⟨rfl, h.putItem session.tenant _⟩
  failed {s s' e} h := by
    rw [createItem_eq] at h
    cases h

theorem discreet_updateItem (now : Instant) (session : Session) (item : Item) :
    Discreet Alike (updateItem now session item) where
  same {s s'} h := by
    rw [updateItem_eq, updateItem_eq, h.item?]
    cases s'.item? session.tenant item.id with
    | none => exact ⟨rfl, h.touch session.tenant⟩
    | some stored => exact ⟨rfl, h.putItem session.tenant _⟩
  failed {s s' e} h := by
    rw [updateItem_eq] at h
    cases hitem : s.item? session.tenant item.id <;> simp only [hitem] at h <;> cases h
    exact ⟨s.alike_touch session.tenant, .inl rfl⟩

theorem discreet_deleteItem (session : Session) (item : String) :
    Discreet Alike (deleteItem session item) where
  same {s s'} h := by
    rw [deleteItem_eq, deleteItem_eq, h.item?]
    cases s'.item? session.tenant item with
    | none => exact ⟨rfl, h.touch session.tenant⟩
    | some stored => exact ⟨rfl, h.dropItem session.tenant item⟩
  failed {s s' e} h := by
    rw [deleteItem_eq] at h
    cases hitem : s.item? session.tenant item <;> simp only [hitem] at h <;> cases h
    exact ⟨s.alike_touch session.tenant, .inl rfl⟩

/-- **Discreet changes of an item's versions are discreet changes of the store.** -/
theorem discreet_onShelf {α : Type} {change : EStateM StoreError Shelf α}
    (hchange : Discreet Shelf.Alike change) (session : Session) (item : String) :
    Discreet Alike (onShelf session item change) where
  same {s s'} h := by
    rw [onShelf_eq, onShelf_eq, h.item?]
    cases s'.item? session.tenant item with
    | none => exact ⟨rfl, h.touch session.tenant⟩
    | some x =>
        obtain ⟨hanswer, hstate⟩ := hchange.same (h.shelves session.tenant item)
        cases hs : change (s.shelf session.tenant item) <;>
          cases hs' : change (s'.shelf session.tenant item) <;>
            rw [hs, hs'] at hanswer hstate <;> cases hanswer <;>
            exact ⟨rfl, h.putShelf session.tenant item hstate⟩
  failed {s s' e} h := by
    rw [onShelf_eq] at h
    cases hitem : s.item? session.tenant item with
    | none =>
        simp only [hitem] at h
        cases h
        exact ⟨s.alike_touch session.tenant, .inl rfl⟩
    | some x =>
        cases hs : change (s.shelf session.tenant item) <;> simp only [hitem, hs] at h <;> cases h
        obtain ⟨halike, herror⟩ := hchange.failed hs
        exact ⟨alike_putShelf halike, herror⟩

/-! ### The calls that read a store -/

namespace Alike

variable (h : s.Alike s') (session : Session)

include h

theorem listItems : s.listItems session = s'.listItems session := by
  rw [Store.listItems, Store.listItems, h.items]

theorem getItem (item : String) : s.getItem session item = s'.getItem session item :=
  h.item? session.tenant item

theorem listVersions (item : String) : s.listVersions session item = s'.listVersions session item :=
  (h.shelves session.tenant item).list

theorem getVersion (item version : String) :
    s.getVersion session item version = s'.getVersion session item version :=
  (h.shelves session.tenant item).get? session.user version

theorem listRevisions (item version : String) :
    s.listRevisions session item version = s'.listRevisions session item version :=
  (h.shelves session.tenant item).revisions version

end Alike

end Store

end VersionCatalog
