import VersionCatalog.Proofs.History
import VersionCatalog.Proofs.Shelves

/-!
# What a store call can do

`Shelf.Effect` says once what a store call can make of the versions of one item, with everything that
must have been the case for it. `Store.effect_next` reads it off the code; invariants of the store are
then shown by its cases, and the code is not opened again. `Store.item?_next` is the same for items.

A call leaves everything else as it was: the versions of other items, and all of other tenants
(`Store.shelf_next_of_ne`).
-/

namespace VersionCatalog

/-- What is stored of a version that is created. -/
def Version.asNew (v : Version) (id : String) (now : Instant) : Content :=
  { v.toContent with id := id, created := some now, modified := some now }

/-- What an edit makes of a content: name, status, description and properties are taken over. -/
def Content.edited (c : Content) (v : Version) (now : Instant) : Content :=
  { c with
    name := v.name
    status := v.status
    description := v.description
    properties := v.properties
    modified := some now }

/-- What a restored content is, as an edit made now. -/
def Content.restored (c : Content) (now : Instant) : Content :=
  { c with modified := some now }

/-- The item whose versions a call changes. -/
def StoreRequest.changes? : StoreRequest → Option String
  | .createVersion item _ | .updateVersion item _ | .publish item _ _ | .sync item _
  | .forceSync item _ | .clean item _ | .revert item _ _ => some item
  | _ => none

namespace Shelf

/-- The publication of a version that a revision id names. -/
def restored? (s : Shelf) (version revision : String) : Option Entry :=
  (s.entries version).find? fun e => e.revision.id == revision

theorem mem_entries_of_restored? {s : Shelf} {version revision : String} {e : Entry}
    (h : s.restored? version revision = some e) : e ∈ s.entries version :=
  List.mem_of_find?_eq_some h

/-- What a call by a user can make of the versions of `item`. -/
inductive Effect (f : Fresh) (user item : String) : StoreRequest → Shelf → Shelf → Prop
  /-- The call fails, or has nothing to do, or is not about the item's versions. -/
  | idle {r : StoreRequest} {s s' : Shelf} (halike : s.Alike s') : Effect f user item r s s'
  | create {v : Version} {s : Shelf} (hname : s.usesName v.name = false) :
      Effect f user item (.createVersion item v) s
        (s.putCopy user f.version ⟨v.asNew f.version f.clock.createVersion, none, true, false⟩)
  | update {v : Version} {s : Shelf} {c : WorkingCopy} (hcopy : s.copy? user v.id = some c) :
      Effect f user item (.updateVersion item v) s
        (s.putCopy user v.id { c with content := c.content.edited v f.clock.updateVersion, dirty := true })
  | revert {version revision : String} {s : Shelf} {c : WorkingCopy} {e : Entry}
      (hentry : s.restored? version revision = some e)
      (hcopy : s.copy? user version = some c) :
      Effect f user item (.revert item version revision) s
        (s.putCopy user version { c with content := e.content.restored f.clock.revert, dirty := true })
  | publish {version message : String} {s : Shelf} {c : WorkingCopy}
      (hcopy : s.copy? user version = some c)
      (hcurrent : c.syncState (s.head? version) = .upToDate)
      (hedits : c.dirty = true ∨ c.synced = none)
      (hname : s.sharesName version c.content.name = false) :
      Effect f user item (.publish item version message) s
        ((s.append version ⟨⟨f.revision, message, f.clock.publish, user⟩, c.content⟩).putCopy user version
          { c with synced := some f.revision, dirty := false })
  | pull {version : String} {s : Shelf} {e : Entry} (hhead : s.head? version = some e)
      (hclean : ∀ c, s.copy? user version = some c → c.dirty = false ∧ c.merging = false) :
      Effect f user item (.sync item version) s (s.putCopy user version (.ofEntry e))
  | merge {version : String} {s : Shelf} {c : WorkingCopy} {e : Entry}
      (hhead : s.head? version = some e) (hcopy : s.copy? user version = some c)
      (hdirty : c.dirty = true) (hbehind : c.synced ≠ some e.revision.id) :
      Effect f user item (.sync item version) s
        (s.putCopy user version { c with merging := true })
  | overwrite {version : String} {s : Shelf} {e : Entry} (hhead : s.head? version = some e) :
      Effect f user item (.forceSync item version) s (s.putCopy user version (.ofEntry e))
  | drop {version : String} {s : Shelf} :
      Effect f user item (.clean item version) s (s.dropCopy user version)
  | delete {s : Shelf} : Effect f user item (.deleteItem item) s empty

/-! ### The rules -/

theorem revert_eq (item : String) (now : Instant) (user version revision : String) (s : Shelf) :
    revert item now user version revision s =
      match s.restored? version revision with
      | none => .error (.noRevision version revision) s
      | some e =>
        match s.copy? user version with
        | none => .error (.noVersion item version) s
        | some c =>
          .ok () (s.putCopy user version
            { c with content := e.content.restored now, dirty := true }) := rfl

theorem forceSync_of_head {s : Shelf} {item user version : String} {e : Entry}
    (he : s.head? version = some e) :
    forceSync item user version s = .ok () (s.putCopy user version (.ofEntry e)) := by
  rw [forceSync, he]

/-- A user who has no copy yet gets one of the head. -/
theorem sync_of_head {s : Shelf} {item user version : String} {e : Entry}
    (hcopy : s.copy? user version = none) (he : s.head? version = some e) :
    sync item user version s = .ok () (s.putCopy user version (.ofEntry e)) := by
  rw [sync, hcopy, he]

/-- With neither a copy nor a publication there is nothing to do but to fail. -/
theorem sync_of_nothing {s : Shelf} {item user version : String}
    (hcopy : s.copy? user version = none) (hhead : s.head? version = none) :
    sync item user version s = .error (.noVersion item version)
      { s with copies := s.copies.insert user (s.copies.getD user ∅) } := by
  rw [sync, hcopy, hhead]

/-- A copy that is not up to date is not published: the call fails with a conflict. -/
theorem publish_of_syncState_ne {s : Shelf} {user version : String} {c : WorkingCopy}
    (hc : s.copy? user version = some c) (hbehind : c.syncState (s.head? version) ≠ .upToDate)
    (item revision message : String) (now : Instant) :
    ∃ error : StoreError, error.isConflict = true ∧
      publish item revision now user version message s = .error error s := by
  rw [publish, hc]
  cases hsync : c.syncState (s.head? version) with
  | merging => exact ⟨.unresolvedMerge version, rfl, by simp only [hsync]⟩
  | outOfSync => exact ⟨.outOfSync version, rfl, by simp only [hsync]⟩
  | upToDate => exact absurd hsync hbehind

variable (s : Shelf) (f : Fresh) (user item version : String)

theorem effect_create (v : Version) :
    Effect f user item (.createVersion item v) s
      (stateOf (create item f.version f.clock.createVersion user v s)) := by
  rw [create]
  cases hname : s.usesName v.name with
  | true => exact .idle (.refl s)
  | false => exact .create hname

theorem effect_update (v : Version) :
    Effect f user item (.updateVersion item v) s (stateOf (update item f.clock.updateVersion user v s)) := by
  rw [update]
  cases hcopy : s.copy? user v.id with
  | none => exact .idle (.refl s)
  | some c => exact .update hcopy

theorem effect_publish (message : String) :
    Effect f user item (.publish item version message) s
      (stateOf (publish item f.revision f.clock.publish user version message s)) := by
  rw [publish]
  cases hcopy : s.copy? user version with
  | none => exact .idle (.refl s)
  | some c =>
      cases hsync : c.syncState (s.head? version) with
      | merging => simpa only [hsync] using .idle (.refl s)
      | outOfSync => simpa only [hsync] using .idle (.refl s)
      | upToDate =>
          simp only [hsync]
          split
          · exact .idle (.refl s)
          · rename_i hedits
            split
            · exact .idle (.refl s)
            · rename_i hname
              refine .publish hcopy hsync ?_ (by simpa using hname)
              cases hdirty : c.dirty with
              | true => exact .inl rfl
              | false => simpa [hdirty] using hedits

theorem effect_sync :
    Effect f user item (.sync item version) s (stateOf (sync item user version s)) := by
  rw [sync]
  cases hcopy : s.copy? user version with
  | none =>
      cases hhead : s.head? version with
      | none => exact .idle (s.alike_insert_copies user)
      | some e => exact .pull hhead (by simp [hcopy])
  | some c =>
      cases hhead : s.head? version with
      | none => exact .idle (.refl s)
      | some e =>
          dsimp only
          split
          · exact .idle (.refl s)
          · rename_i hbehind
            simp only [Bool.or_eq_true, decide_eq_true_eq, not_or, Bool.not_eq_true] at hbehind
            obtain ⟨hmerging, hbehind⟩ := hbehind
            split
            · rename_i hdirty
              exact .merge hhead hcopy hdirty hbehind
            · rename_i hdirty
              -- an unedited copy that pulls is the unedited copy of the head
              obtain ⟨content, synced, dirty, merging⟩ := c
              obtain rfl : dirty = false := by simpa using hdirty
              obtain rfl : merging = false := hmerging
              exact .pull hhead (by simp [hcopy])

theorem effect_forceSync :
    Effect f user item (.forceSync item version) s (stateOf (forceSync item user version s)) := by
  rw [forceSync]
  cases hhead : s.head? version with
  | none => exact .idle (.refl s)
  | some e => exact .overwrite hhead

theorem effect_clean :
    Effect f user item (.clean item version) s (stateOf (clean user version s)) := by
  rw [clean_eq]
  exact .drop

theorem effect_revert (revision : String) :
    Effect f user item (.revert item version revision) s
      (stateOf (revert item f.clock.revert user version revision s)) := by
  rw [revert_eq]
  cases hentry : s.restored? version revision with
  | none => exact .idle (.refl s)
  | some e =>
      cases hcopy : s.copy? user version with
      | none => exact .idle (.refl s)
      | some c => exact .revert hentry hcopy

end Shelf

/-! ### The calls in the store -/

namespace Store

variable {s : Store} {e : Event StoreRequest}

/-- The store after a change of one item's versions. -/
theorem shelf_onShelf {α : Type} (session : Session) (item i : String)
    (change : EStateM StoreError Shelf α) (s : Store) :
    (stateOf (onShelf session item change s)).shelf session.tenant i
      = if i = item ∧ (s.item? session.tenant item).isSome then
          stateOf (change (s.shelf session.tenant item))
        else s.shelf session.tenant i := by
  rw [onShelf_eq]
  cases hitem : s.item? session.tenant item with
  | none => simp
  | some x =>
      dsimp only
      by_cases hi : i = item
      · subst hi
        cases change (s.shelf session.tenant i) <;> simp
      · cases change (s.shelf session.tenant item) <;> simp [shelf_putShelf, hi]

theorem item?_onShelf {α : Type} (session : Session) (item t i : String)
    (change : EStateM StoreError Shelf α) (s : Store) :
    (stateOf (onShelf session item change s)).item? t i = s.item? t i := by
  rw [onShelf_eq]
  cases s.item? session.tenant item with
  | none => simp
  | some x => cases change (s.shelf session.tenant item) <;> simp

theorem shelf_onShelf_of_ne {α : Type} {session : Session} {t : String} (h : t ≠ session.tenant)
    (item i : String) (change : EStateM StoreError Shelf α) (s : Store) :
    (stateOf (onShelf session item change s)).shelf t i = s.shelf t i := by
  rw [onShelf_eq]
  cases s.item? session.tenant item with
  | none => simp
  | some x => cases change (s.shelf session.tenant item) <;> simp [shelf_putShelf, h]

/-- There is no other entry for versions after a change than before, but that of an item which is there. -/
theorem shelf?_onShelf {α : Type} {session : Session} {item t i : String} {s : Store}
    (h : t = session.tenant → i = item → s.item? session.tenant item = none)
    (change : EStateM StoreError Shelf α) :
    (stateOf (onShelf session item change s)).shelf? t i = s.shelf? t i := by
  rw [onShelf_eq]
  cases hitem : s.item? session.tenant item with
  | none => simp
  | some x =>
      have helsewhere : ¬ (t = session.tenant ∧ i = item) := by
        rintro ⟨ht, hi⟩
        rw [h ht hi] at hitem
        exact absurd hitem (by simp)
      cases change (s.shelf session.tenant item) <;> simp [shelf?_putShelf, helsewhere]

/-- An effect on the versions of one item, as seen from any of the tenant's items. -/
theorem effect_onShelf {α : Type} {f : Fresh} {session : Session} {item : String}
    {r : StoreRequest} {change : EStateM StoreError Shelf α} (s : Store) (i : String)
    (h : ∀ shelf : Shelf, shelf.Effect f session.user item r (stateOf (change shelf))) :
    (s.shelf session.tenant i).Effect f session.user i r
      ((stateOf (onShelf session item change s)).shelf session.tenant i) := by
  rw [shelf_onShelf]
  split
  · rename_i hplace
    rw [hplace.1]
    exact h _
  · exact .idle (.refl _)

/-- **What a store call can do to the versions of an item of its tenant.** -/
theorem effect_next (s : Store) (e : Event StoreRequest) (i : String) :
    (s.shelf e.session.tenant i).Effect e.fresh e.session.user i e.request
      ((s.next e).shelf e.session.tenant i) := by
  obtain ⟨f, session, r⟩ := e
  cases r with
  | listItems | getItem | listVersions | getVersion | deleteVersion | listRevisions =>
      exact .idle (.refl _)
  | createItem x =>
      simp only [next, result, StoreRequest.run, Memory.backend, Keeper.backend, Memory.keeper,
        stateOf_map, createItem_eq, stateOf_ok, shelf_putItem]
      exact .idle (.refl _)
  | updateItem x =>
      simp only [next, result, StoreRequest.run, Memory.backend, Keeper.backend, Memory.keeper,
        stateOf_map, updateItem_eq]
      cases s.item? session.tenant x.id with
      | none => simpa using .idle (.refl _)
      | some stored => simpa using .idle (.refl _)
  | deleteItem item =>
      simp only [next, result, StoreRequest.run, Memory.backend, Keeper.backend, Memory.keeper,
        stateOf_map, deleteItem_eq]
      cases s.item? session.tenant item with
      | none => simpa using .idle (.refl _)
      | some x =>
          simp only [stateOf_ok, shelf_dropItem, true_and]
          split
          · rename_i h
            rw [h]
            exact .delete
          · exact .idle (.refl _)
  | createVersion item v =>
      simp only [next, result, StoreRequest.run, Memory.backend, Keeper.backend, Memory.keeper,
        stateOf_map, createVersion]
      exact effect_onShelf s i fun shelf => shelf.effect_create f session.user item v
  | updateVersion item v =>
      simp only [next, result, StoreRequest.run, Memory.backend, Keeper.backend, Memory.keeper,
        stateOf_map, updateVersion]
      exact effect_onShelf s i fun shelf => shelf.effect_update f session.user item v
  | publish item version message =>
      simp only [next, result, StoreRequest.run, Memory.backend, Keeper.backend, Memory.keeper,
        stateOf_map, publish]
      exact effect_onShelf s i fun shelf => shelf.effect_publish f session.user item version message
  | sync item version =>
      simp only [next, result, StoreRequest.run, Memory.backend, Keeper.backend, Memory.keeper,
        stateOf_map, sync]
      exact effect_onShelf s i fun shelf => shelf.effect_sync f session.user item version
  | forceSync item version =>
      simp only [next, result, StoreRequest.run, Memory.backend, Keeper.backend, Memory.keeper,
        stateOf_map, forceSync]
      exact effect_onShelf s i fun shelf => shelf.effect_forceSync f session.user item version
  | clean item version =>
      simp only [next, result, StoreRequest.run, Memory.backend, Keeper.backend, Memory.keeper,
        stateOf_map, clean]
      exact effect_onShelf s i fun shelf => shelf.effect_clean f session.user item version
  | revert item version revision =>
      simp only [next, result, StoreRequest.run, Memory.backend, Keeper.backend, Memory.keeper,
        stateOf_map, revert]
      exact effect_onShelf s i fun shelf => shelf.effect_revert f session.user item version revision

/-- The versions of other tenants' items stay as they are. -/
theorem shelf_next_of_ne {t : String} (h : t ≠ e.session.tenant) (i : String) :
    (s.next e).shelf t i = s.shelf t i := by
  obtain ⟨f, session, r⟩ := e
  cases r with
  | listItems | getItem | listVersions | getVersion | deleteVersion | listRevisions => rfl
  | createItem x =>
      simp only [next, result, StoreRequest.run, Memory.backend, Keeper.backend, Memory.keeper,
        stateOf_map, createItem_eq, stateOf_ok, shelf_putItem]
  | updateItem x =>
      simp only [next, result, StoreRequest.run, Memory.backend, Keeper.backend, Memory.keeper,
        stateOf_map, updateItem_eq]
      cases s.item? session.tenant x.id <;> simp
  | deleteItem item =>
      simp only [next, result, StoreRequest.run, Memory.backend, Keeper.backend, Memory.keeper,
        stateOf_map, deleteItem_eq]
      cases s.item? session.tenant item <;> simp [shelf_dropItem, h]
  | createVersion | updateVersion | publish | sync | forceSync | clean | revert =>
      simp only [next, result, StoreRequest.run, Memory.backend, Keeper.backend, Memory.keeper,
        stateOf_map, createVersion, updateVersion, publish, sync, forceSync, clean, revert]
      exact shelf_onShelf_of_ne h _ _ _ _

/-- A call that changes versions is a change of the versions of one item, with another answer. -/
theorem run_eq_onShelf {r : StoreRequest} {item : String} (h : r.changes? = some item) (f : Fresh)
    (session : Session) :
    ∃ (α : Type) (change : EStateM StoreError Shelf α) (answer : α → Answer),
      r.run (Memory.backend f) session = answer <$> onShelf session item change := by
  cases r with
  | listItems | getItem | createItem | updateItem | deleteItem | listVersions | getVersion
    | deleteVersion | listRevisions => exact absurd h (by simp [StoreRequest.changes?])
  | createVersion | updateVersion | publish | sync | forceSync | clean | revert =>
      obtain rfl := Option.some.inj h
      exact ⟨_, _, _, rfl⟩

/-- The entry for the versions of an item stays, unless the call changes them while the item is there, or
deletes it. -/
theorem shelf?_next {t i : String}
    (h : t = e.session.tenant → e.request.changes? = some i → s.item? t i = none) :
    (s.next e).shelf? t i = s.shelf? t i ∨
      e.request = .deleteItem i ∧ (s.next e).shelf? t i = none := by
  obtain ⟨f, session, r⟩ := e
  cases hitem : r.changes? with
  | some item =>
      obtain ⟨α, change, answer, hrun⟩ := run_eq_onShelf hitem f session
      rw [next, result, hrun, stateOf_map]
      refine .inl (shelf?_onShelf (fun ht hi => ?_) change)
      subst ht hi
      exact h rfl hitem
  | none =>
      cases r with
      | listItems | getItem | listVersions | getVersion | deleteVersion | listRevisions =>
          exact .inl rfl
      | createItem x =>
          simp only [next, result, StoreRequest.run, Memory.backend, Keeper.backend, Memory.keeper,
            stateOf_map, createItem_eq, stateOf_ok, shelf?_putItem, true_or]
      | updateItem x =>
          simp only [next, result, StoreRequest.run, Memory.backend, Keeper.backend, Memory.keeper,
            stateOf_map, updateItem_eq]
          cases s.item? session.tenant x.id <;> simp
      | deleteItem item =>
          simp only [next, result, StoreRequest.run, Memory.backend, Keeper.backend, Memory.keeper,
            stateOf_map, deleteItem_eq]
          cases s.item? session.tenant item with
          | none => simp
          | some x =>
              simp only [stateOf_ok, shelf?_dropItem]
              split
              · rename_i hplace
                exact .inr ⟨by rw [hplace.2], rfl⟩
              · exact .inl rfl
      | createVersion | updateVersion | publish | sync | forceSync | clean | revert =>
          exact absurd hitem (by simp [StoreRequest.changes?])

/-- The item that a tenant has under an id after a call. -/
theorem item?_next (s : Store) (e : Event StoreRequest) (t i : String) :
    (s.next e).item? t i =
      match e.request with
      | .createItem x =>
        if t = e.session.tenant ∧ i = e.fresh.item then
          some { x with id := e.fresh.item, created := some e.fresh.clock.createItem, modified := some e.fresh.clock.createItem }
        else s.item? t i
      | .updateItem x =>
        if t = e.session.tenant ∧ i = x.id then
          (s.item? t i).map fun stored =>
            { x with created := stored.created, modified := some e.fresh.clock.updateItem }
        else s.item? t i
      | .deleteItem item =>
        if t = e.session.tenant ∧ i = item then none else s.item? t i
      | _ => s.item? t i := by
  obtain ⟨f, session, r⟩ := e
  cases r with
  | listItems | getItem | listVersions | getVersion | deleteVersion | listRevisions => rfl
  | createItem x =>
      simp only [next, result, StoreRequest.run, Memory.backend, Keeper.backend, Memory.keeper,
        stateOf_map, createItem_eq, stateOf_ok, item?_putItem]
  | updateItem x =>
      simp only [next, result, StoreRequest.run, Memory.backend, Keeper.backend, Memory.keeper,
        stateOf_map, updateItem_eq]
      cases hx : s.item? session.tenant x.id with
      | none =>
          simp only [stateOf_error, item?_touch]
          split
          · rename_i hplace
            rw [hplace.1, hplace.2, hx]
            rfl
          · rfl
      | some stored =>
          simp only [stateOf_ok, item?_putItem]
          split
          · rename_i hplace
            rw [hplace.1, hplace.2, hx]
            rfl
          · rfl
  | deleteItem item =>
      simp only [next, result, StoreRequest.run, Memory.backend, Keeper.backend, Memory.keeper,
        stateOf_map, deleteItem_eq]
      cases hx : s.item? session.tenant item with
      | none =>
          simp only [stateOf_error, item?_touch]
          split
          · rename_i hplace
            rw [hplace.1, hplace.2, hx]
          · rfl
      | some x => simp only [stateOf_ok, item?_dropItem]
  | createVersion | updateVersion | publish | sync | forceSync | clean | revert =>
      simp only [next, result, StoreRequest.run, Memory.backend, Keeper.backend, Memory.keeper,
        stateOf_map, createVersion, updateVersion, publish, sync, forceSync, clean, revert]
      exact item?_onShelf _ _ _ _ _ _

end Store

end VersionCatalog
