import VersionCatalog.Proofs.Reading

/-!
# Bringing a copy up to date

There are three ways to bring a user's copy and the latest publication of a version together. A
synchronization takes the head over into a copy without edits, and marks one with edits as merging; it can be
forced, and then takes the head over in any case; and a copy that was thrown away is pulled anew. In a
consistent store a synchronization that finds anything puts just one copy, of which `WorkingCopy.Synchronized`
says all that is to be said; where it seems to do nothing it puts the copy that is there already.

So the three ways cannot differ but in what becomes of edits: a copy without edits is the copy of the
publication that it was made from, and if that is the head there is nothing to take over.

## Main results

* `Shelf.sync_again`: a second synchronization finds nothing to do, in every store.
* `Shelf.Consistent.sync_eq`: what a synchronization puts.
* `Store.sync_reconciles`: after every history, it loses no edits and leaves no copy out of sync.
* `Store.ways_of_reconciling_agree`: after every history, the three ways leave the same store.
-/

namespace VersionCatalog

/-! ### What becomes of a copy -/

namespace WorkingCopy

/-- What a user's copy, if there was one, becomes when it is synchronized with what was published. -/
structure Synchronized (before : Option WorkingCopy) (head : Option Entry) (after : WorkingCopy) :
    Prop where
  state : after.syncState head = .upToDate ∨ after.syncState head = .merging
  /-- It merges if it did so before, or if it had edits and was behind. -/
  merging : after.syncState head = .merging ↔ ∃ c, before = some c ∧
    (c.merging = true ∨ c.dirty = true ∧ c.synced ≠ head.map (·.revision.id))
  /-- Edits stay, and so does the revision that they were made on. -/
  edited : ∀ c, before = some c → c.dirty = true → after = { c with merging := after.merging }
  /-- Without edits it is the unedited copy of the head. -/
  unedited : (∀ c, before = some c → c.dirty = false) → ∃ e, head = some e ∧ after = .ofEntry e

variable {c : WorkingCopy} {before : Option WorkingCopy} {head : Option Entry} {e : Entry}

theorem syncState_eq_merging : c.syncState head = .merging ↔ c.merging = true := by
  rw [syncState]
  cases c.merging with
  | true => simp
  | false => by_cases h : head.map (·.revision.id) = c.synced <;> simp [h]

theorem syncState_ofEntry (e : Entry) : (ofEntry e).syncState (some e) = .upToDate :=
  Shelf.syncState_eq_upToDate.2 ⟨rfl, rfl⟩

namespace Synchronized

/-- The head is taken over where there are no edits. -/
theorem ofEntry (h : ∀ c, before = some c → c.dirty = false ∧ c.merging = false) :
    Synchronized before (some e) (.ofEntry e) where
  state := .inl (syncState_ofEntry e)
  merging := by
    rw [syncState_ofEntry]
    constructor
    · exact fun h => absurd h (by simp)
    · rintro ⟨c, hc, hmerges⟩
      simp [(h c hc).1, (h c hc).2] at hmerges
  edited c hc hdirty := absurd ((h c hc).1.symm.trans hdirty) (by simp)
  unedited _ := ⟨e, rfl, rfl⟩

/-- A copy with edits stays if it merges, and if it is not behind. -/
theorem kept (hdirty : c.dirty = true)
    (hstays : c.merging = true ∨ c.synced = head.map (·.revision.id)) :
    Synchronized (some c) head c where
  state := by
    cases hmerging : c.merging with
    | true => exact .inr (syncState_eq_merging.2 hmerging)
    | false => exact .inl (Shelf.syncState_eq_upToDate.2 ⟨hmerging, by simpa [hmerging] using hstays⟩)
  merging := by
    rw [syncState_eq_merging]
    constructor
    · exact fun hmerging => ⟨c, rfl, .inl hmerging⟩
    · rintro ⟨_, ⟨⟩, hmerging | ⟨-, hbehind⟩⟩
      · exact hmerging
      · exact hstays.resolve_right hbehind
  edited := by
    rintro _ ⟨⟩ -
    rfl
  unedited h := absurd ((h c rfl).symm.trans hdirty) (by simp)

/-- A copy with edits that is behind is marked. -/
theorem marked (hdirty : c.dirty = true) (hbehind : c.synced ≠ head.map (·.revision.id)) :
    Synchronized (some c) head { c with merging := true } where
  state := .inr (syncState_eq_merging.2 rfl)
  merging := ⟨fun _ => ⟨c, rfl, .inr ⟨hdirty, hbehind⟩⟩, fun _ => syncState_eq_merging.2 rfl⟩
  edited := by
    rintro _ ⟨⟩ -
    rfl
  unedited h := absurd ((h c rfl).symm.trans hdirty) (by simp)

end Synchronized

end WorkingCopy

/-! ### The versions of one item -/

namespace Shelf

variable {s : Shelf} {item user version : String} {c : WorkingCopy} {e : Entry}

/-- A synchronization leaves a copy as it is: there is no head, or the copy merges, or it was made from the
head. -/
def Stays (s : Shelf) (version : String) (c : WorkingCopy) : Prop :=
  ∀ e, s.head? version = some e → c.merging = true ∨ c.synced = some e.revision.id

theorem stays_or_behind (s : Shelf) (version : String) (c : WorkingCopy) : s.Stays version c ∨
    ∃ e, s.head? version = some e ∧ c.merging = false ∧ c.synced ≠ some e.revision.id := by
  cases hhead : s.head? version with
  | none => exact .inl fun e he => absurd (hhead.symm.trans he) (by simp)
  | some e =>
      by_cases hstays : c.merging = true ∨ c.synced = some e.revision.id
      · refine .inl fun d hd => ?_
        obtain rfl := Option.some.inj (hhead.symm.trans hd)
        exact hstays
      · obtain ⟨hmerging, hbehind⟩ := not_or.1 hstays
        exact .inr ⟨e, rfl, Bool.eq_false_iff.2 hmerging, hbehind⟩

theorem sync_of_stays (hc : s.copy? user version = some c) (hstays : s.Stays version c) :
    sync item user version s = .ok () s := by
  rw [sync, hc]
  cases hhead : s.head? version with
  | none => rfl
  | some e =>
      have hkept : (c.merging || decide (c.synced = some e.revision.id)) = true := by
        simpa using hstays e hhead
      simp only [hkept, if_true]

theorem sync_of_behind (hc : s.copy? user version = some c) (he : s.head? version = some e)
    (hmerging : c.merging = false) (hbehind : c.synced ≠ some e.revision.id) :
    sync item user version s = .ok () (s.putCopy user version
      (if c.dirty then { c with merging := true }
        else { c with content := e.content, synced := e.revision.id })) := by
  rw [sync, hc, he]
  simp only [hmerging, hbehind, decide_false, Bool.or_false, Bool.false_eq_true, if_false]
  cases c.dirty <;> rfl

/-- A copy that has just been synchronized stays. -/
theorem sync_putCopy (item user : String) (he : s.head? version = some e)
    (hstays : c.merging = true ∨ c.synced = some e.revision.id) :
    sync item user version (s.putCopy user version c) = .ok () (s.putCopy user version c) := by
  refine sync_of_stays (copy?_putCopy_self ..) fun d hd => ?_
  obtain rfl := Option.some.inj (he.symm.trans hd)
  exact hstays

/-- **A second synchronization finds nothing to do**: it answers as the first did, and leaves what that
left. -/
theorem sync_again (item user version : String) (s : Shelf) :
    sync item user version (stateOf (sync item user version s)) = sync item user version s := by
  cases hcopy : s.copy? user version with
  | none =>
      cases hhead : s.head? version with
      | none =>
          have halike := s.alike_insert_copies user
          rw [sync_of_nothing hcopy hhead, stateOf_error,
            sync_of_nothing (by rw [← halike.copy?, hcopy]) (by rw [← halike.head?, hhead]),
            Keyed.getD_insert, if_pos rfl, Keyed.insert_insert]
      | some e =>
          rw [sync_of_head hcopy hhead, stateOf_ok]
          exact sync_putCopy item user hhead (.inr rfl)
  | some c =>
      rcases s.stays_or_behind version c with hstays | ⟨e, he, hmerging, hbehind⟩
      · rw [sync_of_stays hcopy hstays, stateOf_ok, sync_of_stays hcopy hstays]
      · rw [sync_of_behind hcopy he hmerging hbehind, stateOf_ok]
        refine sync_putCopy item user he ?_
        cases c.dirty with
        | true => exact .inl rfl
        | false => exact .inr rfl

namespace Consistent

/-- A copy that has no edits and is up to date is the unedited copy of the head. -/
theorem eq_ofEntry_of_clean (h : s.Consistent)
    (hids : ((s.entries version).map (·.revision.id)).Nodup) (hc : s.copy? user version = some c)
    (hclean : c.dirty = false) (he : s.head? version = some e)
    (hcurrent : c.syncState (some e) = .upToDate) : c = .ofEntry e := by
  obtain ⟨e', he', hcontent⟩ := h.content_of_clean hids hc hclean (he ▸ hcurrent)
  obtain rfl := Option.some.inj (he.symm.trans he')
  obtain ⟨hmerging, hsynced⟩ := syncState_eq_upToDate.1 hcurrent
  obtain ⟨content, synced, dirty, merging⟩ := c
  obtain rfl : content = e.content := hcontent
  obtain rfl : synced = some e.revision.id := hsynced
  obtain rfl : dirty = false := hclean
  obtain rfl : merging = false := hmerging
  rfl

/-- A copy without edits does not merge, and is of something that was published. -/
theorem of_clean (h : s.Consistent) (hc : s.copy? user version = some c) (hclean : c.dirty = false) :
    c.merging = false ∧ ∃ e, s.head? version = some e := by
  have hstands := h.stands hc
  constructor
  · refine Bool.eq_false_iff.2 fun hmerging => ?_
    exact absurd (hclean.symm.trans (hstands.merging hmerging).1) (by simp)
  · obtain ⟨e, he, -⟩ := hstands.clean hclean
    cases hhead : s.head? version with
    | none => exact absurd (entries_eq_nil_of_head? hhead ▸ he) List.not_mem_nil
    | some e => exact ⟨e, rfl⟩

/-- A copy with edits that stays is marked already, or it is not behind. -/
theorem synced_of_stays (h : s.Consistent) (hc : s.copy? user version = some c)
    (hstays : s.Stays version c) :
    c.merging = true ∨ c.synced = (s.head? version).map (·.revision.id) := by
  cases hhead : s.head? version with
  | none => exact .inr (syncState_eq_upToDate.1 (h.upToDate_of_head? hc hhead)).2
  | some e => exact hstays e hhead

/-- **What a synchronization puts**, where there is a copy or a publication. -/
theorem sync_eq (h : s.Consistent) (item : String)
    (hids : ((s.entries version).map (·.revision.id)).Nodup)
    (hany : ¬ (s.copy? user version = none ∧ s.head? version = none)) :
    ∃ after, WorkingCopy.Synchronized (s.copy? user version) (s.head? version) after ∧
      sync item user version s = .ok () (s.putCopy user version after) := by
  cases hcopy : s.copy? user version with
  | none =>
      obtain ⟨e, he⟩ := Option.ne_none_iff_exists'.1 fun hhead => hany ⟨hcopy, hhead⟩
      exact ⟨.ofEntry e, he ▸ .ofEntry (by simp), sync_of_head hcopy he⟩
  | some c =>
      have hkept : s.putCopy user version c = s := putCopy_eq_self hcopy
      cases hdirty : c.dirty with
      | false =>
          obtain ⟨hmerging, e, he⟩ := h.of_clean hcopy hdirty
          refine ⟨.ofEntry e, he ▸ .ofEntry ?_, ?_⟩
          · rintro _ ⟨⟩
            exact ⟨hdirty, hmerging⟩
          · by_cases hsynced : c.synced = some e.revision.id
            · -- the copy is the head's already
              have hcurrent : c.syncState (some e) = .upToDate :=
                syncState_eq_upToDate.2 ⟨hmerging, hsynced⟩
              obtain rfl := h.eq_ofEntry_of_clean hids hcopy hdirty he hcurrent
              have hentry := sync_putCopy item user he (.inr hsynced)
              rwa [hkept] at hentry ⊢
            · rw [sync_of_behind hcopy he hmerging hsynced, hdirty, hmerging]
              rfl
      | true =>
          rcases s.stays_or_behind version c with hstays | ⟨e, he, hmerging, hbehind⟩
          · exact ⟨c, .kept hdirty (h.synced_of_stays hcopy hstays),
              by rw [sync_of_stays hcopy hstays, hkept]⟩
          · refine ⟨{ c with merging := true }, he ▸ .marked hdirty hbehind, ?_⟩
            rw [sync_of_behind hcopy he hmerging hbehind, hdirty, if_pos rfl]

end Consistent

end Shelf

/-! ### The store -/

namespace Store

variable {s s' : Store} {session : Session} {item version : String}

/-- At most the copy that a session's user has of one version is another one. -/
structure SameButCopy (session : Session) (item version : String) (s s' : Store) : Prop
    extends SameShared s s' where
  copy? : ∀ t i u v, ¬ (t = session.tenant ∧ i = item ∧ u = session.user ∧ v = version) →
    (s'.shelf t i).copy? u v = (s.shelf t i).copy? u v

namespace SameButCopy

theorem of_alike (h : s.Alike s') : s.SameButCopy session item version s' where
  item? t i := (h.item? t i).symm
  shared t i := (h.shelves t i).shared.symm
  copy? t i u v _ := ((h.shelves t i).copy? u v).symm

theorem putCopy (s : Store) (session : Session) (item version : String) (c : WorkingCopy) :
    s.SameButCopy session item version (s.putShelf session.tenant item
      ((s.shelf session.tenant item).putCopy session.user version c)) where
  toSameShared := .putCopy ..
  copy? t i u v h := by
    rw [shelf_putShelf]
    split
    · rename_i hplace
      obtain ⟨rfl, rfl⟩ := hplace
      rw [Shelf.copy?_putCopy, if_neg fun hcopy => h ⟨rfl, rfl, hcopy⟩]
    · rfl

end SameButCopy

/-- A change of an item's versions that does nothing more when it is made again does so in the store. -/
theorem onShelf_again {α : Type} {change : EStateM StoreError Shelf α}
    (h : ∀ shelf, change (stateOf (change shelf)) = change shelf) (session : Session) (item : String)
    (s : Store) :
    onShelf session item change (stateOf (onShelf session item change s))
      = onShelf session item change s := by
  rw [onShelf_eq session item change s]
  cases hx : s.item? session.tenant item with
  | none =>
      rw [stateOf_error, onShelf_noItem (by rw [item?_touch, hx]), touch_touch]
  | some x =>
      have hagain := h (s.shelf session.tenant item)
      cases hres : change (s.shelf session.tenant item) with
      | ok a shelf =>
          rw [hres] at hagain
          exact onShelf_putShelf_ok hx hagain
      | error e shelf =>
          rw [hres] at hagain
          exact onShelf_putShelf_error hx hagain

/-- **A second synchronization has the result of the first**, in every store. -/
theorem result_sync_again (s : Store) (f g : Fresh) (session : Session) (item version : String) :
    (s.next ⟨f, session, .sync item version⟩).result ⟨g, session, .sync item version⟩
      = s.result ⟨f, session, .sync item version⟩ :=
  map_again (onShelf_again (Shelf.sync_again item session.user version) session item s)

/-! What comes of a change of an item's versions that answers nothing, as the memory backend makes it. -/

section

variable {x : Item} {change : EStateM StoreError Shelf Unit} {after : Shelf}

theorem map_onShelf_ok (hx : s.item? session.tenant item = some x)
    (h : change (s.shelf session.tenant item) = .ok () after) :
    ((fun () => Answer.done) <$> onShelf session item change) s
      = .ok .done (s.putShelf session.tenant item after) :=
  map_eq_ok.2 ⟨(), onShelf_ok hx h, rfl⟩

theorem map_onShelf_error (hx : s.item? session.tenant item = some x) {error : StoreError}
    (h : change (s.shelf session.tenant item) = .error error after) :
    ((fun () => Answer.done) <$> onShelf session item change) s
      = .error error (s.putShelf session.tenant item after) :=
  map_error (onShelf_error hx h)

theorem map_onShelf_noItem (hx : s.item? session.tenant item = none) :
    ((fun () => Answer.done) <$> onShelf session item change) s
      = .error (.noItem item) (s.touch session.tenant) :=
  map_error (onShelf_noItem hx)

end

/-- A synchronization fails where there is nothing, because something is not found. -/
theorem result_sync_of_nothing (f : Fresh)
    (h : s.item? session.tenant item = none ∨
      (s.shelf session.tenant item).copy? session.user version = none ∧
        (s.shelf session.tenant item).head? version = none) :
    ∃ error s', error.isNotFound = true ∧ s.Alike s' ∧
      s.result ⟨f, session, .sync item version⟩ = .error error s' := by
  cases hx : s.item? session.tenant item with
  | none => exact ⟨_, _, rfl, s.alike_touch _, map_onShelf_noItem hx⟩
  | some x =>
      obtain ⟨hcopy, hhead⟩ := h.resolve_left (by simp [hx])
      have halike := alike_putShelf ((s.shelf session.tenant item).alike_insert_copies session.user)
      exact ⟨.noVersion item version, _, rfl, halike,
        map_onShelf_error hx (Shelf.sync_of_nothing hcopy hhead)⟩

/-- **A synchronization loses no edits and leaves no copy out of sync.** Take any history of store calls of any
users, and a user who synchronizes a version then.

* Where the item is missing, or there is neither a copy of the user's nor anything shared, something is not
  found; everywhere else the call succeeds, and the user has a copy then.
* That copy is up to date, or it merges; the latter just if the copy before did so, or had edits and was
  behind. Edits stay as they are, and where there were none the copy is the unedited one of the head.
* No other copy changes, of whatever user or version, and nothing that is shared, and no item.
* A second synchronization has the same result: it changes nothing. -/
theorem sync_reconciles {history : List (Event StoreRequest)} (hfresh : FreshIds history) (f g : Fresh)
    (session : Session) (item version : String) :
    let s := Store.empty.after history
    let shelf := s.shelf session.tenant item
    let nothing := s.item? session.tenant item = none ∨
      shelf.copy? session.user version = none ∧ shelf.shared.get? version = none
    let first := s.result ⟨f, session, .sync item version⟩
    (nothing → ∃ error : StoreError, error.isNotFound = true ∧ answerOf first = .error error) ∧
    (¬ nothing → answerOf first = .ok .done ∧ ∃ after,
      ((stateOf first).shelf session.tenant item).copy? session.user version = some after ∧
      WorkingCopy.Synchronized (shelf.copy? session.user version) (shelf.head? version) after) ∧
    s.SameButCopy session item version (stateOf first) ∧
    (stateOf first).result ⟨g, session, .sync item version⟩ = first := by
  intro s shelf nothing first
  have h : s.Consistent :=
    Consistent.empty.after (KnownIds.empty : Store.empty.KnownIds []) hfresh (by simp)
  have hshelf : shelf.Consistent := h.shelf session.tenant item
  have hagain : (stateOf first).result ⟨g, session, .sync item version⟩ = first :=
    result_sync_again s f g session item version
  have hnothing : nothing ↔ s.item? session.tenant item = none ∨
      shelf.copy? session.user version = none ∧ shelf.head? version = none := by
    rw [← Option.isNone_iff_eq_none (o := shelf.head? version), ← Option.not_isSome,
      ← hshelf.isSome_shared, Option.not_isSome, Option.isNone_iff_eq_none]
  by_cases hany : nothing
  · obtain ⟨error, s', hmissing, halike, hfirst⟩ := result_sync_of_nothing f (hnothing.1 hany)
    change first = _ at hfirst
    rw [hfirst] at hagain ⊢
    exact ⟨fun _ => ⟨error, hmissing, rfl⟩, fun hsome => absurd hany hsome, .of_alike halike, hagain⟩
  · obtain ⟨hx, hsome⟩ := not_or.1 (mt hnothing.2 hany)
    obtain ⟨x, hx⟩ := Option.ne_none_iff_exists'.1 hx
    obtain ⟨after, hafter, hsync⟩ := hshelf.sync_eq item (h.revisions.once ..) hsome
    have hfirst : first = .ok .done _ := map_onShelf_ok hx hsync
    rw [hfirst] at hagain ⊢
    refine ⟨fun hnone => absurd hnone hany, fun _ => ⟨rfl, after, ?_, hafter⟩, .putCopy .., hagain⟩
    rw [stateOf_ok, shelf_putShelf_self, Shelf.copy?_putCopy_self]

/-- A user with edits on a superseded revision keeps them, and merges. -/
theorem late_edit_kept :
    let s := Store.empty.after (twoUsers ++ secondPublication :: lateEdit.take 1)
    FreshIds (twoUsers ++ secondPublication :: lateEdit.take 1) ∧
      ∃ c, (s.shelf "acme" "i1").copy? "bob" "v2" = some c ∧ c.dirty = true ∧ c.merging = false ∧
        ∀ f, ((s.next ⟨f, ⟨"bob", "acme"⟩, .sync "i1" "v2"⟩).shelf "acme" "i1").copy? "bob" "v2"
          = some { c with merging := true } := by
  intro s
  have hfresh : FreshIds (twoUsers ++ secondPublication :: lateEdit.take 1) := by decide
  obtain ⟨c, hc, hdirty, hmerging, hsynced⟩ : ∃ c, (s.shelf "acme" "i1").copy? "bob" "v2" = some c ∧
      c.dirty = true ∧ c.merging = false ∧ c.synced = some "r3" := ⟨_, rfl, rfl, rfl, rfl⟩
  have hhead : ((s.shelf "acme" "i1").head? "v2").map (·.revision.id) = some "r6" := rfl
  refine ⟨hfresh, c, hc, hdirty, hmerging, fun f => ?_⟩
  obtain ⟨-, hsync, -⟩ := sync_reconciles hfresh f f ⟨"bob", "acme"⟩ "i1" "v2"
  have hsome : ¬ (s.item? "acme" "i1" = none ∨ (s.shelf "acme" "i1").copy? "bob" "v2" = none ∧
      (s.shelf "acme" "i1").shared.get? "v2" = none) := by decide +kernel
  obtain ⟨-, after, hafter, hsynchronized⟩ := hsync hsome
  have hmerges : after.merging = true :=
    WorkingCopy.syncState_eq_merging.1 <| hsynchronized.merging.2
      ⟨c, hc, .inr ⟨hdirty, by rw [hsynced, hhead]; decide⟩⟩
  rw [hsynchronized.edited c hc hdirty, hmerges] at hafter
  exact hafter

/-- **The ways of reconciling agree.** Take any history of store calls of any users, and a user who brings a
shared version up to date then. To throw the copy away and to synchronize leaves the very store that a forced
synchronization leaves, whatever the copy was; and so does to synchronize alone, if there is no copy or one
without edits. All these calls succeed. -/
theorem ways_of_reconciling_agree {history : List (Event StoreRequest)} (hfresh : FreshIds history)
    (f g : Fresh) (session : Session) (item version : String)
    (hshared : (((Store.empty.after history).shelf session.tenant item).shared.get? version).isSome) :
    let s := Store.empty.after history
    let cleaned := s.next ⟨f, session, .clean item version⟩
    let forced := s.next ⟨f, session, .forceSync item version⟩
    s.result ⟨f, session, .forceSync item version⟩ = .ok .done forced ∧
    s.result ⟨f, session, .clean item version⟩ = .ok .done cleaned ∧
    cleaned.result ⟨g, session, .sync item version⟩ = .ok .done forced ∧
    ((∀ c, (s.shelf session.tenant item).copy? session.user version = some c → c.dirty = false) →
      s.result ⟨g, session, .sync item version⟩ = .ok .done forced) := by
  intro s cleaned forced
  let shelf := s.shelf session.tenant item
  have h : s.Consistent :=
    Consistent.empty.after (KnownIds.empty : Store.empty.KnownIds []) hfresh (by simp)
  have hshelf : shelf.Consistent := h.shelf session.tenant item
  obtain ⟨e, he⟩ : ∃ e, shelf.head? version = some e :=
    Option.isSome_iff_exists.1 (hshelf.isSome_shared ▸ hshared)
  obtain ⟨x, hx⟩ := h.item_of_head he
  -- all three ways leave the store in which the user has the unedited copy of the head
  let pulled := s.putShelf session.tenant item (shelf.putCopy session.user version (.ofEntry e))
  have hforce : s.result ⟨f, session, .forceSync item version⟩ = .ok .done pulled :=
    map_onShelf_ok hx (Shelf.forceSync_of_head he)
  have hforced : forced = pulled := congrArg stateOf hforce
  have hclean : s.result ⟨f, session, .clean item version⟩ = .ok .done
      (s.putShelf session.tenant item (shelf.dropCopy session.user version)) :=
    map_onShelf_ok hx (Shelf.clean_eq ..)
  have hcleaned : cleaned = s.putShelf session.tenant item (shelf.dropCopy session.user version) :=
    congrArg stateOf hclean
  rw [hforced, hcleaned]
  refine ⟨hforce, hclean, ?_, fun hunedited => ?_⟩
  · have hsync : Shelf.sync item session.user version (shelf.dropCopy session.user version)
        = .ok () (shelf.putCopy session.user version (.ofEntry e)) := by
      rw [Shelf.sync_of_head, Shelf.putCopy_dropCopy]
      · rw [Shelf.copy?_dropCopy, if_pos ⟨rfl, rfl⟩]
      · rw [Shelf.head?_dropCopy, he]
    exact map_eq_ok.2 ⟨(), onShelf_putShelf_ok hx hsync, rfl⟩
  · have hsome : ¬ (shelf.copy? session.user version = none ∧ shelf.head? version = none) := by
      simp [he]
    obtain ⟨after, hafter, hsync⟩ := hshelf.sync_eq item (h.revisions.once ..) hsome
    obtain ⟨e', he', rfl⟩ := hafter.unedited hunedited
    obtain rfl := Option.some.inj (he.symm.trans he')
    exact map_onShelf_ok hx hsync

/-- A copy without edits that is behind is synchronized; after an edit and a synchronization it merges, is
thrown away, and is pulled anew. Each time a forced synchronization leaves the same. -/
theorem stale_copy_reconciled :
    let clean := Store.empty.after (twoUsers ++ [secondPublication])
    let merging := Store.empty.after (twoUsers ++ secondPublication :: lateEdit)
    let bob : Session := ⟨"bob", "acme"⟩
    (FreshIds (twoUsers ++ secondPublication :: lateEdit) ∧
      ∃ c d, (clean.shelf "acme" "i1").copy? "bob" "v2" = some c ∧ c.dirty = false ∧
        c.syncState ((clean.shelf "acme" "i1").head? "v2") = .outOfSync ∧
        (merging.shelf "acme" "i1").copy? "bob" "v2" = some d ∧ d.merging = true) ∧
      ∀ f g : Fresh,
        clean.result ⟨g, bob, .sync "i1" "v2"⟩
          = .ok .done (clean.next ⟨f, bob, .forceSync "i1" "v2"⟩) ∧
        (merging.next ⟨f, bob, .clean "i1" "v2"⟩).result ⟨g, bob, .sync "i1" "v2"⟩
          = .ok .done (merging.next ⟨f, bob, .forceSync "i1" "v2"⟩) := by
  intro clean merging bob
  have hfresh : FreshIds (twoUsers ++ secondPublication :: lateEdit) := by decide
  have hfresh' : FreshIds (twoUsers ++ [secondPublication]) := by decide
  obtain ⟨c, hc, hclean, hbehind⟩ : ∃ c, (clean.shelf "acme" "i1").copy? "bob" "v2" = some c ∧
      c.dirty = false ∧ c.syncState ((clean.shelf "acme" "i1").head? "v2") = .outOfSync :=
    ⟨_, rfl, rfl, by decide +kernel⟩
  obtain ⟨d, hd, hmerging⟩ : ∃ d, (merging.shelf "acme" "i1").copy? "bob" "v2" = some d ∧
      d.merging = true := ⟨_, rfl, rfl⟩
  have hshared : ((clean.shelf "acme" "i1").shared.get? "v2").isSome := by decide +kernel
  have hshared' : ((merging.shelf "acme" "i1").shared.get? "v2").isSome := by decide +kernel
  refine ⟨⟨hfresh, c, d, hc, hclean, hbehind, hd, hmerging⟩, fun f g => ⟨?_, ?_⟩⟩
  · obtain ⟨-, -, -, hsync⟩ := ways_of_reconciling_agree hfresh' f g bob "i1" "v2" hshared
    refine hsync fun c' hc' => ?_
    rw [← Option.some.inj (hc.symm.trans hc'), hclean]
  · exact (ways_of_reconciling_agree hfresh f g bob "i1" "v2" hshared').2.2.1

end Store

end VersionCatalog
