import VersionCatalog.Proofs.Traces

/-!
# Reading a version

To read a version the engine looks at the caller's copy first. A copy that is not there is pulled, and one
that is out of sync with a certified head is replaced by it (`Shelf.Superseded`); every other copy is handed
out as it is. In a consistent store these are all the cases (`Versions.Reads`): a copy of a version that
nobody has published is up to date, so what is shown as certified and out of sync always has a head that can
be taken over.

## Main results

* `Versions.reads`: what comes of reading a version in a consistent store.
* `Platform.reading_reconciles`: the same after every history of operations, and that a second reading finds
  nothing more to do.
-/

namespace VersionCatalog

/-! ### Copies behind a certified head -/

namespace Shelf

variable {s : Shelf} {user version : String} {c : WorkingCopy} {v : Version}

theorem get?_eq_none_iff : s.get? user version = none ↔ s.copy? user version = none :=
  Option.map_eq_none_iff

/-- The user's copy is out of sync with a certified head. -/
def Superseded (s : Shelf) (user version : String) : Prop :=
  ∃ c e, s.copy? user version = some c ∧ s.head? version = some e ∧
    c.syncState (some e) = .outOfSync ∧ e.content.status = .certified

namespace Consistent

/-- A copy of a version that nobody has published is up to date. -/
theorem upToDate_of_head? (h : s.Consistent) (hc : s.copy? user version = some c)
    (hhead : s.head? version = none) : c.syncState none = .upToDate := by
  have hstands := h.stands hc
  have hnone : c.synced = none := by
    cases hsynced : c.synced with
    | none => rfl
    | some r =>
        obtain ⟨e, he, -⟩ := hstands.synced hsynced
        rw [entries_eq_nil_of_head? hhead] at he
        exact absurd he List.not_mem_nil
  exact syncState_eq_upToDate.2 ⟨(hstands.unsynced hnone).2, hnone⟩

/-- What a user is shown as certified and out of sync is superseded, and nothing else is. -/
theorem superseded_iff (h : s.Consistent) (hget : s.get? user version = some v) :
    (v.isCertified && v.isOutOfSync) = true ↔ s.Superseded user version := by
  obtain ⟨c, hc, rfl⟩ := Option.map_eq_some_iff.1 hget
  cases hhead : s.head? version with
  | none =>
      have hsync := h.upToDate_of_head? hc hhead
      constructor
      · intro hshown
        simp [Version.isOutOfSync, CopyState.isOutOfSync, hsync] at hshown
      · rintro ⟨_, e, -, he, -⟩
        rw [hhead] at he
        exact absurd he (by simp)
  | some e =>
      constructor
      · intro hshown
        simp only [Version.isCertified, Version.isOutOfSync, CopyState.isOutOfSync, Option.any_some,
          Bool.and_eq_true, beq_iff_eq] at hshown
        obtain ⟨hstatus, hsync⟩ := hshown
        simp only [hsync, reduceCtorEq, if_false, Option.map_some, Option.getD_some] at hstatus
        exact ⟨c, e, hc, hhead, hsync, hstatus⟩
      · rintro ⟨d, e', hd, he', hsync, hstatus⟩
        obtain rfl := Option.some.inj (hc.symm.trans hd)
        obtain rfl := Option.some.inj (hhead.symm.trans he')
        simp [Version.isCertified, Version.isOutOfSync, CopyState.isOutOfSync, hsync, hstatus]

/-- A version is shared if it has a head. -/
theorem isSome_shared (h : s.Consistent) :
    (s.shared.get? version).isSome = (s.head? version).isSome := by
  cases hhead : s.head? version with
  | none => rw [h.get?_shared_of_head? hhead]; rfl
  | some e =>
      obtain ⟨shared, hshared, -⟩ := Option.bind_eq_some_iff.1 hhead
      rw [hshared]
      rfl

end Consistent

end Shelf

/-! ### Stores with the same shared versions -/

namespace Store

variable {s s' s'' : Store} {session : Session} {tenant item user version : String}

/-- All items are the same in both stores, and all that is shared. -/
structure SameShared (s s' : Store) : Prop where
  item? : ∀ tenant item, s'.item? tenant item = s.item? tenant item
  shared : ∀ tenant item, (s'.shelf tenant item).shared = (s.shelf tenant item).shared

/-- The same as before is shared, and at most the copy that a session's user has of one version is another
one: a copy of the head. -/
structure Pulled (session : Session) (item : String) (version : Option String) (s s' : Store) : Prop
    extends SameShared s s' where
  copy? : ∀ t i u v, (s'.shelf t i).copy? u v = (s.shelf t i).copy? u v ∨
    t = session.tenant ∧ i = item ∧ u = session.user ∧ version = some v ∧
      ∃ e, (s.shelf t i).head? v = some e ∧ (s'.shelf t i).copy? u v = some (.ofEntry e)

namespace SameShared

theorem refl (s : Store) : s.SameShared s :=
  ⟨fun _ _ => rfl, fun _ _ => rfl⟩

theorem trans (h : s.SameShared s') (h' : s'.SameShared s'') : s.SameShared s'' :=
  ⟨fun t i => (h'.item? t i).trans (h.item? t i), fun t i => (h'.shared t i).trans (h.shared t i)⟩

theorem entries (h : s.SameShared s') (tenant item version : String) :
    (s'.shelf tenant item).entries version = (s.shelf tenant item).entries version := by
  rw [Shelf.entries, h.shared, Shelf.entries]

theorem head? (h : s.SameShared s') (tenant item version : String) :
    (s'.shelf tenant item).head? version = (s.shelf tenant item).head? version := by
  rw [Shelf.head?, h.shared, Shelf.head?]

/-- Nothing that is shared depends on a copy. -/
theorem putCopy (s : Store) (tenant item user version : String) (c : WorkingCopy) :
    s.SameShared (s.putShelf tenant item ((s.shelf tenant item).putCopy user version c)) where
  item? t i := item?_putShelf ..
  shared t i := by
    rw [shelf_putShelf]
    split
    · rename_i hplace
      rw [hplace.1, hplace.2]
      rfl
    · rfl

end SameShared

namespace Pulled

variable {pulled : Option String}

theorem refl (s : Store) : s.Pulled session item pulled s :=
  ⟨.refl s, fun _ _ _ _ => .inl rfl⟩

theorem of_alike (h : s.Alike s') : s.Pulled session item pulled s' where
  item? t i := (h.item? t i).symm
  shared t i := (h.shelves t i).shared.symm
  copy? t i u v := .inl ((h.shelves t i).copy? u v).symm

theorem trans_alike (h : s.Pulled session item pulled s') (h' : s'.Alike s'') :
    s.Pulled session item pulled s'' where
  toSameShared := h.toSameShared.trans
    ⟨fun t i => (h'.item? t i).symm, fun t i => (h'.shelves t i).shared.symm⟩
  copy? t i u v := by
    rw [← (h'.shelves t i).copy? u v]
    exact h.copy? t i u v

/-- The user takes the head of a version over. -/
theorem putCopy {e : Entry} (he : (s.shelf session.tenant item).head? version = some e) :
    s.Pulled session item (some version) (s.putShelf session.tenant item
      ((s.shelf session.tenant item).putCopy session.user version (.ofEntry e))) where
  toSameShared := .putCopy ..
  copy? t i u v := by
    rw [shelf_putShelf]
    split
    · rename_i hplace
      obtain ⟨rfl, rfl⟩ := hplace
      rw [Shelf.copy?_putCopy]
      split
      · rename_i hcopy
        obtain ⟨rfl, rfl⟩ := hcopy
        exact .inr ⟨rfl, rfl, rfl, rfl, e, he, rfl⟩
      · exact .inl rfl
    · exact .inl rfl

end Pulled

end Store

/-! ### The outcome of a reading -/

namespace Versions

variable {f : Fresh} {session : Session} {item version : String} {s s' : Store} {v : Version} {e : Entry}

/-- What can come of reading a version. -/
inductive Reads (session : Session) (item version : String) (s : Store) :
    EStateM.Result EngineError Store Version → Prop
  /-- The caller has no copy of the version and nobody has published it. Nothing that is ever looked at
  changes. -/
  | missing {s' : Store} (hcopy : (s.shelf session.tenant item).copy? session.user version = none)
      (hhead : (s.shelf session.tenant item).head? version = none) (halike : s.Alike s') :
      Reads session item version s (.error (.notFound (if (s.item? session.tenant item).isSome then
        s!"version {version} of item {item}" else s!"item {item}")) s')
  /-- The caller has no copy, or one that is superseded, and gets one of the head. -/
  | pulled {e : Entry} (hhead : (s.shelf session.tenant item).head? version = some e)
      (hneeded : (s.shelf session.tenant item).copy? session.user version = none ∨
        (s.shelf session.tenant item).Superseded session.user version) :
      Reads session item version s (.ok ⟨e.content, some ⟨.upToDate, false⟩⟩
        (s.putShelf session.tenant item
          ((s.shelf session.tenant item).putCopy session.user version (.ofEntry e))))
  /-- The caller's copy is shown as it is. -/
  | kept {v : Version} (hget : (s.shelf session.tenant item).get? session.user version = some v)
      (hcurrent : ¬ (s.shelf session.tenant item).Superseded session.user version) :
      Reads session item version s (.ok v s)

/-- A call that puts a copy of the head in place of the caller's, looked at afterwards. -/
theorem bind_refetch_head (he : (s.shelf session.tenant item).head? version = some e)
    {x : Change Unit} {after : String}
    (hx : x s = .ok () (s.putShelf session.tenant item
      ((s.shelf session.tenant item).putCopy session.user version (.ofEntry e)))) :
    (Call.ofStore x >>= fun _ => refetch (Memory.backend f) session item version after) s
      = .ok ⟨e.content, some ⟨.upToDate, false⟩⟩ (s.putShelf session.tenant item
          ((s.shelf session.tenant item).putCopy session.user version (.ofEntry e))) := by
  rw [bind_ok (Call.ofStore_ok hx), refetch_eq, Store.shelf_putShelf_self,
    Shelf.get?_putCopy_head he]

/-- A version that the user has no copy of is pulled. -/
theorem get_of_absent {x : Item} (hx : s.item? session.tenant item = some x)
    (hcopy : (s.shelf session.tenant item).copy? session.user version = none)
    (he : (s.shelf session.tenant item).head? version = some e) :
    get (Memory.backend f) session item version s
      = .ok ⟨e.content, some ⟨.upToDate, false⟩⟩ (s.putShelf session.tenant item
          ((s.shelf session.tenant item).putCopy session.user version (.ofEntry e))) := by
  have hsync : Store.sync session item version s = .ok () _ :=
    Store.onShelf_ok hx (Shelf.sync_of_head hcopy he)
  rw [get_eq, Shelf.get?_eq_none_iff.2 hcopy, bind_refetch_head he hsync]

/-- A copy that is not shown as certified and out of sync is handed out. -/
theorem get_of_current (hget : (s.shelf session.tenant item).get? session.user version = some v)
    (hcurrent : (v.isCertified && v.isOutOfSync) = false) :
    get (Memory.backend f) session item version s = .ok v s := by
  rw [get_eq, hget]
  simp only [hcurrent, Bool.false_eq_true, if_false]

/-- **What comes of reading a version** in a consistent store. -/
theorem reads (h : s.Consistent) (f : Fresh) (session : Session) (item version : String) :
    Reads session item version s (get (Memory.backend f) session item version s) := by
  have hshelf := h.shelf session.tenant item
  cases hget : (s.shelf session.tenant item).get? session.user version with
  | some v =>
      obtain ⟨c, hc, -⟩ := Option.map_eq_some_iff.1 hget
      by_cases hsuperseded : (s.shelf session.tenant item).Superseded session.user version
      · obtain ⟨-, e, -, he, -⟩ := id hsuperseded
        obtain ⟨x, hx⟩ := h.item_of_head he
        have hforce : Store.forceSync session item version s = .ok () _ :=
          Store.onShelf_ok hx (Shelf.forceSync_of_head he)
        rw [get_eq, hget]
        simp only [(hshelf.superseded_iff hget).2 hsuperseded, if_true]
        rw [bind_refetch_head he hforce]
        exact .pulled he (.inr hsuperseded)
      · rw [get_of_current hget (Bool.eq_false_iff.2 (mt (hshelf.superseded_iff hget).1 hsuperseded))]
        exact .kept hget hsuperseded
  | none =>
      have hcopy : (s.shelf session.tenant item).copy? session.user version = none :=
        Shelf.get?_eq_none_iff.1 hget
      cases hx : s.item? session.tenant item with
      | none =>
          have hsync : Store.sync session item version s = .error (.noItem item) _ :=
            Store.onShelf_noItem hx
          have hmissing := Reads.missing hcopy (by rw [h.missing hx]; rfl)
            (Store.alike_touch s session.tenant)
          rw [hx] at hmissing
          rw [get_eq, hget]
          exact bind_error (Call.ofStore_error hsync) ▸ hmissing
      | some x =>
          cases he : (s.shelf session.tenant item).head? version with
          | none =>
              have hsync : Store.sync session item version s = .error (.noVersion item version) _ :=
                Store.onShelf_error hx (Shelf.sync_of_nothing hcopy he)
              have halike := (s.shelf session.tenant item).alike_insert_copies session.user
              have hmissing := Reads.missing hcopy he (Store.alike_putShelf halike)
              rw [hx] at hmissing
              rw [get_eq, hget]
              exact bind_error (Call.ofStore_error hsync) ▸ hmissing
          | some e =>
              rw [get_of_absent hx hcopy he]
              exact .pulled he (.inl hcopy)

/-- A reading changes nothing but the caller's copy. -/
theorem Reads.pulled_stateOf {result : EStateM.Result EngineError Store Version}
    (hread : Reads session item version s result) :
    s.Pulled session item (some version) (stateOf result) := by
  cases hread with
  | missing _ _ halike => exact .of_alike halike
  | pulled he => exact .putCopy he
  | kept => exact .refl s

/-- A copy that is not superseded is left alone, and so is everything else. -/
theorem Reads.stateOf_of_copy {result : EStateM.Result EngineError Store Version} {c : WorkingCopy}
    (hread : Reads session item version s result)
    (hc : (s.shelf session.tenant item).copy? session.user version = some c)
    (hcurrent : ¬ (s.shelf session.tenant item).Superseded session.user version) :
    stateOf result = s := by
  cases hread with
  | missing hcopy => exact absurd (hc.symm.trans hcopy) (by simp)
  | pulled _ hneeded =>
      rcases hneeded with hnone | hsuperseded
      · exact absurd (hc.symm.trans hnone) (by simp)
      · exact absurd hsuperseded hcurrent
  | kept => rfl

/-- There is something to read where the item is there, and a copy or a shared version. -/
theorem readable_iff (h : s.Consistent) :
    (s.item? session.tenant item).isSome ∧
        (((s.shelf session.tenant item).copy? session.user version).isSome ∨
          ((s.shelf session.tenant item).shared.get? version).isSome) ↔
      ¬ ((s.shelf session.tenant item).copy? session.user version = none ∧
        (s.shelf session.tenant item).head? version = none) := by
  rw [(h.shelf session.tenant item).isSome_shared]
  cases hx : s.item? session.tenant item with
  | none => simp [h.missing hx]
  | some x =>
      simp only [Option.isSome_iff_ne_none, ne_eq, not_and_or, reduceCtorEq, not_false_eq_true,
        true_and]

/-- What was read is not known to be behind a certified head, and is read again as it is. -/
theorem Reads.again (hread : Reads session item version s (.ok v s')) (h : s.Consistent) (g : Fresh) :
    (v.isCertified && v.isOutOfSync) = false ∧
      get (Memory.backend g) session item version s' = .ok v s' := by
  cases hread with
  | @pulled e he =>
      have hcurrent : ∀ c : Content,
          ((⟨c, some ⟨.upToDate, false⟩⟩ : Version).isCertified &&
            (⟨c, some ⟨.upToDate, false⟩⟩ : Version).isOutOfSync) = false := fun c =>
        Bool.and_false _
      refine ⟨hcurrent e.content, get_of_current ?_ (hcurrent e.content)⟩
      rw [Store.shelf_putShelf_self, Shelf.get?_putCopy_head he]
  | kept hget hcurrent =>
      have hshelf := h.shelf session.tenant item
      have hcurrent := Bool.eq_false_iff.2 (mt (hshelf.superseded_iff hget).1 hcurrent)
      exact ⟨hcurrent, get_of_current hget hcurrent⟩

end Versions

/-! ### Readings after a history -/

namespace Platform

/-- **Reading reconciles.** Take any history of operations of any users, direct calls of the store and requests
to engines alike, and a user who reads a version then.

* The user gets it just if the item is there and the user has a copy or the version is shared. Otherwise it is
  not found, and nothing that is ever looked at changes.
* What the user gets is not certified and out of sync at once.
* If the user had no copy, or one that is out of sync with a certified head, the user now has an unedited copy
  of the head, and gets that; nothing else changes. Otherwise the user gets the copy as it was, and nothing
  changes at all.
* Who reads it again gets the same, and changes nothing. -/
theorem reading_reconciles {history : List (Event Operation)} (hfresh : FreshIds history) (f g : Fresh)
    (session : Session) (item version : String) :
    let s := memory.after .empty history
    let shelf := s.shelf session.tenant item
    let read (f : Fresh) (s : Store) := Versions.get (memory.backend f) session item version s
    let readable := (s.item? session.tenant item).isSome ∧
      ((shelf.copy? session.user version).isSome ∨ (shelf.shared.get? version).isSome)
    let pulls := shelf.copy? session.user version = none ∨ shelf.Superseded session.user version
    ((∃ v s', read f s = .ok v s') ↔ readable) ∧
    (¬ readable → ∃ s', s.Alike s' ∧
      read f s = .error (.notFound (if (s.item? session.tenant item).isSome then
        s!"version {version} of item {item}" else s!"item {item}")) s') ∧
    ∀ v s', read f s = .ok v s' →
      ¬ (v.isCertified = true ∧ v.isOutOfSync = true) ∧
      (pulls → ∃ e, shelf.head? version = some e ∧ v = ⟨e.content, some ⟨.upToDate, false⟩⟩ ∧
        s' = s.putShelf session.tenant item (shelf.putCopy session.user version (.ofEntry e))) ∧
      (¬ pulls → shelf.get? session.user version = some v ∧ s' = s) ∧
      read g s' = .ok v s' := by
  have h := consistent_after hfresh
  intro s shelf read readable pulls
  change s.Consistent at h
  have hreads : Versions.Reads session item version s (read f s) := Versions.reads h f session item version
  have hreadable : readable ↔ _ := Versions.readable_iff h
  refine ⟨?_, ?_, fun v s' hread => ?_⟩
  · rw [hreadable]
    constructor
    · rintro ⟨v, s', hread⟩ ⟨hcopy, hhead⟩
      rw [hread] at hreads
      cases hreads with
      | pulled he => exact absurd (he.symm.trans hhead) (by simp)
      | kept hget => exact absurd (hget.symm.trans (Shelf.get?_eq_none_iff.2 hcopy)) (by simp)
    · intro hany
      generalize read f s = result at hreads
      cases hreads with
      | missing hcopy hhead => exact absurd ⟨hcopy, hhead⟩ hany
      | pulled he => exact ⟨_, _, rfl⟩
      | kept hget => exact ⟨_, _, rfl⟩
  · intro hnone
    rw [hreadable, not_not] at hnone
    generalize read f s = result at hreads
    cases hreads with
    | missing _ _ halike => exact ⟨_, halike, rfl⟩
    | pulled he => exact absurd (he.symm.trans hnone.2) (by simp)
    | kept hget => exact absurd (hget.symm.trans (Shelf.get?_eq_none_iff.2 hnone.1)) (by simp)
  · rw [hread] at hreads
    obtain ⟨hcurrent, hagain⟩ := hreads.again h g
    refine ⟨by simpa using hcurrent, ?_, ?_, hagain⟩
    · intro hpulls
      cases hreads with
      | pulled he => exact ⟨_, he, rfl, rfl⟩
      | kept hget hkept =>
          rcases hpulls with hnone | hsuperseded
          · exact absurd (hget.symm.trans (Shelf.get?_eq_none_iff.2 hnone)) (by simp)
          · exact absurd hsuperseded hkept
    · intro hkeeps
      cases hreads with
      | pulled he hneeded => exact absurd hneeded hkeeps
      | kept hget => exact ⟨hget, rfl⟩

/-- A version is pulled by another user, by a direct call of the store, before it is certified. -/
def earlyPull : List (Event Operation) :=
  [⟨⟨"i1", "v1", "r1", Store.noon⟩, ⟨"alice", "acme"⟩, .engine .standard (.createItem Item.blank)⟩,
    ⟨⟨"i2", "v2", "r2", Store.noon⟩, ⟨"alice", "acme"⟩,
      .engine .standard (.createVersion "i1" none Version.blank .major)⟩,
    ⟨⟨"i3", "v3", "r3", Store.noon⟩, ⟨"bob", "acme"⟩, .store (.sync "i1" "v2")⟩,
    ⟨⟨"i4", "v4", "r4", Store.noon⟩, ⟨"alice", "acme"⟩,
      .engine .standard (.setVersionStatus "i1" "v2" .certified "done")⟩]

/-- The user who pulled it early reads it as certified, twice. -/
theorem early_pull_reconciled :
    let s := memory.after .empty earlyPull
    FreshIds earlyPull ∧ (s.shelf "acme" "i1").Superseded "bob" "v2" ∧
      ∀ f g : Fresh, ∃ v s', v.status = .certified ∧ v.state = some ⟨.upToDate, false⟩ ∧
        Versions.get (memory.backend f) ⟨"bob", "acme"⟩ "i1" "v2" s = .ok v s' ∧
        Versions.get (memory.backend g) ⟨"bob", "acme"⟩ "i1" "v2" s' = .ok v s' := by
  intro s
  have hfresh : FreshIds earlyPull := by decide
  have hsuperseded : (s.shelf "acme" "i1").Superseded "bob" "v2" := by
    let shelf := s.shelf "acme" "i1"
    have hcopy : (shelf.copy? "bob" "v2").map (·.syncState (shelf.head? "v2")) = some .outOfSync := by
      decide +kernel
    have hhead : (shelf.head? "v2").map (·.content.status) = some .certified := by decide +kernel
    obtain ⟨c, hc, hsync⟩ := Option.map_eq_some_iff.1 hcopy
    obtain ⟨e, he, hstatus⟩ := Option.map_eq_some_iff.1 hhead
    exact ⟨c, e, hc, he, he ▸ hsync, hstatus⟩
  refine ⟨hfresh, hsuperseded, fun f g => ?_⟩
  obtain ⟨hreadable, -, hread⟩ := reading_reconciles hfresh f g ⟨"bob", "acme"⟩ "i1" "v2"
  obtain ⟨v, s', hv⟩ := hreadable.2 (by decide +kernel)
  obtain ⟨-, hpulled, -, hagain⟩ := hread v s' hv
  obtain ⟨e, he, rfl, -⟩ := hpulled (.inr hsuperseded)
  obtain ⟨c, e', hc, he', -, hstatus⟩ := hsuperseded
  obtain rfl := Option.some.inj (he.symm.trans he')
  exact ⟨_, _, hstatus, rfl, hv, hagain⟩

end Platform

end VersionCatalog
