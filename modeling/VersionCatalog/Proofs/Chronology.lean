import VersionCatalog.Proofs.Deletion
import VersionCatalog.Proofs.Descent

/-!
# The order of revisions

Revisions are kept in the order of their publication, and listed by the times that they carry, the latest first
(`Revision.IsLatestFirst`). A revision takes its time from the operation that publishes it, and no operation
publishes two revisions of a version. So while the clock grows the times tell the order of the publications,
whoever made them, and what is listed is what is kept, read backwards.

## Main results

* `Revision.isLatestFirst_latestFirst`: what the sort does to any list.
* `Platform.published_perform`: what one operation publishes of a version.
* `Platform.revisions_after`: all that a history publishes stays, in its order, while the item is there.
* `Platform.revisions_listed_latest_first`: what is listed after every history, and what its first entry is.
-/

namespace VersionCatalog

/-! ### Sorting revisions -/

namespace Revision

/-- The list `sorted` has the revisions of `rs` with the latest first, and those of each time in their order. -/
structure IsLatestFirst (rs sorted : List Revision) : Prop where
  perm : sorted.Perm rs
  falling : sorted.Pairwise fun a b => b.time ≤ a.time
  stable : ∀ time : Instant, sorted.filter (·.time = time) = rs.filter (·.time = time)

variable {rs : List Revision}

theorem notEarlier_trans (a b c : Revision) (hab : decide (b.time ≤ a.time) = true)
    (hbc : decide (c.time ≤ b.time) = true) : decide (c.time ≤ a.time) = true := by
  rw [decide_eq_true_eq] at *
  exact Int.le_trans hbc hab

theorem notEarlier_total (a b : Revision) :
    (decide (b.time ≤ a.time) || decide (a.time ≤ b.time)) = true := by
  rw [Bool.or_eq_true, decide_eq_true_eq, decide_eq_true_eq]
  exact Int.le_total _ _

/-- **The sort brings the latest revisions to the front**, and is stable. -/
theorem isLatestFirst_latestFirst (rs : List Revision) : IsLatestFirst rs (latestFirst rs) where
  perm := List.mergeSort_perm rs _
  falling := (List.pairwise_mergeSort notEarlier_trans notEarlier_total rs).imp of_decide_eq_true
  stable time := by
    -- the revisions of one time are in order already, so the sort has them as a part of its result
    have hordered : (rs.filter (·.time = time)).Pairwise fun a b => decide (b.time ≤ a.time) = true := by
      refine List.pairwise_iff_forall_sublist.2 fun {a b} hsub => ?_
      have ha : a.time = time := by simpa using (List.mem_filter.1 (hsub.subset (by simp : a ∈ [a, b]))).2
      have hb : b.time = time := by simpa using (List.mem_filter.1 (hsub.subset (by simp : b ∈ [a, b]))).2
      rw [decide_eq_true_eq, ha, hb]
      exact Int.le_refl _
    have hsub : (rs.filter (·.time = time)).Sublist (latestFirst rs) :=
      List.sublist_mergeSort notEarlier_trans notEarlier_total hordered List.filter_sublist
    have hpart : (rs.filter (·.time = time)).Sublist ((latestFirst rs).filter (·.time = time)) := by
      have hfiltered := hsub.filter fun r => decide (r.time = time)
      simpa only [List.filter_filter, Bool.and_self] using hfiltered
    have hlength : ((latestFirst rs).filter (·.time = time)).length = (rs.filter (·.time = time)).length :=
      ((List.mergeSort_perm rs _).filter _).length_eq
    exact (hpart.eq_of_length hlength.symm).symm

/-- Revisions in the order of their times are turned round. -/
theorem latestFirst_eq_reverse (h : rs.Pairwise fun a b => a.time < b.time) :
    latestFirst rs = rs.reverse := by
  have hsorted := isLatestFirst_latestFirst rs
  have hperm : (latestFirst rs).Perm rs.reverse := hsorted.perm.trans rs.reverse_perm.symm
  have hreversed : rs.reverse.Pairwise fun a b => b.time < a.time := List.pairwise_reverse.2 h
  -- the times are different, so the sorted list falls strictly, too
  have hstrict : (latestFirst rs).Pairwise fun a b => b.time < a.time := by
    have hne : (latestFirst rs).Pairwise fun a b => a.time ≠ b.time := by
      refine hperm.symm.pairwise (hreversed.imp fun {a b} hlt heq => ?_) fun {a b} hab => hab.symm
      rw [heq] at hlt
      exact Int.lt_irrefl _ hlt
    refine (hsorted.falling.and hne).imp fun {a b} hab => ?_
    exact Int.lt_iff_le_and_ne.2 ⟨hab.1, fun heq => hab.2 (Instant.rank_injective heq.symm)⟩
  exact hperm.eq_of_pairwise (fun a b _ _ hab hba => absurd (Int.lt_trans hab hba) (Int.lt_irrefl _))
    hstrict hreversed

/-- What a revision takes from the operation that publishes it: its id, its time and its user. -/
def stamp (r : Revision) : String × Instant × String :=
  (r.id, r.time, r.user)

end Revision

/-- What an event would put into a revision. -/
def Event.stamp {ρ : Type} (e : Event ρ) : String × Instant × String :=
  (e.fresh.revision, e.fresh.clock.publish, e.session.user)

/-! ### Publications of store calls -/

/-- A publication that succeeds appends what the copy holds, if the copy was edited or is new. -/
theorem Shelf.entries_of_publish {s s' : Shelf} {item revision user version message : String} {now : Instant}
    {c : WorkingCopy} (hcopy : s.copy? user version = some c) (hedits : c.dirty = true ∨ c.synced = none)
    (h : publish item revision now user version message s = .ok () s') :
    s'.entries version = s.entries version ++ [⟨⟨revision, message, now, user⟩, c.content⟩] := by
  have hchanged : (!c.dirty && c.synced.isSome) = false := by
    rcases hedits with hdirty | hnew
    · rw [hdirty, Bool.not_true, Bool.false_and]
    · rw [hnew, Option.isSome_none, Bool.and_false]
  rw [publish, hcopy] at h
  cases hsync : c.syncState (s.head? version) with
  | merging | outOfSync => simp [hsync] at h
  | upToDate =>
      simp only [hsync, hchanged, Bool.false_eq_true, if_false] at h
      split at h
      · cases h
      · cases h
        rw [entries_putCopy, entries_append, if_pos rfl]

namespace Store

variable {f : Fresh} {session : Session} {kinds : List IdKind} {s s' : Store}
  {tenant item version : String}

/-- The revisions of a version that a store keeps. -/
def revisions (tenant item version : String) (s : Store) : List Revision :=
  (s.shelf tenant item).revisions version

@[simp] theorem revisions_empty : empty.revisions tenant item version = [] := rfl

/-- What one call does to the revisions of a version: nothing, or none is left, or it publishes one. -/
theorem revisions_next_eq_or (s : Store) (e : Event StoreRequest) (tenant item version : String) :
    (s.next e).revisions tenant item version = s.revisions tenant item version ∨
      (s.next e).revisions tenant item version = [] ∨
      e.request.takes? = some .revision ∧ e.session.tenant = tenant ∧ ∃ r : Revision, r.stamp = e.stamp ∧
        (s.next e).revisions tenant item version = s.revisions tenant item version ++ [r] := by
  have hentries : ∀ s : Store, s.revisions tenant item version
      = ((s.shelf tenant item).entries version).map (·.revision) := fun _ => rfl
  rw [hentries, hentries]
  rcases s.entries_next_eq_or e tenant item version with
    hsame | ⟨-, hnil⟩ | ⟨htenant, message, c, hrequest, -, -, -, hadd⟩
  · exact .inl (by rw [hsame])
  · exact .inr (.inl (by rw [hnil, List.map_nil]))
  · refine .inr (.inr ⟨congrArg StoreRequest.takes? hrequest, htenant, ?_⟩)
    rw [hadd, List.map_append]
    exact ⟨_, rfl, rfl⟩

/-- What some calls of a session do to the revisions of a version: there are new ones, with what was there
before or without, and not more than calls that publish. -/
theorem revisions_after_eq_or (s : Store) (f : Fresh) (session : Session) (calls : List StoreRequest)
    (tenant item version : String) :
    let s' := s.after (calls.map fun r => ⟨f, session, r⟩)
    ∃ new : List Revision,
      (s'.revisions tenant item version = s.revisions tenant item version ++ new ∨
        s'.revisions tenant item version = new) ∧
      (∀ r ∈ new, session.tenant = tenant ∧ r.stamp = (f.revision, f.clock.publish, session.user)) ∧
      new.length ≤ (calls.filterMap StoreRequest.takes?).count .revision := by
  induction calls generalizing s with
  | nil => exact ⟨[], .inl (List.append_nil _).symm, by simp, Nat.zero_le _⟩
  | cons r calls ih =>
      obtain ⟨new, hafter, hstamps, hcount⟩ := ih (s.next ⟨f, session, r⟩)
      have hmore : (calls.filterMap StoreRequest.takes?).count .revision
          ≤ ((r :: calls).filterMap StoreRequest.takes?).count .revision :=
        ((List.sublist_cons_self r calls).filterMap _).count_le _
      rcases s.revisions_next_eq_or ⟨f, session, r⟩ tenant item version with
        hsame | hnil | ⟨htakes, htenant, x, hx, hadd⟩
      · rw [hsame] at hafter
        exact ⟨new, hafter, hstamps, hcount.trans hmore⟩
      · rw [hnil, List.nil_append] at hafter
        exact ⟨new, .inr (hafter.elim id id), hstamps, hcount.trans hmore⟩
      · rw [hadd, List.append_assoc] at hafter
        rcases hafter with hkept | hgone
        · refine ⟨x :: new, .inl hkept, List.forall_mem_cons.2 ⟨⟨htenant, hx⟩, hstamps⟩, ?_⟩
          rw [List.filterMap_cons_some htakes, List.count_cons_self, List.length_cons]
          exact Nat.succ_le_succ hcount
        · exact ⟨new, .inr hgone, hstamps, hcount.trans hmore⟩

/-- A forced synchronization takes over what was published last. -/
theorem forceSync_of_revisions {x : Item} (hx : s.item? session.tenant item = some x) {r : Revision}
    (hr : (s.revisions session.tenant item version).getLast? = some r) :
    ∃ (s' : Store) (c : WorkingCopy), forceSync session item version s = .ok () s' ∧
      (s'.shelf session.tenant item).copy? session.user version = some c ∧ c.synced = some r.id := by
  have hlast : ((s.shelf session.tenant item).head? version).map (·.revision) = some r := by
    rw [Shelf.head?_eq, ← List.getLast?_map]
    exact hr
  obtain ⟨e, he, rfl⟩ := Option.map_eq_some_iff.1 hlast
  refine ⟨_, .ofEntry e, onShelf_ok hx (Shelf.forceSync_of_head he), ?_, rfl⟩
  rw [shelf_putShelf_self, Shelf.copy?_putCopy_self]

end Store

/-! ### Publications of operations -/

/-- The item and the version that an operation is asked to publish, and the message. -/
def Operation.publishes? : Operation → Option (String × String × String)
  | .store (.publish item version message) | .engine _ (.publish item version message) =>
    some (item, version, message)
  | _ => none

namespace Platform

variable {s s' : Store} {e : Event Operation} {tenant item version : String}
  {history : List (Event Operation)}

/-- The revisions of a version that were published between two stores: those that were not there before. -/
def published (tenant item version : String) (s s' : Store) : List Revision :=
  (s'.revisions tenant item version).filter (· ∉ s.revisions tenant item version)

/-- The revisions of a version that a history publishes, in the order of their publication. -/
def publications (tenant item version : String) : Store → List (Event Operation) → List Revision
  | _, [] => []
  | s, e :: history =>
    published tenant item version s (memory.perform s e).2 ++
      publications tenant item version (memory.perform s e).2 history

/-- All revisions of a version are older than any that the history makes. -/
def Older (tenant item version : String) (s : Store) (history : List (Event Operation)) : Prop :=
  ∀ r ∈ s.revisions tenant item version, ∀ e ∈ history, r.time < e.fresh.clock.publish

theorem published_of_append {new : List Revision}
    (hnew : ∀ r ∈ new, r ∉ s.revisions tenant item version)
    (hs' : s'.revisions tenant item version = s.revisions tenant item version ++ new ∨
      s'.revisions tenant item version = new) : published tenant item version s s' = new := by
  have hkept : new.filter (· ∉ s.revisions tenant item version) = new :=
    List.filter_eq_self.2 fun r hr => decide_eq_true (hnew r hr)
  rcases hs' with hs' | hs'
  · have hold : (s.revisions tenant item version).filter (· ∉ s.revisions tenant item version) = [] :=
      List.filter_eq_nil_iff.2 fun r hr => by simpa using hr
    rw [published, hs', List.filter_append, hold, List.nil_append, hkept]
  · rw [published, hs', hkept]

/-- **What an operation publishes of a version** is one revision at most, made by the operation. It comes after
those that were there, of which either all stay or none. -/
theorem published_perform (hclock : Older tenant item version s [e]) :
    let s' := (memory.perform s e).2
    let new := published tenant item version s s'
    (s'.revisions tenant item version = s.revisions tenant item version ++ new ∨
      s'.revisions tenant item version = new) ∧
    (new.map Revision.stamp).Sublist (([e].filter (·.session.tenant = tenant)).map Event.stamp) := by
  intro s' new
  obtain ⟨kinds, hkinds, calls, hsub, hcalls⟩ := made_perform s e
  obtain ⟨made, hafter, hstamps, hcount⟩ :=
    s.revisions_after_eq_or e.fresh e.session calls tenant item version
  rw [← hcalls] at hafter
  have hnew : ∀ r ∈ made, r ∉ s.revisions tenant item version := by
    intro r hr hold
    have hlt := hclock r hold e List.mem_cons_self
    have htime : r.time = e.fresh.clock.publish := congrArg (·.2.1) (hstamps r hr).2
    rw [htime] at hlt
    exact Int.lt_irrefl _ hlt
  have hmade : new = made := published_of_append hnew hafter
  rw [hmade]
  refine ⟨hafter, ?_⟩
  have hone : made.length ≤ 1 := calc
    made.length ≤ (calls.filterMap StoreRequest.takes?).count .revision := hcount
    _ ≤ kinds.count .revision := hsub.count_le _
    _ ≤ 1 := List.nodup_iff_count_le_one.1 hkinds _
  cases made with
  | nil => exact List.nil_sublist _
  | cons r more =>
      obtain rfl : more = [] := List.eq_nil_of_length_eq_zero (Nat.le_zero.1 (Nat.le_of_succ_le_succ hone))
      obtain ⟨htenant, hstamp⟩ := hstamps r List.mem_cons_self
      have hfilter : [e].filter (·.session.tenant = tenant) = [e] :=
        List.filter_eq_self.2 fun d hd => decide_eq_true (List.mem_singleton.1 hd ▸ htenant)
      rw [hfilter, List.map_singleton, List.map_singleton, hstamp]
      exact List.Sublist.refl _

theorem Older.perform (hclock : ClockGrows (e :: history))
    (h : Older tenant item version s (e :: history)) :
    Older tenant item version s [e] ∧ Older tenant item version (memory.perform s e).2 history := by
  have hfirst : Older tenant item version s [e] := by
    intro r hr d hd
    rw [List.mem_singleton.1 hd]
    exact h r hr e List.mem_cons_self
  refine ⟨hfirst, fun r hr d hd => ?_⟩
  obtain ⟨hafter, hstamps⟩ := published_perform hfirst
  have hmade : ∀ x ∈ published tenant item version s (memory.perform s e).2, x.time = e.fresh.clock.publish := by
    intro x hx
    obtain ⟨d, hd, hstamp⟩ := List.mem_map.1 (hstamps.subset (List.mem_map_of_mem hx))
    rw [List.mem_singleton.1 (List.mem_filter.1 hd).1] at hstamp
    exact congrArg (·.2.1) hstamp.symm
  have hnew : r ∈ published tenant item version s (memory.perform s e).2 → r.time < d.fresh.clock.publish := by
    intro hx
    rw [hmade r hx]
    exact ((List.pairwise_cons.1 hclock).1 d hd).publish
  rcases hafter with hafter | hafter
  · rw [hafter] at hr
    rcases List.mem_append.1 hr with hold | hx
    · exact h r hold d (List.mem_cons_of_mem _ hd)
    · exact hnew hx
  · rw [hafter] at hr
    exact hnew hr

/-- A publication that succeeds is one of the store, whether the engine is asked for it or the store. -/
theorem perform_publish {message : String} (he : e.request.publishes? = some (item, version, message))
    (hok : (memory.perform s e).1.isOk = true) :
    Store.publish e.fresh.revision e.fresh.clock.publish e.session item version message s
      = .ok () (memory.perform s e).2 := by
  obtain ⟨f, session, request⟩ := e
  let publish := Store.publish f.revision f.clock.publish session item version message
  cases request with
  | checkHealth => cases he
  | store r =>
      cases r <;> cases he
      obtain ⟨u, hpublish⟩ := Reply.ok_of_store (x := publish) hok
      have hstate : (memory.perform s ⟨f, session, .store (.publish item version message)⟩).2
          = stateOf (publish s) := stateOf_map _ publish s
      rw [hstate]
      exact hpublish
  | engine naming r =>
      cases r <;> cases he
      obtain ⟨u, hcall⟩ := Reply.ok_of_engine (x := Call.ofStore publish) hok
      have hstate : (memory.perform s ⟨f, session, .engine naming (.publish item version message)⟩).2
          = stateOf (publish s) := (stateOf_map _ (Call.ofStore publish) s).trans (Call.stateOf_ofStore publish s)
      rw [hstate]
      cases hpublish : publish s with
      | ok u s' => exact hpublish
      | error error s' =>
          rw [Call.ofStore_error hpublish] at hcall
          cases hcall

/-- What an operation publishes that is asked to, succeeds, and finds a copy that was edited or is new. -/
theorem published_of_publish {message : String} {c : WorkingCopy}
    (hclock : Older e.session.tenant item version s [e])
    (he : e.request.publishes? = some (item, version, message))
    (hcopy : (s.shelf e.session.tenant item).copy? e.session.user version = some c)
    (hedits : c.dirty = true ∨ c.synced = none) (hok : (memory.perform s e).1.isOk = true) :
    published e.session.tenant item version s (memory.perform s e).2
      = [⟨e.fresh.revision, message, e.fresh.clock.publish, e.session.user⟩] := by
  obtain ⟨after, hshelf, hs'⟩ := Store.exists_of_onShelf (perform_publish he hok)
  have hentries := Shelf.entries_of_publish hcopy hedits hshelf
  have hrevisions : (memory.perform s e).2.revisions e.session.tenant item version
      = s.revisions e.session.tenant item version
        ++ [⟨e.fresh.revision, message, e.fresh.clock.publish, e.session.user⟩] := by
    rw [hs', Store.revisions, Store.shelf_putShelf_self]
    change (after.entries version).map (·.revision) = _
    rw [hentries, List.map_append]
    rfl
  refine published_of_append (fun r hr hold => ?_) (.inl hrevisions)
  have hlt := hclock r hold e List.mem_cons_self
  rw [List.mem_singleton.1 hr] at hlt
  exact Int.lt_irrefl _ hlt

theorem publications_append (s : Store) (earlier later : List (Event Operation)) :
    publications tenant item version s (earlier ++ later) = publications tenant item version s earlier
      ++ publications tenant item version (memory.after s earlier) later := by
  induction earlier generalizing s with
  | nil => rfl
  | cons e earlier ih =>
      rw [List.cons_append, publications, publications, ih, List.append_assoc]
      rfl

/-- What an operation of a history publishes is published by the history. -/
theorem published_subset (s : Store) (earlier later : List (Event Operation)) (e : Event Operation) :
    published tenant item version (memory.after s earlier)
        (memory.perform (memory.after s earlier) e).2
      ⊆ publications tenant item version s (earlier ++ e :: later) := by
  intro r hr
  rw [publications_append, publications]
  exact List.mem_append_right _ (List.mem_append_left _ hr)

theorem Older.after {earlier later : List (Event Operation)} (hclock : ClockGrows (earlier ++ later))
    (h : Older tenant item version s (earlier ++ later)) :
    Older tenant item version (memory.after s earlier) later := by
  induction earlier generalizing s with
  | nil => exact h
  | cons e earlier ih => exact ih (List.pairwise_cons.1 hclock).2 (h.perform hclock).2

/-- **A history publishes in the order of its operations**, and what is there in the end is in the order of its
publication. -/
theorem publications_sublist (hclock : ClockGrows history) (h : Older tenant item version s history) :
    ((publications tenant item version s history).map Revision.stamp).Sublist
        ((history.filter (·.session.tenant = tenant)).map Event.stamp) ∧
      ((memory.after s history).revisions tenant item version).Sublist
        (s.revisions tenant item version ++ publications tenant item version s history) := by
  induction history generalizing s with
  | nil => exact ⟨List.nil_sublist _, List.sublist_append_left _ _⟩
  | cons e history ih =>
      obtain ⟨hfirst, hlater⟩ := h.perform hclock
      obtain ⟨hafter, hstamps⟩ := published_perform hfirst
      obtain ⟨hrest, hkept⟩ := ih (List.pairwise_cons.1 hclock).2 hlater
      constructor
      · rw [publications, List.map_append, ← List.singleton_append, List.filter_append, List.map_append]
        exact hstamps.append hrest
      · rw [publications, ← List.append_assoc]
        refine hkept.trans (List.Sublist.append_right ?_ _)
        rcases hafter with hafter | hafter
        · exact hafter ▸ List.Sublist.refl _
        · exact hafter ▸ List.sublist_append_right _ _

/-- An item that was there and is there in the end is there all the time, since nobody is supplied its id
again. -/
theorem item_perform {past : List Fresh} (hknown : s.KnownIds past) (hfresh : FreshIds (e :: history))
    (hpast : ∀ d ∈ e :: history, ∀ g ∈ past, g.Apart d.fresh) {x z : Item}
    (hz : s.item? tenant item = some z)
    (hx : (memory.after s (e :: history)).item? tenant item = some x) :
    ∃ y, (memory.perform s e).2.item? tenant item = some y := by
  cases hy : (memory.perform s e).2.item? tenant item with
  | some y => exact ⟨y, rfl⟩
  | none =>
      obtain ⟨g, hg, hid⟩ := hknown.item hz
      obtain ⟨hlater, hpast'⟩ := hfresh.tail hpast
      obtain ⟨calls, -, hapart, hcalls⟩ := exists_calls hlater hpast' (memory.perform s e).2
      have hgone : ((memory.perform s e).2.after calls).item? tenant item = none :=
        Store.item?_after_of_gone hid (fun c hc => hapart c hc g (List.mem_append_left _ hg)) hy
      rw [← hcalls] at hgone
      exact absurd (hgone.symm.trans hx) (by simp)

/-- A version of an item that is there in the end keeps its revisions. -/
theorem revisions_subset {past : List Fresh} (hknown : s.KnownIds past) (hfresh : FreshIds (e :: history))
    (hpast : ∀ d ∈ e :: history, ∀ g ∈ past, g.Apart d.fresh) {x : Item}
    (hx : (memory.after s (e :: history)).item? tenant item = some x) :
    s.revisions tenant item version ⊆ (memory.perform s e).2.revisions tenant item version := by
  cases hz : s.item? tenant item with
  | none =>
      rw [Store.revisions, hknown.missing hz]
      exact List.nil_subset _
  | some z =>
      obtain ⟨y, hy⟩ := item_perform hknown hfresh hpast hz hx
      have hsingle : FreshIds [e] := List.pairwise_singleton _ _
      obtain ⟨calls, hcalls, hapart, hafter⟩ :=
        exists_calls hsingle (fun d hd => hpast d (List.mem_singleton.1 hd ▸ List.mem_cons_self)) s
      have hperform : (memory.perform s e).2 = s.after calls := hafter
      rw [hperform] at hy ⊢
      exact ((Store.entries_prefix_after hknown hcalls hapart hy).map (·.revision)).subset

/-- **While the item is there, all that was published of a version is.** -/
theorem revisions_after {past : List Fresh} (hknown : s.KnownIds past) (hfresh : FreshIds history)
    (hpast : ∀ e ∈ history, ∀ g ∈ past, g.Apart e.fresh) (hclock : ClockGrows history)
    (h : Older tenant item version s history) {x : Item}
    (hx : (memory.after s history).item? tenant item = some x) :
    (memory.after s history).revisions tenant item version
      = s.revisions tenant item version ++ publications tenant item version s history := by
  induction history generalizing s past with
  | nil => exact (List.append_nil _).symm
  | cons e history ih =>
      obtain ⟨hlater, hpast'⟩ := hfresh.tail hpast
      obtain ⟨hfirst, hrest⟩ := h.perform hclock
      have hnext : (memory.perform s e).2.revisions tenant item version = s.revisions tenant item version
          ++ published tenant item version s (memory.perform s e).2 := by
        rcases (published_perform hfirst).1 with hkept | hgone
        · exact hkept
        · -- what is new was not there, so if only that is there then nothing was
          have hnone : s.revisions tenant item version = [] := by
            refine List.eq_nil_iff_forall_not_mem.2 fun r hr => ?_
            have hr' := revisions_subset hknown hfresh hpast hx hr
            rw [hgone] at hr'
            exact absurd hr (by simpa using (List.mem_filter.1 hr').2)
          rw [hnone, List.nil_append]
          exact hgone
      rw [publications, ← List.append_assoc, ← hnext]
      exact ih (knownIds_perform hknown e) hlater hpast' (List.pairwise_cons.1 hclock).2 hrest hx

/-! ### What is listed -/

/-- Revisions are published at later and later times. -/
theorem publications_pairwise (hclock : ClockGrows history) (h : Older tenant item version s history) :
    (publications tenant item version s history).Pairwise fun a b => a.time < b.time := by
  have hoperations : ((history.filter (·.session.tenant = tenant)).map Event.stamp).Pairwise
      fun a b => a.2.1 < b.2.1 :=
    List.pairwise_map.2 ((hclock.imp fun hbefore => hbefore.publish).sublist List.filter_sublist)
  have hstamps : ((publications tenant item version s history).map Revision.stamp).Pairwise
      fun a b => a.2.1 < b.2.1 :=
    hoperations.sublist (publications_sublist hclock h).1
  rw [List.pairwise_map] at hstamps
  exact hstamps

/-- The engine's forced synchronization takes over what was published last. -/
theorem perform_forceSync {session : Session} {x : Item} (hx : s.item? session.tenant item = some x)
    {r : Revision} (hr : (s.revisions session.tenant item version).getLast? = some r) (f : Fresh)
    (naming : Calculator) :
    let forced := memory.perform s ⟨f, session, .engine naming (.forceSync item version)⟩
    forced.1 = .engine (.ok .done) ∧
      ∃ c, (forced.2.shelf session.tenant item).copy? session.user version = some c ∧
        c.synced = some r.id := by
  obtain ⟨s', c, hforce, hc, hsynced⟩ := Store.forceSync_of_revisions hx hr
  have hrun : (Request.forceSync item version).run (Memory.backend f) naming session s = .ok .done s' :=
    map_eq_ok.2 ⟨(), Call.ofStore_ok hforce, rfl⟩
  have hperform : memory.perform s ⟨f, session, .engine naming (.forceSync item version)⟩
      = (.engine (.ok .done), s') :=
    Prod.ext (congrArg (Reply.engine ∘ answerOf) hrun) (congrArg stateOf hrun)
  rw [hperform]
  exact ⟨rfl, c, hc, hsynced⟩

/-- **Revisions are listed in the reverse order of their publication.** Take any history of operations of any
users of any tenants during which the clock grows, and any version.

* Of any list of revisions the sort has the same ones, their times fall, and those of one time keep their order.
* The history publishes the version's revisions one at a time: their ids, times and users are those of
  operations of the tenant, in the order of these operations. Whoever publishes a copy that was edited or is
  new, and is told of a success, has published one of them.
* What the store keeps of them is in this order; while the item is there it keeps all, and otherwise none.
* What the engine lists to any user of the tenant is what is kept, backwards, and the listing changes nothing.
* A forced synchronization that follows makes the first entry the one that the user's copy stands on. -/
theorem revisions_listed_latest_first {history : List (Event Operation)} (hclock : ClockGrows history)
    (session : Session) (item version : String) :
    let tenant := session.tenant
    let last := memory.after .empty history
    let all := publications tenant item version .empty history
    let kept := last.revisions tenant item version
    (∀ rs, Revision.IsLatestFirst rs (Revision.latestFirst rs)) ∧
    (all.map Revision.stamp).Sublist ((history.filter (·.session.tenant = tenant)).map Event.stamp) ∧
    (∀ earlier later e message c, history = earlier ++ e :: later → e.session.tenant = tenant →
      e.request.publishes? = some (item, version, message) →
      ((memory.after .empty earlier).shelf tenant item).copy? e.session.user version = some c →
      c.dirty = true ∨ c.synced = none →
      (memory.perform (memory.after .empty earlier) e).1.isOk = true →
        ⟨e.fresh.revision, message, e.fresh.clock.publish, e.session.user⟩ ∈ all) ∧
    (kept.Sublist all ∧ (last.item? tenant item = none → kept = []) ∧
      (FreshIds history → (last.item? tenant item).isSome = true → kept = all)) ∧
    ∀ f naming,
      memory.perform last ⟨f, session, .engine naming (.listRevisions item version)⟩
        = (.engine (.ok (.revisions kept.reverse)), last) ∧
      ∀ r, kept.reverse.head? = some r →
        let forced := memory.perform last ⟨f, session, .engine naming (.forceSync item version)⟩
        forced.1 = .engine (.ok .done) ∧
          ∃ c, (forced.2.shelf tenant item).copy? session.user version = some c ∧ c.synced = some r.id := by
  intro tenant last all kept
  have holder : Older tenant item version .empty history := fun r hr => absurd hr (by simp)
  have hknown : last.KnownIds (history.map (·.fresh)) := knownIds_after history
  obtain ⟨hstamps, hkept⟩ := publications_sublist hclock holder
  have hmissing : last.item? tenant item = none → kept = [] := by
    intro hnone
    change (last.shelf tenant item).revisions version = []
    rw [hknown.missing hnone]
    rfl
  refine ⟨Revision.isLatestFirst_latestFirst, hstamps,
    fun earlier later e message c hsplit htenant he hcopy hedits hok => ?_,
    ⟨hkept, hmissing, fun hfresh hitem => ?_⟩, fun f naming => ⟨?_, fun r hr => ?_⟩⟩
  · rw [hsplit] at hclock holder
    rw [← htenant] at hcopy holder
    have hthen := (holder.after hclock).perform (List.pairwise_append.1 hclock).2.1
    have hone := published_of_publish hthen.1 he hcopy hedits hok
    have hmem : ⟨e.fresh.revision, message, e.fresh.clock.publish, e.session.user⟩
        ∈ publications e.session.tenant item version .empty (earlier ++ e :: later) :=
      published_subset .empty earlier later e (hone ▸ List.mem_cons_self)
    rwa [htenant, ← hsplit] at hmem
  · obtain ⟨x, hx⟩ := Option.isSome_iff_exists.1 hitem
    have hnone : ∀ e ∈ history, ∀ g ∈ ([] : List Fresh), g.Apart e.fresh := by simp
    exact revisions_after .empty hfresh hnone hclock holder hx
  · have hsorted : Revision.latestFirst kept = kept.reverse :=
      Revision.latestFirst_eq_reverse ((publications_pairwise hclock holder).sublist hkept)
    rw [← hsorted]
    rfl
  · have hlast : kept.getLast? = some r := by rwa [List.head?_reverse] at hr
    cases hx : last.item? tenant item with
    | none =>
        rw [hmissing hx] at hlast
        exact absurd hlast (by simp)
    | some x =>
        exact perform_forceSync hx hlast f naming

/-- A version is made and certified, another one is made from it, and then the first one is edited. -/
def editedAgain : List (Event Operation) :=
  Store.derivation.map (fun e => ⟨e.fresh, e.session, .engine .standard e.request⟩) ++
    [⟨⟨"i5", "v5", "r5", Store.afterNoon 5⟩, ⟨"alice", "acme"⟩,
      .engine .standard (.updateVersion "i1" "v2" Version.blank)⟩]

/-- The edit is published. -/
def thirdPublication : Event Operation :=
  ⟨⟨"i6", "v6", "r6", Store.afterNoon 6⟩, ⟨"alice", "acme"⟩, .store (.publish "i1" "v2" "again")⟩

/-- Of three publications the last is listed first, and is what another user's copy comes to stand on. -/
theorem third_publication_listed_first :
    let history := editedAgain ++ [thirdPublication]
    let last := memory.after .empty history
    let creation : Revision := ⟨"r2", "Create version: 1.0", Store.afterNoon 2, "alice"⟩
    let certification : Revision := ⟨"r3", "done", Store.afterNoon 3, "alice"⟩
    let third : Revision := ⟨"r6", "again", Store.afterNoon 6, "alice"⟩
    ClockGrows history ∧ FreshIds history ∧
      (memory.perform (memory.after .empty editedAgain) thirdPublication).1.isOk = true ∧
      third ∈ publications "acme" "i1" "v2" .empty history ∧
      publications "acme" "i1" "v2" .empty history = [creation, certification, third] ∧
      ∀ f naming,
        (memory.perform last ⟨f, ⟨"bob", "acme"⟩, .engine naming (.listRevisions "i1" "v2")⟩).1
          = .engine (.ok (.revisions [third, certification, creation])) ∧
        let forced := memory.perform last ⟨f, ⟨"bob", "acme"⟩, .engine naming (.forceSync "i1" "v2")⟩
        ∃ c, (forced.2.shelf "acme" "i1").copy? "bob" "v2" = some c ∧ c.synced = some "r6" := by
  intro history last creation certification third
  have hclock : ClockGrows history := by decide
  have hfresh : FreshIds history := by decide
  have hok : (memory.perform (memory.after .empty editedAgain) thirdPublication).1.isOk = true := by
    decide +kernel
  obtain ⟨-, -, hpublished, ⟨-, -, hall⟩, hlisted⟩ :=
    revisions_listed_latest_first hclock ⟨"bob", "acme"⟩ "i1" "v2"
  obtain ⟨c, hcopy, hdirty⟩ : ∃ c, ((memory.after .empty editedAgain).shelf "acme" "i1").copy?
      "alice" "v2" = some c ∧ c.dirty = true := by
    have hdirty : (((memory.after .empty editedAgain).shelf "acme" "i1").copy? "alice" "v2").map
        (·.dirty) = some true := by decide +kernel
    exact Option.map_eq_some_iff.1 hdirty
  have hkept : last.revisions "acme" "i1" "v2" = [creation, certification, third] := by decide +kernel
  refine ⟨hclock, hfresh, hok, ?_, ?_, fun f naming => ?_⟩
  · exact hpublished editedAgain [] thirdPublication "again" c rfl rfl rfl hcopy (.inl hdirty) hok
  · rw [← hall hfresh (by decide +kernel), hkept]
  · obtain ⟨hlist, hforced⟩ := hlisted f naming
    rw [hkept] at hlist hforced
    exact ⟨congrArg Prod.fst hlist, (hforced _ rfl).2⟩

end Platform

end VersionCatalog
