import VersionCatalog.Proofs.Serving

/-!
# The tally of an item

An item's tally is kept up by the two requests that make a version or change its status, each of which adds
to it by hand what it does. Whether it still says how many versions have each status depends on all other
requests too: each publication of any user's copy makes a new head.

A publication leaves the head's status alone as long as no copy that was made from the head has another
status. Only a revert can break that, so the tally is right in every run whose reverts restore the status
that the head has.

## Main results

* `Tally.Counts.add`, `Tally.Counts.remove`: one version more or less, short of the greatest word.
* `Shelf.countP_heads_published`: a publication exchanges at most one head for another.
* `Holding.Counted.move`: every move keeps the tally right.
* `Store.tally_counts_heads`: the tally is right after every history.
-/

namespace VersionCatalog

/-! ### Tallies -/

namespace Tally

/-- A tally says how many there are of each status, and has no entry where there is none. -/
def Counts (t : Tally) (n : VersionStatus → Nat) : Prop :=
  ∀ status, t.count status = n status ∧ (t.get? status = none ↔ n status = 0)

namespace Counts

variable {t : Tally} {n : VersionStatus → Nat} {s : VersionStatus}

theorem empty : Counts ∅ fun _ => 0 := by
  intro status
  cases status <;> exact ⟨rfl, by simp; rfl⟩

theorem of_eq {m : VersionStatus → Nat} (h : t.Counts n) (hm : ∀ status, n status = m status) :
    t.Counts m := by
  intro status
  rw [← hm]
  exact h status

/-- One more of a status. -/
theorem add (h : t.Counts n) (hlt : n s + 1 < UInt32.size) :
    (t.add s).Counts fun status => if status = s then n s + 1 else n status := by
  intro status
  rw [Tally.add, count]
  dsimp only
  split
  · rename_i hs
    subst hs
    have hcount := (h status).1
    rw [count] at hcount
    rw [get?_set_self, Option.getD_some]
    refine ⟨?_, by simp⟩
    rw [UInt32.toNat_add, hcount]
    simp only [UInt32.reduceToNat, UInt32.size] at hlt ⊢
    omega
  · rename_i hs
    rw [get?_set_of_ne hs]
    exact h status

/-- One less of a status that there is one of. -/
theorem remove (h : t.Counts n) (hpos : n s ≠ 0) :
    (t.remove s).Counts fun status => if status = s then n s - 1 else n status := by
  obtain ⟨hcount, hnone⟩ := h s
  rw [count] at hcount
  cases hget : t.get? s with
  | none => exact absurd (hnone.1 hget) hpos
  | some m =>
      rw [hget, Option.getD_some] at hcount
      have hremove : t.remove s = t.set s (if m ≤ 1 then none else some (m - 1)) := by
        rw [Tally.remove, hget]
      intro status
      rw [hremove, count]
      dsimp only
      by_cases hs : status = s
      · subst hs
        rw [if_pos rfl, get?_set_self]
        by_cases hm : m ≤ 1
        · rw [if_pos hm]
          rw [UInt32.le_iff_toNat_le] at hm
          simp only [UInt32.reduceToNat] at hm
          refine ⟨?_, by simp; omega⟩
          change 0 = _
          omega
        · rw [if_neg hm, Option.getD_some, UInt32.toNat_sub_of_le]
          · rw [UInt32.le_iff_toNat_le] at hm
            simp only [UInt32.reduceToNat] at hm ⊢
            exact ⟨by rw [hcount], by simp; omega⟩
          · rw [UInt32.le_iff_toNat_le] at hm ⊢
            omega
      · rw [if_neg hs, get?_set_of_ne hs]
        exact h status

end Counts

end Tally

/-! ### Heads -/

namespace Shelf

variable {s s' : Shelf} {f : Fresh} {user version message : String} {content : Content}

/-- How many versions are shared with a status. -/
def count (s : Shelf) (status : VersionStatus) : Nat :=
  s.heads.countP fun e => e.content.status = status

/-- Counting heads is counting the shared copies that have such a head. -/
theorem countP_heads (p : Entry → Bool) (s : Shelf) :
    s.heads.countP p = s.shared.values.countP fun shared => (shared.head?.map p).getD false := by
  rw [heads, List.countP_filterMap]

variable (s : Shelf) (f : Fresh) (user version message : String) (content : Content)

/-- **A publication exchanges the head that a version had, if it had one, for the new one.** -/
theorem countP_heads_published (p : Entry → Bool) :
    (s.published f user version message content).heads.countP p
        + (s.head? version).toList.countP p
      = s.heads.countP p
        + [(⟨⟨f.revision, message, f.clock.publish, user⟩, content⟩ : Entry)].countP p := by
  let e : Entry := ⟨⟨f.revision, message, f.clock.publish, user⟩, content⟩
  have hexchange := Keyed.countP_values_insert
    (fun shared : SharedCopy => (shared.head?.map p).getD false) s.shared version
      ⟨s.entries version ++ [e]⟩
  have hnew : SharedCopy.head? ⟨s.entries version ++ [e]⟩ = some e := List.getLast?_concat
  have hold : (s.shared.get? version).toList.countP
      (fun shared => (shared.head?.map p).getD false) = (s.head? version).toList.countP p := by
    rw [head?]
    cases s.shared.get? version with
    | none => rfl
    | some shared =>
        simp only [Option.toList_some, Option.bind_some, List.countP_singleton]
        cases shared.head? <;> simp
  rw [countP_heads, countP_heads, ← hold]
  simp only [List.countP_singleton, hnew] at hexchange ⊢
  exact hexchange

/-- A publication adds a version if it is the first one of it. -/
theorem length_heads_published :
    (s.published f user version message content).heads.length + (s.head? version).toList.length
      = s.heads.length + 1 := by
  have hexchange := s.countP_heads_published f user version message content fun _ => true
  simpa only [List.countP_true, List.length_singleton] using hexchange

theorem count_published (status : VersionStatus) :
    (s.published f user version message content).count status
        + (s.head? version).toList.countP (fun e => e.content.status = status)
      = s.count status + if content.status = status then 1 else 0 := by
  have hexchange := s.countP_heads_published f user version message content
    fun e => e.content.status = status
  simp only [List.countP_singleton, decide_eq_true_eq] at hexchange
  exact hexchange

theorem count_le (status : VersionStatus) : s.count status ≤ s.heads.length :=
  List.countP_le_length

end Shelf

/-! ### Counted items -/

namespace Holding

/-- An item's tally counts the heads of its versions, if they are not too many for a word. -/
def Counted (h : Holding) : Prop :=
  ∀ x, h.item = some x → h.shelf.heads.length < UInt32.size → x.tally.Counts h.shelf.count

namespace Counted

variable {h h' : Holding} {f : Fresh} {user version message : String} {content : Content}
  {s s' : Shelf} {x y : Option Item}

/-- The tally stays right where it stays, and the counts do. -/
theorem congr (h : Counted ⟨x, s⟩) (htally : y.map (·.tally) = x.map (·.tally))
    (hcount : s'.count = s.count) (hlength : s.heads.length ≤ s'.heads.length) :
    Counted ⟨y, s'⟩ := by
  intro i hi hlt
  obtain rfl : y = some i := hi
  obtain ⟨j, rfl, hj⟩ := Option.map_eq_some_iff.1 htally.symm
  have hcounts : j.tally.Counts s.count := h j rfl (Nat.lt_of_le_of_lt hlength hlt)
  have hsame : i.tally = j.tally := hj.symm
  change i.tally.Counts s'.count
  rw [hcount, hsame]
  exact hcounts

/-- **A move keeps the tally right**, where copies made from the head have its status. -/
theorem move (hcounted : h.Counted) (hsound : h.shelf.Sound (· = ·))
    (hmove : Move (· = ·) f user h h') : h'.Counted := by
  cases hmove with
  | idle halike =>
      refine hcounted.congr rfl ?_ (Nat.le_of_eq (by rw [halike.heads]))
      funext status
      rw [Shelf.count, Shelf.count, halike.heads]
  | describe htally => exact hcounted.congr (by simp [htally]) rfl (Nat.le_refl _)
  | take | merge | edit => exact hcounted.congr rfl rfl (Nat.le_refl _)
  | drop =>
      refine hcounted.congr rfl ?_ (Nat.le_of_eq (by rw [Shelf.heads_dropCopy]))
      funext status
      rw [Shelf.count, Shelf.count, Shelf.heads_dropCopy]
  | @publish x s version message c e hcopy hhead hcurrent hnew =>
      have hstatus : e.content.status = c.content.status := hsound.steady hcopy hhead hcurrent
      have hlength := s.length_heads_published f user version message c.content
      rw [hhead, Option.toList_some, List.length_singleton] at hlength
      refine hcounted.congr rfl ?_ (by omega)
      funext status
      have hcount := s.count_published f user version message c.content status
      rw [hhead, Option.toList_some, List.countP_singleton, hstatus] at hcount
      simpa using hcount
  | @certify x y s version message c e content hcopy hhead hcurrent hnew horigin hdraft hcertified
      htally =>
      -- one draft less, one certified version more
      have hlength := s.length_heads_published f user version message content
      have hcount := s.count_published f user version message content
      simp only [hhead, Option.toList_some, List.length_singleton, List.countP_singleton, hdraft,
        hcertified, decide_eq_true_eq] at hlength hcount
      have hdrafts := hcount .draft
      have hcertifieds := hcount .certified
      simp only [if_true, reduceCtorEq, if_false] at hdrafts hcertifieds
      intro y' hy hlt
      obtain rfl : y = y' := Option.some.inj hy
      change (s.published f user version message content).heads.length < UInt32.size at hlt
      have hbound := (s.published f user version message content).count_le .certified
      have hadded := (hcounted x rfl (by change s.heads.length < _; omega)).add
        (s := .certified) (by change s.count .certified + 1 < _; omega)
      have hremoved := hadded.remove (s := .draft) (by simp; omega)
      rw [htally]
      refine hremoved.of_eq fun status => ?_
      cases status with
      | draft =>
          change s.count .draft - 1 = (s.published f user version message content).count .draft
          omega
      | certified =>
          change s.count .certified + 1
            = (s.published f user version message content).count .certified
          omega
  | @create x y s message content hid hdraft hname hhead hcopy htally =>
      have hlength := s.length_heads_published f user f.version message content
      have hcount := s.count_published f user f.version message content
      simp only [hhead, Option.toList_none, List.length_nil, List.countP_nil, hdraft]
        at hlength hcount
      intro y' hy hlt
      obtain rfl : y = y' := Option.some.inj hy
      change (s.published f user f.version message content).heads.length < UInt32.size at hlt
      have hbound := s.count_le .draft
      have hadded := (hcounted x rfl (by change s.heads.length < _; omega)).add
        (s := .draft) (by change s.count .draft + 1 < _; omega)
      rw [htally]
      refine hadded.of_eq fun status => ?_
      have hstatus := hcount status
      cases status with
      | draft => exact hstatus.symm
      | certified => exact hstatus.symm

/-- Moves keep the tally right. -/
theorem moves (hcounted : h.Counted) (hsound : h.shelf.Sound (· = ·))
    (hmoves : Relation.ReflTransGen (Move (· = ·) f user) h h') :
    h'.Counted ∧ h'.shelf.Sound (· = ·) := by
  induction hmoves with
  | refl => exact ⟨hcounted, hsound⟩
  | tail _ hmove ih =>
      obtain ⟨hcounted, hsound⟩ := ih
      exact ⟨hcounted.move hsound hmove, hsound.move (fun _ => rfl) hmove⟩

/-- What a request makes of an item with the right tally has the right tally. -/
theorem change (hcounted : h.Counted) (hsound : h.shelf.Sound (· = ·))
    (hchange : Change (· = ·) f user h h') : h'.Counted := by
  cases hchange with
  | moves hmoves => exact (hcounted.moves hsound hmoves).1
  | make htally =>
      rintro x ⟨⟩ -
      rw [htally]
      exact Tally.Counts.empty.of_eq fun _ => rfl
  | delete =>
      rintro x ⟨⟩

end Counted

end Holding

/-! ### Histories -/

namespace Store

variable {naming : Calculator} {history : List (Event Request)}

/-- The tallies stay right through a history whose reverts restore the head's status. -/
theorem counted_afterServing {past : List Fresh} {s : Store} (h : s.Orderly (· = ·) past)
    (hcounted : ∀ tenant item, (s.holding tenant item).Counted) (hfresh : FreshIds history)
    (hpast : ∀ e ∈ history, ∀ f ∈ past, f.Apart e.fresh)
    (hreverts : s.Throughout naming (Restores naming (· = ·)) history) (tenant item : String) :
    ((s.afterServing naming history).holding tenant item).Counted := by
  induction history generalizing s past with
  | nil => exact hcounted tenant item
  | cons e history ih =>
      obtain ⟨htail, hpast'⟩ := hfresh.tail hpast
      obtain ⟨hrevert, hreverts⟩ := hreverts
      have hnew := hpast e List.mem_cons_self
      have hallowed := hrevert.allowed h.known
      refine ih (h.serve (fun _ => rfl) hnew hallowed naming) ?_ htail hpast' hreverts
      intro t i
      exact (hcounted t i).change (h.sound t i)
        (h.changed_serve (fun _ => rfl) hnew hallowed naming t i)

/-- **The tally of an item is right after every history** of requests of any users, failing ones included,
whose successful reverts restore revisions with the status that the head has then. It says of each status
how many shared versions have it, up to the greatest word, and has no entry where there is none. -/
theorem tally_counts_heads (hfresh : FreshIds history)
    (hreverts : Store.empty.Throughout naming (Restores naming (· = ·)) history)
    {tenant item : String} {x : Item}
    (hitem : (Store.empty.afterServing naming history).item? tenant item = some x)
    (hfew : ((Store.empty.afterServing naming history).shelf tenant item).heads.length < UInt32.size) :
    ∀ status,
      let n := ((Store.empty.afterServing naming history).shelf tenant item).heads.countP
        fun e => e.content.status = status
      x.tally.count status = n ∧ (x.tally.get? status = none ↔ n = 0) := by
  have hcounted : ((Store.empty.afterServing naming history).holding tenant item).Counted := by
    have horderly : Store.empty.Orderly (· = ·) [] := .empty
    refine counted_afterServing horderly ?_ hfresh ?_ hreverts tenant item
    · rintro t i x ⟨⟩
    · simp
  exact hcounted x hitem hfew

/-- A version is certified, another one is made from it, and the certified revision is restored and
published again. -/
def restoredAsCertified : List (Event Request) :=
  [⟨⟨"i1", "v1", "r1", noon⟩, ⟨"alice", "acme"⟩, .createItem Item.blank⟩,
    ⟨⟨"i2", "v2", "r2", noon⟩, ⟨"alice", "acme"⟩, .createVersion "i1" none Version.blank .major⟩,
    ⟨⟨"i3", "v3", "r3", noon⟩, ⟨"alice", "acme"⟩, .setVersionStatus "i1" "v2" .certified "done"⟩,
    ⟨⟨"i4", "v4", "r4", noon⟩, ⟨"bob", "acme"⟩,
      .createVersion "i1" (some "v2") Version.blank .minor⟩,
    ⟨⟨"i5", "v5", "r5", noon⟩, ⟨"alice", "acme"⟩, .revert "i1" "v2" "r3"⟩,
    ⟨⟨"i6", "v6", "r6", noon⟩, ⟨"alice", "acme"⟩, .publish "i1" "v2" "again"⟩]

/-- The tally of that item says that one version is a draft and one is certified. -/
theorem tally_of_restoredAsCertified :
    let last := Store.empty.afterServing .standard restoredAsCertified
    FreshIds restoredAsCertified ∧
      Store.empty.Throughout .standard (Restores .standard (· = ·)) restoredAsCertified ∧
      (last.shelf "acme" "i1").heads.length < UInt32.size ∧
      ∃ x, last.item? "acme" "i1" = some x ∧
        x.tally.count .draft = 1 ∧ x.tally.count .certified = 1 := by
  intro last
  have hfresh : FreshIds restoredAsCertified := by decide
  have hreverts : Store.empty.Throughout .standard (Restores .standard (· = ·))
      restoredAsCertified := by
    refine ⟨?_, ?_, ?_, ?_, ?_, ?_, trivial⟩
    case refine_5 =>
      rintro item version revision ⟨⟩ -
      intro r head hr hhead
      -- the head is the revision that is restored
      have hsame : (((Store.empty.afterServing .standard (restoredAsCertified.take 4)).shelf "acme"
          "i1").restored? "v2" "r3").map (·.content.status) = some .certified := by decide +kernel
      have hstatus : (((Store.empty.afterServing .standard (restoredAsCertified.take 4)).shelf "acme"
          "i1").head? "v2").map (·.content.status) = some .certified := by decide +kernel
      obtain ⟨r', hr', hcertified⟩ := Option.map_eq_some_iff.1 hsame
      obtain ⟨head', hhead', hcertified'⟩ := Option.map_eq_some_iff.1 hstatus
      obtain rfl := Option.some.inj (hr.symm.trans hr')
      obtain rfl := Option.some.inj (hhead.symm.trans hhead')
      exact hcertified'.trans hcertified.symm
    all_goals
      rintro item version revision ⟨⟩
  have hfew : (last.shelf "acme" "i1").heads.length < UInt32.size := by decide +kernel
  obtain ⟨x, hx⟩ : ∃ x, last.item? "acme" "i1" = some x :=
    Option.isSome_iff_exists.1 (by decide +kernel)
  have hcounts := tally_counts_heads hfresh hreverts hx hfew
  refine ⟨hfresh, hreverts, hfew, x, hx, (hcounts .draft).1.trans ?_,
    (hcounts .certified).1.trans ?_⟩
  · decide +kernel
  · decide +kernel

end Store

end VersionCatalog
