import VersionCatalog.Proofs.Creation
import VersionCatalog.Proofs.Stranded

/-!
# Changing a status

To change a version's status the engine reads it for the caller, edits the caller's copy, publishes it, and
counts. The edit comes before the publication that may be refused. So a request that fails may leave an edited
copy behind, with the new status in it, but nothing that is shared changes; and if it is the publication that
was refused, the copy is stranded, so the new status never gets out.

## Main results

* `Store.Orderly.updateStatus_cases`: what comes of changing a status.
* `Store.status_change_all_or_nothing`: the same after every history of requests, and what becomes of the copy
  that is left behind.
-/

namespace VersionCatalog

variable {naming : Calculator} {past : List Fresh} {f : Fresh} {session : Session}
  {item user tenant version message : String} {s s' : Store}

/-! ### Counts as words -/

namespace Tally

variable {status status' : VersionStatus}

theorem get?_remove_of_ne (h : status' ≠ status) (t : Tally) :
    (t.remove status).get? status' = t.get? status' := by
  rw [remove]
  cases t.get? status with
  | none => rfl
  | some n => exact get?_set_of_ne h ..

/-- One less; the last one takes the entry with it. -/
theorem get?_remove_self (t : Tally) (status : VersionStatus) :
    (t.remove status).get? status
      = if t.count status ≤ 1 then none else some (.ofNat (t.count status - 1)) := by
  rw [remove, count]
  cases h : t.get? status with
  | none => exact h
  | some n =>
      dsimp only
      rw [get?_set_self, Option.getD_some]
      have hle : n ≤ 1 ↔ n.toNat ≤ 1 := UInt32.le_iff_toNat_le
      by_cases hn : n ≤ 1
      · rw [if_pos hn, if_pos (hle.1 hn)]
      · rw [if_neg hn, if_neg (mt hle.2 hn)]
        have hone : 1 ≤ n := UInt32.le_iff_toNat_le.2 (Nat.le_of_lt (Nat.lt_of_not_le (mt hle.2 hn)))
        have hword : n - 1 = .ofNat (n.toNat - 1) := by
          rw [← UInt32.toNat_inj, UInt32.toNat_sub_of_le n 1 hone,
            UInt32.toNat_ofNat_of_lt' (Nat.lt_of_le_of_lt (Nat.sub_le ..) n.toNat_lt)]
          rfl
        rw [hword]

theorem count_add_of_ne (h : status' ≠ status) (t : Tally) :
    (t.add status).count status' = t.count status' := by
  rw [count, get?_add_of_ne h, count]

end Tally

/-- An edit of nothing but the status. -/
theorem Shelf.edited_of_get? {s : Shelf} {v : Version} {c : WorkingCopy}
    (hget : s.get? user version = some v) (hc : s.copy? user version = some c)
    {status : VersionStatus} {now : Instant} :
    c.content.edited { v with status := status } now
      = { v.toContent with status := status, modified := some now } := by
  obtain ⟨d, hd, rfl⟩ := Option.map_eq_some_iff.1 hget
  obtain rfl := Option.some.inj (hc.symm.trans hd)
  rfl

namespace Store.Orderly

/-- **What comes of changing a status.** It fails, and what is shared stays; then a refused publication leaves
a stranded copy behind. Or the caller's copy is up to date and a draft, and is published as certified. -/
theorem updateStatus_cases (horderly : s.Orderly anyStatus past) (hconsistent : s.Consistent)
    (hnew : ∀ g ∈ past, g.Apart f) (session : Session) (item version : String)
    (status : VersionStatus) (message : String) :
    let result := Versions.updateStatus (Memory.backend f) session item version status message s
    (∃ error s', result = .error error s' ∧ s.SameShared s' ∧
        ∀ e : StoreError, error = .store e → e.isConflict = true →
          (s'.shelf session.tenant item).Stranded session.user version) ∨
      ∃ v s₁ c e x s', Versions.get (Memory.backend f) session item version s = .ok v s₁ ∧
        v.status = .draft ∧ status = .certified ∧
        (s₁.shelf session.tenant item).copy? session.user version = some c ∧
        (s₁.shelf session.tenant item).head? version = some e ∧ c.syncState (some e) = .upToDate ∧
        s.item? session.tenant item = some x ∧ result = .ok () s' ∧
        s.Adds session.tenant item
          { x with tally := (x.tally.add .certified).remove .draft, modified := some f.clock.updateItem } version
          ⟨⟨f.revision, message, f.clock.publish, session.user⟩,
            { v.toContent with status := .certified, modified := some f.clock.updateVersion }⟩ s' := by
  intro result
  have hreads := Versions.reads hconsistent f session item version
  have hpulled := hreads.pulled_stateOf
  have hread := (horderly.get anyStatus_self hnew session item version).2
  have hresult : result = (Versions.get (Memory.backend f) session item version >>= _) s :=
    congrFun (Versions.updateStatus_eq ..) s
  cases hget : Versions.get (Memory.backend f) session item version s with
  | error error s₁ =>
      rw [hget] at hreads hpulled
      refine .inl ⟨error, s₁, hresult.trans (bind_error hget), hpulled.toSameShared, ?_⟩
      rintro e rfl
      cases hreads
  | ok v s₁ =>
      rw [hget] at hpulled hread
      replace hresult := hresult.trans (bind_ok hget)
      split at hresult
      · refine .inl ⟨_, s₁, hresult, hpulled.toSameShared, ?_⟩
        rintro e ⟨⟩
      · split at hresult
        · refine .inl ⟨_, s₁, hresult, hpulled.toSameShared, ?_⟩
          rintro e ⟨⟩
        · rename_i hforward
          obtain ⟨hdraft, rfl⟩ := VersionStatus.canBecome_iff.1 (by simpa using hforward)
          have hv := Versions.get?_of_get hget
          obtain ⟨c, e, hc, he, -⟩ := (hread.sound session.tenant item).of_get? hv
          obtain ⟨x, hx⟩ := hread.known.item_of_copy hc
          rcases hread.certify_result (f := f) hv hx hc he .certified message with
            ⟨hsync, hok⟩ | ⟨hsync, error, -, herror⟩
          · replace hresult := hresult.trans hok
            rw [hdraft, Shelf.edited_of_get? hv hc, putShelf_putItem] at hresult
            have hid := hread.known.id_of_item hx
            refine .inr ⟨v, s₁, c, e, x, _, rfl, hdraft, rfl, hc, he, hsync,
              (hpulled.item? ..).symm.trans hx, hresult, .of_sameShared hpulled.toSameShared ?_⟩
            exact .published (y := { x with
              tally := (x.tally.add .certified).remove .draft, modified := some f.clock.updateItem }) s₁ hid ..
          · refine .inl ⟨_, _, hresult.trans herror, hpulled.toSameShared.trans (.putCopy ..), ?_⟩
            rintro - - -
            rw [shelf_putShelf_self]
            exact ⟨_, e, Shelf.copy?_putCopy_self .., he, rfl, hsync⟩

/-- The status of a version is not changed from a stranded copy. If the copy is superseded, the engine replaces
it and finds the version certified. -/
theorem updateStatus_of_stranded (horderly : s.Orderly anyStatus past) (hconsistent : s.Consistent)
    (hnew : ∀ g ∈ past, g.Apart f) (status : VersionStatus) (message : String)
    (h : s.item? tenant item = none ∨ (s.shelf tenant item).Stranded user version) :
    ∃ error s', Versions.updateStatus (Memory.backend f) ⟨user, tenant⟩ item version status message s
      = .error error s' := by
  rcases horderly.updateStatus_cases hconsistent hnew ⟨user, tenant⟩ item version status message with
    ⟨error, s', herror, -⟩ | ⟨v, s₁, c, e, x, s', hget, hdraft, -, hc, he, hsync, hx, -⟩
  · exact ⟨error, s', herror⟩
  · have hreads := Versions.reads hconsistent f ⟨user, tenant⟩ item version
    rw [hget] at hreads
    rcases h with hgone | ⟨d, e', hd, he', -, hbehind⟩
    · exact absurd (hx.symm.trans hgone) (by simp)
    · cases hreads with
      | kept =>
          obtain rfl := Option.some.inj (hc.symm.trans hd)
          obtain rfl := Option.some.inj (he.symm.trans he')
          exact absurd hsync hbehind
      | pulled hhead hneeded =>
          rcases hneeded with hnone | ⟨-, e'', -, he'', -, hcertified⟩
          · exact absurd (hd.symm.trans hnone) (by simp)
          · obtain rfl := Option.some.inj (hhead.symm.trans he'')
            exact absurd (hcertified.symm.trans hdraft) (by simp)

end Store.Orderly

/-! ### Changes after a history -/

namespace Store

variable {history : List (Event Request)}

/-- Who has a stranded copy can neither publish it nor change its status. -/
theorem refused_of_stranded (naming : Calculator) {e : Event Request}
    (hfresh : FreshIds (history ++ [e])) (hsession : e.session = ⟨user, tenant⟩)
    (hrequest : (∃ message, e.request = .publish item version message) ∨
      ∃ status message, e.request = .setVersionStatus item version status message)
    (h : (empty.afterServing naming history).item? tenant item = none ∨
      ((empty.afterServing naming history).shelf tenant item).Stranded user version) :
    ∃ error, (empty.afterServing naming history).reply naming e = .error error := by
  rcases hrequest with ⟨message, hrequest⟩ | ⟨status, message, hrequest⟩
  · exact reply_publish_of_stranded naming hsession hrequest h
  · have horderly := orderly_afterServing naming hfresh.left
    have hnew : ∀ g ∈ history.map (·.fresh), g.Apart e.fresh :=
      fun g hg => hfresh.apart List.mem_cons_self hg
    obtain ⟨error, s', herror⟩ := horderly.updateStatus_of_stranded
      (consistent_afterServing naming hfresh.left) hnew status message h
    rw [reply, served, hrequest, Request.run, answerOf_map, hsession, herror]
    exact ⟨error, rfl⟩

/-- **A status is changed as a whole or not at all.** Take any history of requests of any users, failing ones
included, and then a request to change the status of a version, with new ids.

* If it succeeds, one revision is added to the version, by the caller and with the given message: what the
  caller was shown of the version, with the new status and changed now. The item counts one version more of
  the new status (as far as a word goes) and one less of the status that the caller was shown, without an
  entry where none is left. It is changed now, and nothing else is different in any item or in what is shared.
* If it fails, all items and all that is shared are the same as before.
* If it fails with a conflict, then whatever is requested later, the caller can neither publish the version
  nor change its status, until the caller's copy is put away: by a force synchronization, also one that the
  engine makes when it reads the version for the caller, or by a clean. -/
theorem status_change_all_or_nothing (naming : Calculator) (hfresh : FreshIds history) {f : Fresh}
    (hnew : ∀ past ∈ history.map (·.fresh), past.Apart f) (session : Session) (item version : String)
    (status : VersionStatus) (message : String) :
    let s := empty.afterServing naming history
    let change : Event Request := ⟨f, session, .setVersionStatus item version status message⟩
    let result := Versions.updateStatus (Memory.backend f) session item version status message s
    (∀ s', result = .ok () s' → ∃ v s₁ x tally,
      Versions.get (Memory.backend f) session item version s = .ok v s₁ ∧ v.status ≠ status ∧
      s.item? session.tenant item = some x ∧
      tally.get? status = some (.ofNat (x.tally.count status + 1)) ∧
      tally.get? v.status = (if x.tally.count v.status ≤ 1 then none
        else some (.ofNat (x.tally.count v.status - 1))) ∧
      s.Adds session.tenant item { x with tally := tally, modified := some f.clock.updateItem } version
        ⟨⟨f.revision, message, f.clock.publish, session.user⟩,
          { v.toContent with status := status, modified := some f.clock.updateVersion }⟩ s') ∧
    ∀ error s', result = .error error s' → s.SameShared s' ∧
      ∀ conflict : StoreError, error = .store conflict → conflict.isConflict = true →
        ∀ later e, FreshIds (history ++ change :: (later ++ [e])) →
          s'.Throughout naming (fun s d => ¬ Discards session.user session.tenant item version s d) later →
          e.session = session →
          (∃ message, e.request = .publish item version message) ∨
            (∃ status message, e.request = .setVersionStatus item version status message) →
          ∃ error, (s'.afterServing naming later).reply naming e = .error error := by
  have horderly := orderly_afterServing naming hfresh
  have hconsistent := consistent_afterServing naming hfresh
  intro s change result
  rcases horderly.updateStatus_cases hconsistent hnew session item version status message with
    ⟨error, s', hresult, hsame, hconflict⟩ |
      ⟨v, s₁, c, e, x, s', hget, hdraft, rfl, -, -, -, hx, hresult, hadds⟩
  · refine ⟨fun s'' hok => ?_, fun error' s'' herror => ?_⟩
    · cases hresult.symm.trans hok
    · cases hresult.symm.trans herror
      refine ⟨hsame, fun conflict hstore hisconflict later e hall hkeeps hsession hrequest => ?_⟩
      have hserve : s.serve naming change = s' := by
        rw [Store.serve, served, Request.run, stateOf_map]
        exact congrArg stateOf hresult
      have hall' : FreshIds ((history ++ change :: later) ++ [e]) := by simpa using hall
      have hlast : s'.afterServing naming later
          = empty.afterServing naming (history ++ change :: later) := by
        rw [afterServing_append, afterServing_cons, ← hserve]
      obtain ⟨hlater, hpast⟩ := hall'.left.right.tail fun d hd g hg => hall'.left.apart hd hg
      have hknown := horderly.known.serve naming change
      have hconsistent' := hconsistent.serve horderly.known hnew naming (e := change)
      rw [hserve] at hknown hconsistent'
      have hstranded := stranded_afterServing hknown hconsistent' hlater hpast hkeeps
        (hconflict conflict hstore hisconflict)
      rw [hlast] at hstranded ⊢
      exact refused_of_stranded naming hall' hsession hrequest hstranded
  · refine ⟨fun s'' hok => ?_, fun error s'' herror => ?_⟩
    · cases hresult.symm.trans hok
      have hne : VersionStatus.certified ≠ .draft := by simp
      refine ⟨v, s₁, x, _, hget, by rw [hdraft]; exact hne.symm, hx, ?_, ?_, hadds⟩
      · rw [Tally.get?_remove_of_ne hne, Tally.get?_add_self]
      · rw [hdraft, Tally.get?_remove_self, Tally.count_add_of_ne hne.symm]
    · cases hresult.symm.trans herror

/-- A version is read by another user before its author publishes it once more. -/
def earlyReading : List (Event Request) :=
  [⟨⟨"i1", "v1", "r1", noon⟩, ⟨"alice", "acme"⟩, .createItem Item.blank⟩,
    ⟨⟨"i2", "v2", "r2", noon⟩, ⟨"alice", "acme"⟩, .createVersion "i1" none Version.blank .major⟩,
    ⟨⟨"i3", "v3", "r3", noon⟩, ⟨"bob", "acme"⟩, .getVersion "i1" "v2"⟩,
    ⟨⟨"i4", "v4", "r4", noon⟩, ⟨"alice", "acme"⟩,
      .updateVersion "i1" "v2" { Version.blank with description := "more" }⟩,
    ⟨⟨"i5", "v5", "r5", noon⟩, ⟨"alice", "acme"⟩, .publish "i1" "v2" "more"⟩]

/-- What the other user tries after that. -/
def vainEfforts : List (Event Request) :=
  [⟨⟨"i7", "v7", "r7", noon⟩, ⟨"bob", "acme"⟩, .sync "i1" "v2"⟩,
    ⟨⟨"i8", "v8", "r8", noon⟩, ⟨"bob", "acme"⟩, .revert "i1" "v2" "r2"⟩]

/-- The author can certify the version. The other user cannot, and cannot publish the copy that is left
behind either. -/
theorem late_change_refused :
    let s := empty.afterServing .standard earlyReading
    let f : Fresh := ⟨"i6", "v6", "r6", noon⟩
    let change (user : String) :=
      Versions.updateStatus (Memory.backend f) ⟨user, "acme"⟩ "i1" "v2" .certified "done" s
    let publish : Event Request :=
      ⟨⟨"i9", "v9", "r9", noon⟩, ⟨"bob", "acme"⟩, .publish "i1" "v2" "done"⟩
    FreshIds earlyReading ∧ (∀ past ∈ earlyReading.map (·.fresh), past.Apart f) ∧
      (∃ s' e, change "alice" = .ok () s' ∧ (s'.shelf "acme" "i1").entries "v2"
        = (s.shelf "acme" "i1").entries "v2" ++ [e] ∧ e.content.status = .certified) ∧
      ∃ s', change "bob" = .error (.store (.outOfSync "v2")) s' ∧ s.SameShared s' ∧
        s'.Throughout .standard (fun s d => ¬ Discards "bob" "acme" "i1" "v2" s d) vainEfforts ∧
        ∃ error, (s'.afterServing .standard vainEfforts).reply .standard publish = .error error := by
  intro s f change publish
  have hfresh : FreshIds earlyReading := by decide
  have hnew : ∀ past ∈ earlyReading.map (·.fresh), past.Apart f := by decide
  have hbob := eq_error_of_answerOf
    (show answerOf (change "bob") = .error (.store (.outOfSync "v2")) by decide +kernel)
  have halice := eq_ok_of_answerOf (show answerOf (change "alice") = .ok () by decide +kernel)
  refine ⟨hfresh, hnew, ⟨stateOf (change "alice"), ?_⟩, stateOf (change "bob"), hbob, ?_⟩
  · obtain ⟨v, s₁, x, tally, -, -, -, -, -, hadds⟩ := (status_change_all_or_nothing .standard hfresh
      hnew ⟨"alice", "acme"⟩ "i1" "v2" .certified "done").1 _ halice
    exact ⟨_, halice, hadds.entries, rfl⟩
  · obtain ⟨hsame, hrefused⟩ := (status_change_all_or_nothing .standard hfresh hnew ⟨"bob", "acme"⟩
      "i1" "v2" .certified "done").2 _ _ hbob
    have hkeeps : (stateOf (change "bob")).Throughout .standard
        (fun s d => ¬ Discards "bob" "acme" "i1" "v2" s d) vainEfforts := by
      refine ⟨?_, ?_, trivial⟩
      all_goals
        simp [Discards, Request.discards?, Request.reads?]
    exact ⟨hsame, hkeeps, hrefused _ rfl rfl vainEfforts publish (by decide) hkeeps rfl (.inl ⟨_, rfl⟩)⟩

end Store

end VersionCatalog
