import VersionCatalog.Proofs.Creation
import VersionCatalog.Proofs.Offers

/-!
# The bases of versions

Only a certified version can be the base of another one. The engine reads the base to see whether it is, and
what it reads is the status of the caller's own copy, if that was made from the head. So the engine can be
misled by a copy that is certified beside a head that is a draft (`Shelf.Ahead`). An edit does not bring a copy
there: the engine lets nobody edit a status, and who certifies a version publishes it, or has a copy that is
not up to date. But a revert does, where the version was certified once, is a draft again, and the certified
revision is taken over (`Store.RunsAhead`).

## Main results

* `Versions.certified_or_ahead`: what is read as certified.
* `Store.Orderly.base_of_create`: what a version is made from.
* `Store.Orderly.ahead_of_runsAhead`, `Store.Orderly.create_of_ahead`: a copy gets ahead, and is accepted.
* `Store.bases_certified_unless_ahead`: all of it after every history of requests.
-/

namespace VersionCatalog

/-! ### Copies ahead of a draft -/

/-- A copy that was made from the head is certified only if the head is. -/
def VersionStatus.Follows (head copy : VersionStatus) : Prop :=
  copy = .certified → head = .certified

theorem VersionStatus.Follows.refl (status : VersionStatus) : Follows status status := id

open VersionStatus (Follows)

namespace Shelf

variable {s : Shelf} {user version : String}

/-- The user's copy was made from the head and is certified by its edits, and the head is a draft. -/
def Ahead (s : Shelf) (user version : String) : Prop :=
  ∃ c e, s.copy? user version = some c ∧ s.head? version = some e ∧
    c.syncState (some e) = .upToDate ∧ c.dirty = true ∧ c.content.status = .certified ∧
    e.content.status = .draft

theorem Ahead.not_certified (h : s.Ahead user version) : ¬ s.Certified version := by
  obtain ⟨c, e, -, he, -, -, -, hdraft⟩ := h
  rintro ⟨e', he', hcertified⟩
  obtain rfl := Option.some.inj (he.symm.trans he')
  exact absurd (hdraft.symm.trans hcertified) (by simp)

theorem Ahead.not_superseded (h : s.Ahead user version) : ¬ s.Superseded user version := by
  rintro ⟨_, e, -, he, -, hcertified⟩
  exact h.not_certified ⟨e, he, hcertified⟩

/-- No copy is ahead where all copies follow. -/
theorem Sound.not_ahead (h : s.Sound Follows) : ¬ s.Ahead user version := by
  rintro ⟨c, e, hc, he, hsync, -, hcertified, hdraft⟩
  exact absurd (hdraft.symm.trans (h.steady hc he hsync hcertified)) (by simp)

end Shelf

variable {P : VersionStatus → VersionStatus → Prop} {past : List Fresh} {f : Fresh}
  {session : Session} {item version : String} {s s' : Store} {v : Version} {naming : Calculator}

/-! ### Reading a base -/

/-- **What is read as certified** is certified, unless it is a copy ahead of it. -/
theorem Versions.certified_or_ahead (horderly : s.Orderly P past) (hconsistent : s.Consistent)
    (hget : get (Memory.backend f) session item version s = .ok v s') (hv : v.status = .certified) :
    (s.shelf session.tenant item).Certified version ∨
      (s.shelf session.tenant item).Ahead session.user version := by
  have hreads := reads hconsistent f session item version
  rw [hget] at hreads
  cases hreads with
  | pulled he => exact .inl ⟨_, he, hv⟩
  | kept hshown =>
      obtain ⟨c, e, hc, he, -, -, hcurrent, hbehind⟩ :=
        (horderly.sound session.tenant item).of_get? hshown
      by_cases hsync : c.syncState (some e) = .upToDate
      · have hcertified := (hcurrent hsync).symm.trans hv
        cases hstatus : e.content.status with
        | certified => exact .inl ⟨e, he, hstatus⟩
        | draft =>
            cases hdirty : c.dirty with
            | true => exact .inr ⟨c, e, hc, he, hsync, hdirty, hcertified, hstatus⟩
            | false =>
                -- without edits it would have the content of the head
                obtain ⟨e', he', hcontent⟩ := (hconsistent.shelf session.tenant item).content_of_clean
                  (hconsistent.revisions.once ..) hc hdirty (he ▸ hsync)
                obtain rfl := Option.some.inj (he.symm.trans he')
                rw [hcontent, hstatus] at hcertified
                exact absurd hcertified (by simp)
      · exact .inl ⟨e, he, (hbehind hsync).symm.trans hv⟩

/-- A version that is made from a base is made from one that is read as certified. -/
theorem Versions.get_of_create {request : Version} {step : Step}
    (hcreate : create (Memory.backend f) naming session item (some version) request step s = .ok v s') :
    ∃ base s₁, get (Memory.backend f) session item version s = .ok base s₁ ∧
      base.status = .certified := by
  rw [create_eq, Option.elim_some] at hcreate
  cases hbase : certifiedBase (Memory.backend f) session item version s with
  | ok base s₁ =>
      obtain ⟨hget, hcertified⟩ := certifiedBase_eq_ok.1 hbase
      exact ⟨base, s₁, hget, by simpa [Version.isCertified] using hcertified⟩
  | error error s₁ =>
      rw [bind_error (map_error hbase)] at hcreate
      cases hcreate

namespace Store

/-- **What a version is made from**: a certified version, or one that the caller's copy is ahead of. The head
of the base stays. -/
theorem Orderly.base_of_create (horderly : s.Orderly anyStatus past) (hconsistent : s.Consistent)
    (hnew : ∀ g ∈ past, g.Apart f) {request : Version} {step : Step}
    (hcreate : Versions.create (Memory.backend f) naming session item (some version) request step s
      = .ok v s') :
    ((s.shelf session.tenant item).Certified version ∨
      (s.shelf session.tenant item).Ahead session.user version) ∧
    (s'.shelf session.tenant item).head? version = (s.shelf session.tenant item).head? version := by
  obtain ⟨base, s₁, hget, hstatus⟩ := Versions.get_of_create hcreate
  refine ⟨Versions.certified_or_ahead horderly hconsistent hget hstatus, ?_⟩
  rcases horderly.create_cases hconsistent hnew naming session item (some version) request step with
    ⟨error, s'', hresult, -⟩ | ⟨x, name, s'', -, hname, hresult, hadds⟩
  · cases hresult.symm.trans hcreate
  · cases hresult.symm.trans hcreate
    -- the base is shared, so its id is not the new one
    cases hname with
    | branch hhead =>
        have hunused := (horderly.known.shelf session.tenant item).head?_of_new hnew
        refine hadds.head?_of_ne fun hversion => ?_
        rw [hversion, hunused] at hhead
        exact absurd hhead (by simp)

/-- A copy that is ahead of a version is accepted as a base, if the name is not used. -/
theorem Orderly.create_of_ahead (horderly : s.Orderly anyStatus past) (hconsistent : s.Consistent)
    (hnew : ∀ g ∈ past, g.Apart f) (hahead : (s.shelf session.tenant item).Ahead session.user version)
    {e : Entry} (he : (s.shelf session.tenant item).head? version = some e) {step : Step} {name : String}
    (hname : naming.calculate (some e.content.name) step = .ok name)
    (hfree : name ∉ (s.shelf session.tenant item).names) (request : Version) :
    ∃ w s', Versions.create (Memory.backend f) naming session item (some version) request step s
      = .ok w s' := by
  obtain ⟨c, e', hc, he', hsync, -, hcertified, -⟩ := id hahead
  obtain rfl := Option.some.inj (he.symm.trans he')
  have hsound := horderly.sound session.tenant item
  obtain ⟨v, hv⟩ : ∃ v, (s.shelf session.tenant item).get? session.user version = some v :=
    ⟨_, by rw [Shelf.get?, hc, Option.map_some]⟩
  -- the copy is read as it is
  have hget : Versions.get (Memory.backend f) session item version s = .ok v s :=
    Versions.get_of_current hv (Bool.eq_false_iff.2
      (mt ((hconsistent.shelf session.tenant item).superseded_iff hv).1 hahead.not_superseded))
  obtain ⟨d, e', hd, he', -, hvname, hcurrent, -⟩ := hsound.of_get? hv
  obtain rfl := Option.some.inj (hc.symm.trans hd)
  obtain rfl := Option.some.inj (he.symm.trans he')
  rw [← (hsound.origin_of_copy hc he).name, ← hvname] at hname
  exact horderly.create_of_get hnew hget ((hcurrent hsync).trans hcertified) he hname hfree request

/-! ### Reverts that run ahead -/

/-- A request runs ahead: it reverts a copy of a draft, made from the head, to a certified revision. -/
def RunsAhead (s : Store) (e : Event Request) (item version : String) : Prop :=
  ∃ revision c head r, e.request = .revert item version revision ∧
    (s.shelf e.session.tenant item).copy? e.session.user version = some c ∧
    (s.shelf e.session.tenant item).head? version = some head ∧
    c.syncState (some head) = .upToDate ∧
    (s.shelf e.session.tenant item).restored? version revision = some r ∧
    head.content.status = .draft ∧ r.content.status = .certified

/-- A request runs ahead of no version. -/
def RunsAheadOfNone (s : Store) (e : Event Request) : Prop :=
  ∀ item version, ¬ s.RunsAhead e item version

theorem RunsAheadOfNone.allowed {e : Event Request} (h : s.RunsAheadOfNone e) :
    s.RevertAllowed Follows e := by
  intro item version revision hrequest c r head hcopy hentry hhead hcurrent hcertified
  cases hstatus : head.content.status with
  | certified => rfl
  | draft =>
      exact absurd ⟨revision, c, head, r, hrequest, hcopy, hhead, hcurrent, hentry, hstatus,
        hcertified⟩ (h item version)

/-- **A copy gets ahead** of a version by a revert that runs ahead. -/
theorem Orderly.ahead_of_runsAhead (h : s.Orderly P past) (naming : Calculator) {e : Event Request}
    (hruns : s.RunsAhead e item version) :
    s.reply naming e = .ok .done ∧
      ((s.serve naming e).shelf e.session.tenant item).Ahead e.session.user version := by
  obtain ⟨revision, c, head, r, hrequest, hc, hhead, hsync, hr, hdraft, hcertified⟩ := hruns
  rw [reply, Store.serve, served_revert h.known naming hrequest hc hr, stateOf_ok, shelf_putShelf_self]
  exact ⟨rfl, ⟨_, head, Shelf.copy?_putCopy_self .., hhead, hsync, rfl, hcertified, hdraft⟩⟩

/-! ### Bases after a history -/

variable {history : List (Event Request)}

/-- No copy is ahead of a version if no request ran ahead. -/
theorem not_ahead_afterServing (hfresh : FreshIds history)
    (hnever : empty.Throughout naming RunsAheadOfNone history) (session : Session)
    (item version : String) :
    ¬ ((empty.afterServing naming history).shelf session.tenant item).Ahead session.user version := by
  have horderly : empty.Orderly Follows [] := .empty
  exact ((horderly.afterServing_of_allowed Follows.refl hfresh (by simp)
    (hnever.mono RunsAheadOfNone.allowed)).sound session.tenant item).not_ahead

/-- **Bases are certified, unless the caller has run ahead.** Take any history of requests of any users,
failing ones included, and then a request to make a version from a base, with new ids.

* If a version is made, the base is certified, or the caller has edits of it that were made from its head and
  say that it is certified, when it is a draft. Its head is the same before and after.
* If no request of the history ran ahead, the base is certified whenever a version is made from it.
* A request that runs ahead of the base ends this. It succeeds, and the base is not certified then; but the
  same user can make a version from it next, if the name that is calculated is not used. -/
theorem bases_certified_unless_ahead (naming : Calculator) (hfresh : FreshIds history) {f : Fresh}
    (hnew : ∀ past ∈ history.map (·.fresh), past.Apart f) (session : Session) (item base : String)
    (request : Version) (step : Step) :
    let s := empty.afterServing naming history
    let create (s : Store) :=
      Versions.create (Memory.backend f) naming session item (some base) request step s
    (∀ v s', create s = .ok v s' →
      ((s.shelf session.tenant item).Certified base ∨
        (s.shelf session.tenant item).Ahead session.user base) ∧
      (s'.shelf session.tenant item).head? base = (s.shelf session.tenant item).head? base) ∧
    (empty.Throughout naming RunsAheadOfNone history → ∀ v s', create s = .ok v s' →
      (s.shelf session.tenant item).Certified base ∧ (s'.shelf session.tenant item).Certified base) ∧
    ∀ e : Event Request, e.session = session → FreshIds (history ++ [e]) → e.fresh.Apart f →
      s.RunsAhead e item base →
      let shelf := (s.serve naming e).shelf session.tenant item
      s.reply naming e = .ok .done ∧ ¬ shelf.Certified base ∧
        ∃ head, shelf.head? base = some head ∧
          ∀ name, naming.calculate (some head.content.name) step = .ok name → name ∉ shelf.names →
            ∃ v s', create (s.serve naming e) = .ok v s' := by
  have horderly := orderly_afterServing naming hfresh
  have hconsistent := consistent_afterServing naming hfresh
  intro s create
  refine ⟨fun v s' hcreate => horderly.base_of_create hconsistent hnew hcreate,
    fun hnever v s' hcreate => ?_, ?_⟩
  · obtain ⟨hbase, hsame⟩ := horderly.base_of_create hconsistent hnew hcreate
    have hcertified := hbase.resolve_right (not_ahead_afterServing hfresh hnever session item base)
    refine ⟨hcertified, ?_⟩
    rw [Shelf.Certified, hsame]
    exact hcertified
  · rintro e rfl hfresh' hapart hruns shelf
    obtain ⟨hreply, hahead⟩ := horderly.ahead_of_runsAhead naming hruns
    obtain ⟨-, head, -, hhead, -⟩ := id hahead
    have hlast : empty.afterServing naming (history ++ [e]) = s.serve naming e :=
      afterServing_append naming empty history [e]
    have horderly' := orderly_afterServing naming hfresh'
    have hconsistent' := consistent_afterServing naming hfresh'
    rw [hlast] at horderly' hconsistent'
    have hnew' : ∀ past ∈ (history ++ [e]).map (·.fresh), past.Apart f := by
      rw [List.map_append]
      exact List.forall_mem_append.2 ⟨hnew, List.forall_mem_singleton.2 hapart⟩
    exact ⟨hreply, hahead.not_certified, head, hhead, fun name hname hfree =>
      horderly'.create_of_ahead hconsistent' hnew' hahead hhead hname hfree request⟩

/-- The certified revision is taken over, when the version is a draft again. -/
def restoration : Event Request :=
  ⟨⟨"i6", "v6", "r6", noon⟩, ⟨"alice", "acme"⟩, .revert "i1" "v2" "r3"⟩

/-- A certified version is taken as a base. When it is a draft again, a user who runs ahead can still take it
as one. -/
theorem draft_taken_as_base :
    let now (past : List (Event Request)) := empty.afterServing .standard past
    let f : Fresh := ⟨"i7", "v7", "r7", noon⟩
    let create (s : Store) := Versions.create (Memory.backend f) .standard ⟨"alice", "acme"⟩ "i1"
      (some "v2") Version.blank .major s
    let certified (s : Store) := (s.shelf "acme" "i1").Certified "v2"
    let again := now (certification ++ [reversion, republication])
    (∃ v s', create (now certification) = .ok v s' ∧ certified (now certification) ∧ certified s') ∧
      again.RunsAhead restoration "i1" "v2" ∧
      again.reply .standard restoration = .ok .done ∧
      ¬ certified (again.serve .standard restoration) ∧
      ∃ v s', create (again.serve .standard restoration) = .ok v s' := by
  intro now f create certified again
  have hfresh : FreshIds ((certification ++ [reversion, republication]) ++ [restoration]) := by decide
  have hearly : FreshIds certification := by decide
  have hnew : ∀ past ∈ (certification ++ [reversion, republication]).map (·.fresh), past.Apart f := by
    decide
  have hapart : restoration.fresh.Apart f := by decide
  have hnever : empty.Throughout .standard RunsAheadOfNone certification := by
    refine ⟨?_, ?_, ?_, trivial⟩
    all_goals
      rintro item version ⟨revision, c, head, r, ⟨⟩, -⟩
  constructor
  · have hanswer : answerOf (create (now certification)) = .ok
        ⟨{ Content.blank with
            id := "v7", base := some "v2", name := "2.0", created := some noon, modified := some noon },
          some ⟨.upToDate, false⟩⟩ := by decide +kernel
    have hcreate := eq_ok_of_answerOf hanswer
    have hnew : ∀ past ∈ certification.map (·.fresh), past.Apart f := by decide
    exact ⟨_, _, hcreate, (bases_certified_unless_ahead .standard hearly hnew ⟨"alice", "acme"⟩
      "i1" "v2" Version.blank .major).2.1 hnever _ _ hcreate⟩
  · have hruns : again.RunsAhead restoration "i1" "v2" := by
      let shelf := again.shelf "acme" "i1"
      have hcopy : (shelf.copy? "alice" "v2").map (·.syncState (shelf.head? "v2"))
          = some .upToDate := by decide +kernel
      have hhead : (shelf.head? "v2").map (·.content.status) = some .draft := by decide +kernel
      have hentry : (shelf.restored? "v2" "r3").map (·.content.status) = some .certified := by
        decide +kernel
      obtain ⟨c, head, r, hrevert⟩ := Shelf.exists_of_statuses hcopy hhead hentry
      exact ⟨"r3", c, head, r, rfl, hrevert⟩
    obtain ⟨hreply, hnot, head, hhead, hcreate⟩ :=
      (bases_certified_unless_ahead .standard hfresh.left hnew ⟨"alice", "acme"⟩ "i1" "v2"
        Version.blank .major).2.2 restoration rfl hfresh hapart hruns
    have hname : (((again.serve .standard restoration).shelf "acme" "i1").head? "v2").map
        (·.content.name) = some "1.0" := by decide +kernel
    rw [hhead, Option.map_some, Option.some.injEq] at hname
    refine ⟨hruns, hreply, hnot, hcreate "2.0" ?_ (by decide +kernel)⟩
    rw [hname]
    decide +kernel

end Store

end VersionCatalog
