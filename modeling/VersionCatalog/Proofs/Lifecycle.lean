import VersionCatalog.Proofs.Serving

/-!
# The life of a version

A version goes from draft to certified. The engine refuses to change a status backward, but the status is
part of what is published, and a revert takes the status of an earlier revision over with everything else.
So a version's life goes one way as long as nobody takes it back (`Store.TakesBack`): as long as no copy that
was made from a certified head is reverted to a draft. Such a copy can be published, and the version can then
be certified once more.

## Main results

* `Shelf.Certified.move`: no move makes a draft of a certified version.
* `Store.certified_afterServing`: a certified version stays certified until its item is deleted.
* `Store.Orderly.certifies`: who changes a status makes a certified version of one that was none.
* `Store.one_way_unless_taken_back`: all of it for every history from the empty store, and that there is no
  weaker condition.
-/

namespace VersionCatalog

/-! ### Statuses that only go forward -/

/-- A copy that was made from a certified head is certified. -/
def VersionStatus.Keeps (head copy : VersionStatus) : Prop :=
  head = .certified → copy = .certified

theorem VersionStatus.Keeps.refl (status : VersionStatus) : Keeps status status := id

namespace Shelf

/-- The latest publication of a version is certified. -/
def Certified (s : Shelf) (version : String) : Prop :=
  ∃ e, s.head? version = some e ∧ e.content.status = .certified

namespace Certified

open VersionStatus (Keeps)

variable {s : Shelf} {f : Fresh} {user version : String} {h h' : Holding}

theorem published {w message : String} {content : Content} (hcertified : s.Certified version)
    (hcontent : version = w → content.status = .certified) :
    (s.published f user w message content).Certified version := by
  obtain ⟨e, he, hstatus⟩ := hcertified
  rw [Certified, head?_published]
  split
  · rename_i hw
    exact ⟨_, rfl, hcontent hw⟩
  · exact ⟨e, he, hstatus⟩

/-- **No move makes a draft of a certified version**, where copies made from its head are certified. -/
theorem move (hcertified : h.shelf.Certified version) (hsound : h.shelf.Sound Keeps)
    (hmove : Holding.Move Keeps f user h h') : h'.shelf.Certified version := by
  obtain ⟨head, hhead, hstatus⟩ := id hcertified
  cases hmove with
  | idle halike => exact ⟨head, by rw [← halike.head?, hhead], hstatus⟩
  | describe | take | merge | edit => exact hcertified
  | drop => exact ⟨head, by rw [head?_dropCopy, hhead], hstatus⟩
  | publish hcopy hhead' hcurrent hnew =>
      refine hcertified.published fun hversion => hsound.steady hcopy hhead' hcurrent ?_
      subst hversion
      obtain rfl := Option.some.inj (hhead.symm.trans hhead')
      exact hstatus
  | certify hcopy hhead' hcurrent hnew horigin hdraft hcertified' =>
      exact hcertified.published fun _ => hcertified'
  | create hid hdraft hname hnone hcopy =>
      -- the new version's id is in use nowhere
      refine hcertified.published fun hversion => ?_
      subst hversion
      rw [hnone] at hhead
      exact absurd hhead (by simp)

theorem moves (hcertified : h.shelf.Certified version) (hsound : h.shelf.Sound Keeps)
    (hmoves : Relation.ReflTransGen (Holding.Move Keeps f user) h h') :
    h'.shelf.Certified version ∧ h'.shelf.Sound Keeps := by
  induction hmoves with
  | refl => exact ⟨hcertified, hsound⟩
  | tail _ hmove ih =>
      obtain ⟨hcertified, hsound⟩ := ih
      exact ⟨hcertified.move hsound hmove, hsound.move Keeps.refl hmove⟩

/-- A request leaves a certified version certified, or deletes its item. -/
theorem change (hcertified : h.shelf.Certified version) (hsound : h.shelf.Sound Keeps)
    (hchange : Holding.Change Keeps f user h h') :
    h'.item = none ∨ h'.shelf.Certified version := by
  cases hchange with
  | moves hmoves => exact .inr (hcertified.moves hsound hmoves).1
  | make =>
      obtain ⟨e, he, -⟩ := hcertified
      exact absurd he (by simp)
  | delete => exact .inl rfl

end Certified

/-- Whether a copy was made from the head, and the statuses of the head and of a revision, can be looked up. -/
theorem exists_of_statuses {s : Shelf} {user version revision : String} {current restored : VersionStatus}
    (hcopy : (s.copy? user version).map (·.syncState (s.head? version)) = some .upToDate)
    (hhead : (s.head? version).map (·.content.status) = some current)
    (hentry : (s.restored? version revision).map (·.content.status) = some restored) :
    ∃ c head r, s.copy? user version = some c ∧ s.head? version = some head ∧
      c.syncState (some head) = .upToDate ∧ s.restored? version revision = some r ∧
      head.content.status = current ∧ r.content.status = restored := by
  obtain ⟨c, hc, hsync⟩ := Option.map_eq_some_iff.1 hcopy
  obtain ⟨head, hhead, hcurrent⟩ := Option.map_eq_some_iff.1 hhead
  obtain ⟨r, hr, hrestored⟩ := Option.map_eq_some_iff.1 hentry
  exact ⟨c, head, r, hc, hhead, hhead ▸ hsync, hr, hcurrent, hrestored⟩

end Shelf

/-! ### Items that are gone -/

/-- Moves make no item. -/
theorem Holding.Move.item_eq_none {P : VersionStatus → VersionStatus → Prop} {f : Fresh}
    {user : String} {h h' : Holding} (hmoves : Relation.ReflTransGen (Holding.Move P f user) h h')
    (hnone : h.item = none) : h'.item = none := by
  induction hmoves with
  | refl => exact hnone
  | tail _ hmove ih =>
      cases hmove with
      | idle | take | merge | edit | drop | publish => exact ih
      | describe | certify | create => exact absurd ih (by simp)

namespace Store

open VersionStatus (Keeps)

variable {naming : Calculator} {past : List Fresh} {s : Store} {e : Event Request}
  {history : List (Event Request)} {tenant item version message : String}

/-- A request makes no item but the one with its new id. -/
theorem item?_serve_of_gone (hne : item ≠ e.fresh.item) (h : s.item? tenant item = none) :
    (s.serve naming e).item? tenant item = none := by
  refine serve_keeps (I := fun s : Store => s.item? tenant item = none) (fun s session r hs => ?_)
    naming e.session e.request h
  exact item?_next_of_gone (e := ⟨e.fresh, session, r⟩) hne hs

/-- An item that was deleted is not there again, since no id is supplied twice. -/
theorem item?_afterServing_of_gone {f : Fresh} (hid : f.item = item)
    (hpast : ∀ e ∈ history, f.Apart e.fresh) (h : s.item? tenant item = none) :
    (s.afterServing naming history).item? tenant item = none := by
  induction history generalizing s with
  | nil => exact h
  | cons e history ih =>
      refine ih (fun d hd => hpast d (List.mem_cons_of_mem _ hd)) (item?_serve_of_gone ?_ h)
      rw [← hid]
      exact (hpast e List.mem_cons_self).item

/-! ### Versions that are taken back -/

/-- A request takes a version back: it reverts a copy that was made from the certified head to a draft. -/
def TakesBack (s : Store) (e : Event Request) (item version : String) : Prop :=
  ∃ revision c head r, e.request = .revert item version revision ∧
    (s.shelf e.session.tenant item).copy? e.session.user version = some c ∧
    (s.shelf e.session.tenant item).head? version = some head ∧
    c.syncState (some head) = .upToDate ∧
    (s.shelf e.session.tenant item).restored? version revision = some r ∧
    head.content.status = .certified ∧ r.content.status = .draft

/-- No version is taken back by a request. -/
def TakesNoneBack (s : Store) (e : Event Request) : Prop :=
  ∀ item version, ¬ s.TakesBack e item version

theorem TakesNoneBack.allowed (h : s.TakesNoneBack e) : s.RevertAllowed Keeps e := by
  intro item version revision hrequest c r head hcopy hentry hhead hcurrent hcertified
  cases hstatus : r.content.status with
  | certified => rfl
  | draft =>
      exact absurd ⟨revision, c, head, r, hrequest, hcopy, hhead, hcurrent, hentry, hcertified,
        hstatus⟩ (h item version)

/-- An item that has a certified version is there. -/
theorem KnownIds.item_of_certified (h : s.KnownIds past)
    (hcertified : (s.shelf tenant item).Certified version) :
    ∃ x, s.item? tenant item = some x := by
  cases hx : s.item? tenant item with
  | some x => exact ⟨x, rfl⟩
  | none =>
      obtain ⟨e, he, -⟩ := hcertified
      rw [h.missing hx] at he
      exact absurd he (by simp)

/-! ### Histories -/

/-- After a history that takes no version back all versions are sound. -/
theorem Orderly.afterServing (h : s.Orderly Keeps past) (hfresh : FreshIds history)
    (hpast : ∀ e ∈ history, ∀ f ∈ past, f.Apart e.fresh)
    (hnever : s.Throughout naming TakesNoneBack history) :
    (s.afterServing naming history).Orderly Keeps (past ++ history.map (·.fresh)) :=
  h.afterServing_of_allowed Keeps.refl hfresh hpast (hnever.mono TakesNoneBack.allowed)

/-- **A certified version stays certified** until its item is deleted. -/
theorem certified_afterServing (h : s.Orderly Keeps past) (hfresh : FreshIds history)
    (hpast : ∀ e ∈ history, ∀ f ∈ past, f.Apart e.fresh)
    (hnever : s.Throughout naming TakesNoneBack history)
    (hcertified : (s.shelf tenant item).Certified version) :
    (s.afterServing naming history).item? tenant item = none ∨
      ((s.afterServing naming history).shelf tenant item).Certified version := by
  induction history generalizing s past with
  | nil => exact .inr hcertified
  | cons e history ih =>
      obtain ⟨htail, hpast'⟩ := hfresh.tail hpast
      have hnew := hpast e List.mem_cons_self
      have hallowed := hnever.1.allowed
      obtain ⟨x, hx⟩ := h.known.item_of_certified hcertified
      obtain ⟨f, hf, hid⟩ := h.known.item hx
      rcases Shelf.Certified.change (h := s.holding tenant item) hcertified (h.sound tenant item)
          (h.changed_serve Keeps.refl hnew hallowed naming tenant item) with
        hgone | hcertified
      · exact .inl (item?_afterServing_of_gone (s := s.serve naming e) hid
          (fun d hd => hpast d (List.mem_cons_of_mem _ hd) f hf) hgone)
      · exact ih (h.serve Keeps.refl hnew hallowed naming) htail hpast' hnever.2
          hcertified

/-- **Who changes the status of a version certifies it.** The version was not certified before. -/
theorem Orderly.certifies (h : s.Orderly Keeps past) (hnew : ∀ g ∈ past, g.Apart e.fresh)
    {status : VersionStatus} (hrequest : e.request = .setVersionStatus item version status message)
    {a : Answer} (hok : s.reply naming e = .ok a) :
    (∃ x, s.item? e.session.tenant item = some x) ∧
      ¬ (s.shelf e.session.tenant item).Certified version ∧
      ((s.serve naming e).shelf e.session.tenant item).Certified version := by
  rw [reply, served, hrequest, Request.run, answerOf_map] at hok
  rw [Store.serve, served, hrequest, Request.run, stateOf_map]
  rcases h.updateStatus Keeps.refl hnew e.session item version status message with
    ⟨error, s', hresult, -⟩ |
      ⟨s₁, c, head, x, content, hmoved, horderly, hx, hc, hhead, hsync, hdraft, horigin,
        hcertified, hresult⟩
  · rw [hresult] at hok
    cases hok
  · rw [hresult]
    have hmoved : Relation.ReflTransGen (Holding.Move Keeps e.fresh e.session.user)
      (s.holding e.session.tenant item) (s₁.holding e.session.tenant item) := hmoved _ _
    refine ⟨?_, ?_, ?_⟩
    · -- moves make no item
      cases hy : s.item? e.session.tenant item with
      | some y => exact ⟨y, rfl⟩
      | none =>
          have hnone : s₁.item? e.session.tenant item = none :=
            Holding.Move.item_eq_none hmoved hy
          rw [hx] at hnone
          exact absurd hnone (by simp)
    · intro hbefore
      obtain ⟨⟨d, hd, hstatus⟩, -⟩ := Shelf.Certified.moves (h := s.holding e.session.tenant item)
        hbefore (h.sound _ _) hmoved
      obtain rfl := Option.some.inj (hhead.symm.trans hd)
      exact absurd (hdraft hstatus) (by simp)
    · rw [stateOf_ok, shelf_putItem, shelf_putShelf_self]
      exact ⟨_, by rw [Shelf.head?_published, if_pos rfl], hcertified⟩

/-! ### What follows when a version is taken back -/

/-- Whoever has a draft that was made from the head can certify it. -/
theorem Orderly.certify_ok {P : VersionStatus → VersionStatus → Prop} (h : s.Orderly P past)
    (hrequest : e.request = .setVersionStatus item version .certified message) {c : WorkingCopy}
    {head : Entry} (hc : (s.shelf e.session.tenant item).copy? e.session.user version = some c)
    (hhead : (s.shelf e.session.tenant item).head? version = some head)
    (hsync : c.syncState (some head) = .upToDate) (hdraft : c.content.status = .draft) :
    s.reply naming e = .ok .done := by
  obtain ⟨x, hx⟩ := h.known.item_of_copy hc
  obtain ⟨v, hv, hstatus⟩ : ∃ v,
      (s.shelf e.session.tenant item).get? e.session.user version = some v ∧ v.status = .draft := by
    refine ⟨_, by rw [Shelf.get?, hc, Option.map_some], ?_⟩
    simp only [hhead, hsync, if_true, hdraft]
  have hget : Versions.get (Memory.backend e.fresh) e.session item version s = .ok v s := by
    rw [Versions.get_eq, hv]
    simp [Version.isCertified, hstatus]
  obtain ⟨s', hresult⟩ : ∃ s', Versions.updateStatus (Memory.backend e.fresh) e.session item version
      .certified message s = .ok () s' := by
    rw [Versions.updateStatus_eq, bind_ok hget]
    rw [if_neg (by rw [hstatus]; simp), if_neg (by rw [hstatus]; simp [VersionStatus.canBecome])]
    rcases h.certify_result (f := e.fresh) hv hx hc hhead .certified message with
      ⟨-, hok⟩ | ⟨hne, -⟩
    · exact ⟨_, hok⟩
    · exact absurd hsync hne
  rw [reply, served, hrequest, Request.run, answerOf_map, hresult]
  rfl

/-- **A version that is taken back can be published as a draft**, though it was certified. -/
theorem Orderly.taken_back {P : VersionStatus → VersionStatus → Prop} (h : s.Orderly P past)
    (naming : Calculator) (htakes : s.TakesBack e item version) {p : Event Request}
    (hsession : p.session = e.session) (hrequest : p.request = .publish item version message) :
    (s.shelf e.session.tenant item).Certified version ∧ s.reply naming e = .ok .done ∧
      (s.serve naming e).reply naming p = .ok .done ∧
      ∃ c content, (s.shelf e.session.tenant item).copy? e.session.user version = some c ∧
        content.SameOrigin c.content ∧ content.status = .draft ∧
        (s.serve naming e).serve naming p = s.putShelf e.session.tenant item
          ((s.shelf e.session.tenant item).published p.fresh e.session.user version message
            content) := by
  obtain ⟨revision, c, head, r, hrevert, hc, hhead, hsync, hr, hcertified, hdraft⟩ := htakes
  have hsound := h.sound e.session.tenant item
  have horigin := hsound.origin_restored e.fresh.clock.revert hc hhead
    (Shelf.mem_entries_of_restored? hr)
  have hpublished := h.served_publish_restored naming hsession hrevert hrequest hc hhead hsync hr
  refine ⟨⟨head, hhead, hcertified⟩, reply_revert h.known naming hrevert hc hr, ?_, c, _, hc,
    horigin, hdraft, ?_⟩
  · rw [reply, hpublished]
    rfl
  · rw [Store.serve, hpublished, stateOf_ok]

/-- After that the version is there and not certified, and can be certified again. -/
theorem Orderly.draft_again {P : VersionStatus → VersionStatus → Prop} (h : s.Orderly P past)
    {p q : Event Request} (hnew : ∀ f ∈ past, f.Apart p.fresh) (htakes : s.TakesBack e item version)
    (hp : p.session = e.session) (hpublish : p.request = .publish item version message)
    {message' : String} (hq : q.session = e.session)
    (hstatus : q.request = .setVersionStatus item version .certified message') :
    let last := (s.serve naming e).serve naming p
    (s.shelf e.session.tenant item).Certified version ∧ s.reply naming e = .ok .done ∧
      (s.serve naming e).reply naming p = .ok .done ∧
      (last.item? e.session.tenant item).isSome ∧
      ¬ (last.shelf e.session.tenant item).Certified version ∧ last.reply naming q = .ok .done := by
  intro last
  obtain ⟨hcertified, hreverted, hpublished, c, content, hc, horigin, hdraft, hlast⟩ :=
    h.taken_back naming htakes hp hpublish
  have hlast : last = _ := hlast
  have hshelf : last.shelf e.session.tenant item = (s.shelf e.session.tenant item).published p.fresh
      e.session.user version message content := by
    rw [hlast, shelf_putShelf_self]
  have hhead : (last.shelf e.session.tenant item).head? version
      = some ⟨⟨p.fresh.revision, message, p.fresh.clock.publish, e.session.user⟩, content⟩ := by
    rw [hshelf, Shelf.head?_published, if_pos rfl]
  have hcopy : (last.shelf e.session.tenant item).copy? e.session.user version
      = some ⟨content, some p.fresh.revision, false, false⟩ := by
    rw [hshelf, Shelf.copy?_published, if_pos ⟨rfl, rfl⟩]
  refine ⟨hcertified, hreverted, hpublished, ?_, ?_, ?_⟩
  · obtain ⟨x, hx⟩ := h.known.item_of_copy hc
    rw [hlast, item?_putShelf, hx]
    rfl
  · rintro ⟨d, hd, hcertified⟩
    obtain rfl := Option.some.inj (hhead.symm.trans hd)
    rw [hdraft] at hcertified
    exact absurd hcertified (by simp)
  · -- any status is allowed in a copy now, so nothing is asked of the revert
    have horderly : last.Orderly (fun _ _ => True) (past ++ [e.fresh] ++ [p.fresh]) := by
      refine ⟨(h.known.serve naming e).serve naming p, fun t i => ?_⟩
      rw [hlast, shelf_putShelf]
      split
      · have hsound := (h.sound e.session.tenant item).mono (Q := fun _ _ => True) fun _ => trivial
        obtain ⟨head, hhead⟩ := hsound.head_of_copy hc
        exact hsound.published_of_copy (fun _ => trivial) hc hhead (h.synced_ne hnew) horigin
      · exact (h.sound t i).mono fun _ => trivial
    rw [← hq] at hcopy hhead
    exact horderly.certify_ok hstatus hcopy hhead (Shelf.syncState_eq_upToDate.2 ⟨rfl, rfl⟩) hdraft

/-- The status of a version is changed once: all later requests that try it fail. -/
theorem Orderly.certified_once (h : s.Orderly Keeps past) {d : Event Request}
    {between later : List (Event Request)} (hfresh : FreshIds (d :: (between ++ e :: later)))
    (hpast : ∀ g ∈ d :: (between ++ e :: later), ∀ f ∈ past, f.Apart g.fresh)
    (hnever : s.Throughout naming TakesNoneBack (d :: (between ++ e :: later)))
    (htenant : e.session.tenant = d.session.tenant) {status status' : VersionStatus}
    {message' : String} (hd : d.request = .setVersionStatus item version status message)
    (he : e.request = .setVersionStatus item version status' message') {a : Answer}
    (hok : s.reply naming d = .ok a) :
    ∃ error, ((s.serve naming d).afterServing naming between).reply naming e = .error error := by
  obtain ⟨htail, hpast'⟩ := hfresh.tail hpast
  obtain ⟨hnone, hnever⟩ := hnever
  obtain ⟨hbetween, hnever⟩ := throughout_append.1 hnever
  have hnew := hpast d List.mem_cons_self
  obtain ⟨-, -, hcertified⟩ := h.certifies hnew hd hok
  have hserved := h.serve Keeps.refl hnew hnone.allowed naming
  have hpast₁ : ∀ g ∈ between, ∀ f ∈ past ++ [d.fresh], f.Apart g.fresh :=
    fun g hg => hpast' g (List.mem_append_left _ hg)
  have hlast := hserved.afterServing htail.left hpast₁ hbetween
  have hnew' : ∀ f ∈ past ++ [d.fresh] ++ between.map (·.fresh), f.Apart e.fresh := by
    intro f hf
    rcases List.mem_append.1 hf with hf | hf
    · exact hpast' e (List.mem_append_right _ List.mem_cons_self) f hf
    · exact htail.apart List.mem_cons_self hf
  cases hreply : ((s.serve naming d).afterServing naming between).reply naming e with
  | error error => exact ⟨error, rfl⟩
  | ok b =>
      obtain ⟨⟨x, hx⟩, hnot, -⟩ := hlast.certifies hnew' he hreply
      rw [htenant] at hx hnot
      rcases certified_afterServing hserved htail.left hpast₁ hbetween hcertified with
        hgone | hcertified
      · rw [hgone] at hx
        exact absurd hx (by simp)
      · exact absurd hcertified hnot

/-- **The life of a version goes one way, unless it is taken back.** Take any history of requests of any
users, failing ones included, in which no version is taken back, and any version of any item.

* Once the version is certified, it is certified at the end, if the item is there then.
* Two requests that change its status do not both succeed.
* A request after the history that takes the version back ends this: it succeeds, its user can publish
  next, and then the version is there and not certified, though it was; and the user can certify it again. -/
theorem one_way_unless_taken_back (hfresh : FreshIds history)
    (hnever : Store.empty.Throughout naming TakesNoneBack history) (tenant item version : String) :
    let now (past : List (Event Request)) := Store.empty.afterServing naming past
    let certified (past : List (Event Request)) := ((now past).shelf tenant item).Certified version
    (∀ earlier later, history = earlier ++ later → certified earlier →
        ((now history).item? tenant item).isSome → certified history) ∧
    (∀ earlier d between e later status status' message message',
        history = earlier ++ d :: (between ++ e :: later) →
        d.session.tenant = tenant → d.request = .setVersionStatus item version status message →
        e.session.tenant = tenant → e.request = .setVersionStatus item version status' message' →
        (∃ a, (now earlier).reply naming d = .ok a) →
          ∃ error, (now (earlier ++ d :: between)).reply naming e = .error error) ∧
    (∀ e p q message message', FreshIds (history ++ [e, p, q]) →
        e.session.tenant = tenant → (now history).TakesBack e item version →
        p.session = e.session → p.request = .publish item version message →
        q.session = e.session → q.request = .setVersionStatus item version .certified message' →
          certified history ∧ (now history).reply naming e = .ok .done ∧
          (now (history ++ [e])).reply naming p = .ok .done ∧
          ((now (history ++ [e, p])).item? tenant item).isSome ∧ ¬ certified (history ++ [e, p]) ∧
          (now (history ++ [e, p])).reply naming q = .ok .done) := by
  intro now certified
  have hat : ∀ past more, now (past ++ more) = (now past).afterServing naming more :=
    afterServing_append naming Store.empty
  -- the store is orderly at every moment
  have horderly : ∀ {earlier later}, history = earlier ++ later →
      (now earlier).Orderly Keeps (earlier.map (·.fresh)) ∧ FreshIds later ∧
        (∀ e ∈ later, ∀ f ∈ earlier.map (·.fresh), f.Apart e.fresh) ∧
        (now earlier).Throughout naming TakesNoneBack later := by
    rintro earlier later rfl
    obtain ⟨hbefore, hafter⟩ := throughout_append.1 hnever
    refine ⟨?_, hfresh.right, fun e he f hf => hfresh.apart he hf, hafter⟩
    simpa using (Orderly.empty : Store.empty.Orderly Keeps []).afterServing hfresh.left (by simp)
      hbefore
  refine ⟨?_, ?_, ?_⟩
  · intro earlier later heq hcertified hitem
    obtain ⟨h, hlater, hpast, hnever⟩ := horderly heq
    have hlast : now history = (now earlier).afterServing naming later := by rw [heq, hat]
    rcases certified_afterServing h hlater hpast hnever hcertified with hgone | hcertified
    · rw [hlast, hgone] at hitem
      exact absurd hitem (by simp)
    · change Shelf.Certified ((now history).shelf tenant item) version
      rw [hlast]
      exact hcertified
  · rintro earlier d between e later status status' message message' heq rfl hd htenant he ⟨a, hok⟩
    obtain ⟨h, hlater, hpast, hnever⟩ := horderly heq
    rw [hat]
    exact h.certified_once hlater hpast hnever htenant hd he hok
  · rintro e p q message message' hfresh' rfl htakes hp hpublish hq hstatus
    obtain ⟨h, -, -, -⟩ := horderly (List.append_nil history).symm
    have hnew : ∀ f ∈ history.map (·.fresh), f.Apart p.fresh :=
      fun f hf => hfresh'.apart (by simp) hf
    have hnow : now (history ++ [e]) = (now history).serve naming e := hat ..
    have hlast : now (history ++ [e, p]) = ((now history).serve naming e).serve naming p := hat ..
    change Shelf.Certified ((now history).shelf _ _) _ ∧ _ ∧ _ ∧ _ ∧
      ¬ Shelf.Certified ((now (history ++ [e, p])).shelf _ _) _ ∧ _
    rw [hnow, hlast]
    exact h.draft_again hnew htakes hp hpublish hq hstatus

/-- A version is made and certified. -/
def certification : List (Event Request) :=
  [⟨⟨"i1", "v1", "r1", noon⟩, ⟨"alice", "acme"⟩, .createItem Item.blank⟩,
    ⟨⟨"i2", "v2", "r2", noon⟩, ⟨"alice", "acme"⟩, .createVersion "i1" none Version.blank .major⟩,
    ⟨⟨"i3", "v3", "r3", noon⟩, ⟨"alice", "acme"⟩, .setVersionStatus "i1" "v2" .certified "done"⟩]

/-- The version is reverted to its first revision. -/
def reversion : Event Request :=
  ⟨⟨"i4", "v4", "r4", noon⟩, ⟨"alice", "acme"⟩, .revert "i1" "v2" "r2"⟩

/-- What was reverted is published. -/
def republication : Event Request :=
  ⟨⟨"i5", "v5", "r5", noon⟩, ⟨"alice", "acme"⟩, .publish "i1" "v2" "again"⟩

/-- The version is certified once more. -/
def recertification : Event Request :=
  ⟨⟨"i6", "v6", "r6", noon⟩, ⟨"alice", "acme"⟩, .setVersionStatus "i1" "v2" .certified "twice"⟩

/-- The version is certified, a draft again, and certified a second time. -/
theorem certified_twice :
    let now (past : List (Event Request)) := Store.empty.afterServing .standard past
    let certified (past : List (Event Request)) := ((now past).shelf "acme" "i1").Certified "v2"
    FreshIds (certification ++ [reversion, republication, recertification]) ∧
      Store.empty.Throughout .standard TakesNoneBack certification ∧
      (now certification).TakesBack reversion "i1" "v2" ∧
      certified certification ∧ ¬ certified (certification ++ [reversion, republication]) ∧
      (now (certification ++ [reversion, republication])).reply .standard recertification
        = .ok .done := by
  intro now certified
  have hfresh : FreshIds (certification ++ [reversion, republication, recertification]) := by
    decide
  have hnever : Store.empty.Throughout .standard TakesNoneBack certification := by
    refine ⟨?_, ?_, ?_, trivial⟩
    all_goals
      rintro item version ⟨revision, c, head, r, ⟨⟩, -⟩
  have htakes : (now certification).TakesBack reversion "i1" "v2" := by
    let shelf := (now certification).shelf "acme" "i1"
    have hcopy : (shelf.copy? "alice" "v2").map (·.syncState (shelf.head? "v2"))
        = some .upToDate := by decide +kernel
    have hhead : (shelf.head? "v2").map (·.content.status) = some .certified := by decide +kernel
    have hentry : (shelf.restored? "v2" "r2").map (·.content.status) = some .draft := by
      decide +kernel
    obtain ⟨c, head, r, hrevert⟩ := Shelf.exists_of_statuses hcopy hhead hentry
    exact ⟨"r2", c, head, r, rfl, hrevert⟩
  obtain ⟨hcertified, -, -, -, hnot, hagain⟩ :=
    (one_way_unless_taken_back hfresh.left hnever "acme" "i1" "v2").2.2
      reversion republication recertification "again" "twice" hfresh rfl htakes rfl rfl rfl rfl
  exact ⟨hfresh, hnever, htakes, hcertified, hnot, hagain⟩

end Store

end VersionCatalog
