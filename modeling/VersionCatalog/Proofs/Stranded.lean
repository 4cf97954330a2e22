import VersionCatalog.Proofs.Lifecycle
import VersionCatalog.Proofs.Reading

/-!
# Copies that cannot be published

A copy that has edits and is not up to date with the head is *stranded* (`Shelf.Stranded`): it cannot be
published, and no edit, synchronization, revert or publication, by whomever, changes that. Only its user can
put it away, by taking the head over or by throwing the copy away (`Store.Discards`). The engine takes the
head over by itself when it reads a version for the user whose copy is out of sync with a certified head.

This is shown for single store calls first. What holds between the stores before and after each of the calls
that the engine makes for a request then holds for the request (`Store.related_serve`).

## Main results

* `Shelf.Held.effect`: a store call that does not put the copy away leaves it stranded.
* `Store.stranded_afterServing`: requests that do not put the copy away leave it stranded, or delete the item.
* `Store.reply_publish_of_stranded`: a stranded copy is not published.
-/

namespace VersionCatalog

/-! ### One call -/

/-- The version whose copy a store call puts away, whatever the copy is. -/
def StoreRequest.discards? : StoreRequest → Option (String × String)
  | .forceSync item version | .clean item version => some (item, version)
  | _ => none

namespace Shelf

variable {past : List Fresh} {s s' : Shelf} {f : Fresh} {caller user item version : String}
  {r : StoreRequest}

/-- The user's copy of a version has edits and is not up to date with the head. -/
def Stranded (s : Shelf) (user version : String) : Prop :=
  ∃ c e, s.copy? user version = some c ∧ s.head? version = some e ∧ c.dirty = true ∧
    c.syncState (some e) ≠ .upToDate

/-- The user's copy is stranded, and was not made from the revision that `f` supplies. -/
def Held (f : Fresh) (s : Shelf) (user version : String) : Prop :=
  s.Stranded user version ∧ ∀ c, s.copy? user version = some c → c.synced ≠ some f.revision

theorem Stranded.held (h : s.Stranded user version) (hknown : s.KnownIds past)
    (hnew : ∀ g ∈ past, g.Apart f) : s.Held f user version :=
  ⟨h, fun _ hc => hknown.synced_ne_of_new hnew hc⟩

/-- What is not up to date merges, or was not made from the head. -/
theorem syncState_ne_upToDate {c : WorkingCopy} {e : Entry} :
    c.syncState (some e) ≠ .upToDate ↔ c.merging = true ∨ c.synced ≠ some e.revision.id := by
  rw [Ne, syncState_eq_upToDate, not_and_or, Bool.not_eq_false]
  rfl

/-- **A store call that does not put a stranded copy away leaves it stranded.** -/
theorem Held.effect (h : s.Held f user version) (hversion : version ≠ f.version)
    (heffect : s.Effect f caller item r s') (hdelete : r ≠ .deleteItem item)
    (hkeeps : caller = user → r.discards? ≠ some (item, version)) : s'.Held f user version := by
  obtain ⟨⟨c, e, hc, he, hdirty, hsync⟩, hsynced⟩ := h
  have hne := hsynced c hc
  have hstays : ¬ s.Releases caller user item version r := by
    rintro (hr | ⟨hcaller, hr | hr | ⟨-, hclean⟩⟩)
    · exact hdelete hr
    · exact hkeeps hcaller (by rw [hr]; rfl)
    · exact hkeeps hcaller (by rw [hr]; rfl)
    · rw [(hclean c hc).1] at hdirty
      exact absurd hdirty (by simp)
  -- the copy goes on merging and stays made from the same revision
  obtain ⟨c', hc', hmerging', hsynced', hdirty'⟩ : ∃ c', s'.copy? user version = some c' ∧
      (c.merging = true → c'.merging = true) ∧ c'.synced = c.synced ∧ c'.dirty = true := by
    rcases heffect.copy?_eq_or hstays hversion with hsame | ⟨d, c', hd, hc', hkept⟩
    · exact ⟨c, hsame.trans hc, id, rfl, hdirty⟩
    · obtain rfl := Option.some.inj (hc.symm.trans hd)
      rcases hkept with hkept | ⟨-, hcurrent⟩
      · exact ⟨c', hc', hkept⟩
      · exact absurd (he ▸ hcurrent) hsync
  refine ⟨?_, fun d hd => ?_⟩
  · rcases heffect.entries_eq_or version with hsame | ⟨hr, -⟩ | ⟨message, d, -, -, -, -, hadd⟩
    · refine ⟨c', e, hc', by rw [head?_eq, hsame, ← head?_eq, he], hdirty', ?_⟩
      rw [syncState_ne_upToDate, hsynced']
      exact (syncState_ne_upToDate.1 hsync).imp_left hmerging'
    · exact absurd hr hdelete
    · refine ⟨c', _, hc', by rw [head?_eq, hadd, List.getLast?_concat], hdirty', ?_⟩
      rw [syncState_ne_upToDate, hsynced']
      exact .inr hne
  · obtain rfl := Option.some.inj (hc'.symm.trans hd)
    rw [hsynced']
    exact hne

end Shelf

/-! ### One request -/

/-- The version whose copy a request puts away, whatever the copy is. -/
def Request.discards? : Request → Option (String × String)
  | .forceSync item version | .clean item version => some (item, version)
  | _ => none

/-- The version that the engine reads for a request before it does anything else. -/
def Request.reads? : Request → Option (String × String)
  | .getVersion item version | .updateVersion item version _ | .setVersionStatus item version _ _ =>
    some (item, version)
  | .createVersion item base _ _ => base.map fun id => (item, id)
  | _ => none

namespace Store

variable {R : Store → Store → Prop} {naming : Calculator} {past : List Fresh} {f : Fresh}
  {session : Session} {s s' : Store} {e : Event Request} {history : List (Event Request)}
  {user tenant item version message : String}

/-- What holds between the stores before and after any number of calls, each of which puts no copy away. -/
structure Joins (R : Store → Store → Prop) (f : Fresh) (session : Session) : Prop where
  refl : ∀ s, R s s
  trans : ∀ {a b c}, R a b → R b c → R a c
  next : ∀ s r, r.discards? = none → R s (s.next ⟨f, session, r⟩)

namespace Joins

variable {α : Type} (h : Joins R f session)

include h

theorem ofStore {x : Change α} {g : α → Answer} {r : StoreRequest}
    (hr : r.run (Memory.backend f) session = g <$> x) (hdiscards : r.discards? = none) (s : Store) :
    R s (stateOf (Call.ofStore x s)) := by
  rw [stateOf_ofStore_of_run hr]
  exact h.next s r hdiscards

/-- What the engine does after it has looked up an item. -/
theorem bind_get {k : Item → Call Store α} (hk : ∀ x, R s (stateOf (k x s))) :
    R s (stateOf ((Items.get (Memory.backend f) session item >>= k) s)) :=
  related_bind_read (R := R) h.refl h.trans (Items.stateOf_get s) fun x _ => hk x

theorem updateItem (request : Item) (s : Store) :
    R s (stateOf (Items.update (Memory.backend f) session item request s)) := by
  refine h.bind_get fun y => ?_
  refine related_bind (R := R) h.trans (h.ofStore (r := .updateItem (y.overlay request)) rfl rfl s)
    fun _ s₁ _ => ?_
  rw [Items.stateOf_get]
  exact h.refl s₁

theorem setItemStatus (status : ItemStatus) (s : Store) :
    R s (stateOf (Items.updateStatus (Memory.backend f) session item status s)) := by
  refine h.bind_get fun x => ?_
  dsimp only
  split
  · exact h.refl s
  · exact related_bind (R := R) h.trans
      (h.ofStore (r := .updateItem { x with status := status }) rfl rfl s) fun _ s₁ _ => h.refl s₁

theorem updateTally (change : Tally → Tally) (s : Store) :
    R s (stateOf (Versions.updateTally (Memory.backend f) session item change s)) := by
  refine related_bind_read (R := R) h.refl h.trans rfl fun x _ => ?_
  cases x with
  | none => exact h.refl s
  | some x => exact h.ofStore (r := .updateItem { x with tally := change x.tally }) rfl rfl s

theorem createNamed (v : Version) (s : Store) :
    R s (stateOf (Versions.createNamed (Memory.backend f) session item v s)) := by
  refine related_bind (R := R) h.trans
    (h.ofStore (g := .version) (r := .createVersion item v) rfl rfl s) fun created s₁ _ => ?_
  refine related_bind (R := R) h.trans (h.updateTally _ s₁) fun _ s₂ _ => ?_
  refine related_bind (R := R) h.trans (h.ofStore (r := .publish item created.id _) rfl rfl s₂)
    fun _ s₃ _ => ?_
  rw [Versions.stateOf_refetch]
  exact h.refl s₃

/-- A version is made after its base is read. -/
theorem createVersion {base : Option String}
    (hbase : ∀ id, base = some id →
      R s (stateOf (Versions.get (Memory.backend f) session item id s)))
    (request : Version) (step : Step) :
    R s (stateOf (Versions.create (Memory.backend f) naming session item base request step s)) := by
  have hread : R s (stateOf ((base.elim (pure none) fun id =>
      some <$> Versions.certifiedBase (Memory.backend f) session item id) s)) := by
    cases base with
    | none => exact h.refl s
    | some id =>
        rw [Option.elim_some, stateOf_map, Versions.stateOf_certifiedBase]
        exact hbase id rfl
  rw [Versions.create_eq]
  refine related_bind (R := R) h.trans hread fun base s₁ _ => ?_
  refine related_bind_read (R := R) h.refl h.trans (Call.stateOf_ofExcept _ s₁) fun name _ => ?_
  refine related_bind_read (R := R) h.refl h.trans rfl fun existing _ => ?_
  split
  · exact h.refl s₁
  · exact h.createNamed _ s₁

/-- A version is changed after it is read. -/
theorem updateVersion (hget : R s (stateOf (Versions.get (Memory.backend f) session item version s)))
    (request : Version) :
    R s (stateOf (Versions.update (Memory.backend f) session item version request s)) := by
  refine related_bind (R := R) h.trans hget fun stored s₁ _ => ?_
  rw [Versions.stateOf_bind_refetch, ← Call.stateOf_ofStore]
  exact h.ofStore (r := .updateVersion item (stored.overlay request)) rfl rfl s₁

theorem setVersionStatus
    (hget : R s (stateOf (Versions.get (Memory.backend f) session item version s)))
    (status : VersionStatus) (message : String) :
    R s (stateOf (Versions.updateStatus (Memory.backend f) session item version status message s)) := by
  rw [Versions.updateStatus_eq]
  refine related_bind (R := R) h.trans hget fun stored s₁ _ => ?_
  split
  · exact h.refl s₁
  split
  · exact h.refl s₁
  · refine related_bind (R := R) h.trans
      (h.ofStore (r := .updateVersion item { stored with status := status }) rfl rfl s₁) fun _ s₂ _ => ?_
    exact related_bind (R := R) h.trans (h.ofStore (r := .publish item version message) rfl rfl s₂)
      fun _ s₃ _ => h.updateTally _ s₃

end Joins

/-- **What holds between the stores before and after each call that the engine makes for a request holds for
the request.** The engine may read a version first; its other calls put no copy away, unless this is what is
requested. -/
theorem related_serve (h : Joins R e.fresh e.session)
    (hget : ∀ item version, e.request.reads? = some (item, version) →
      R s (stateOf (Versions.get (Memory.backend e.fresh) e.session item version s)))
    (hcall : ∀ r, r.discards? = e.request.discards? → R s (s.next ⟨e.fresh, e.session, r⟩)) :
    R s (s.serve naming e) := by
  obtain ⟨f, session, request⟩ := e
  have hsame : ∀ {x : Change Unit} {r : StoreRequest},
      r.run (Memory.backend f) session = (fun () => .done) <$> x → r.discards? = request.discards? →
        R s (stateOf (Call.ofStore x s)) := by
    intro x r hr hdiscards
    rw [stateOf_ofStore_of_run hr]
    exact hcall r hdiscards
  rw [serve, served]
  cases request <;> rw [Request.run, stateOf_map]
  case listItems | listRevisions | deleteVersion => exact h.refl s
  case getItem i =>
    rw [Items.stateOf_get]
    exact h.refl s
  case createItem x => exact h.ofStore (r := .createItem (Item.blank.overlay x)) rfl rfl s
  case updateItem i x => exact h.updateItem x s
  case deleteItem i => exact h.bind_get fun _ => h.ofStore (r := .deleteItem i) rfl rfl s
  case setItemStatus i status => exact h.setItemStatus status s
  case listVersions i =>
    refine related_bind_read (R := R) h.refl h.trans rfl fun _ _ => ?_
    rw [Call.stateOf_ofExcept]
    exact h.refl s
  case getVersion i v => exact hget i v rfl
  case createVersion i base x step =>
    refine h.createVersion (fun id hbase => hget i id ?_) x step
    rw [hbase]
    rfl
  case updateVersion i v x => exact h.updateVersion (hget i v rfl) x
  case setVersionStatus i v status message => exact h.setVersionStatus (hget i v rfl) status message
  case publish i v message => exact hsame (r := .publish i v message) rfl rfl
  case sync i v => exact hsame (r := .sync i v) rfl rfl
  case forceSync i v => exact hsame (r := .forceSync i v) rfl rfl
  case clean i v => exact hsame (r := .clean i v) rfl rfl
  case revert i v revision => exact hsame (r := .revert i v revision) rfl rfl

/-- A request by which a user puts a copy of a version away: by taking the head over, or by throwing the copy
away, or because the engine reads the version for it and finds the copy superseded. -/
def Discards (user tenant item version : String) (s : Store) (e : Event Request) : Prop :=
  e.session = ⟨user, tenant⟩ ∧
    (e.request.discards? = some (item, version) ∨
      e.request.reads? = some (item, version) ∧ (s.shelf tenant item).Superseded user version)

/-- A store call leaves a stranded copy, or deletes its item. -/
theorem held_next {r : StoreRequest} (hitem : item ≠ f.item) (hversion : version ≠ f.version)
    (hkeeps : session = ⟨user, tenant⟩ → r.discards? ≠ some (item, version))
    (h : s.item? tenant item = none ∨ (s.shelf tenant item).Held f user version) :
    (s.next ⟨f, session, r⟩).item? tenant item = none ∨
      ((s.next ⟨f, session, r⟩).shelf tenant item).Held f user version := by
  rcases h with hgone | hheld
  · exact .inl (item?_next_of_gone (e := ⟨f, session, r⟩) hitem hgone)
  · by_cases ht : tenant = session.tenant
    · subst ht
      by_cases hdelete : r = .deleteItem item
      · subst hdelete
        refine .inl ?_
        rw [item?_next]
        exact if_pos ⟨rfl, rfl⟩
      · refine .inr (hheld.effect hversion (effect_next s ⟨f, session, r⟩ item) hdelete fun huser => ?_)
        subst huser
        exact hkeeps rfl
    · rw [shelf_next_of_ne (e := ⟨f, session, r⟩) ht]
      exact .inr hheld

/-- Reading a version leaves a stranded copy, unless the copy is read and superseded. -/
theorem held_get {i v : String} (hconsistent : s.Consistent)
    (hkeeps : session = ⟨user, tenant⟩ → i = item → v = version →
      ¬ (s.shelf tenant item).Superseded user version)
    (h : s.item? tenant item = none ∨ (s.shelf tenant item).Held f user version) :
    let s' := stateOf (Versions.get (Memory.backend f) session i v s)
    s'.item? tenant item = none ∨ (s'.shelf tenant item).Held f user version := by
  intro s'
  have hread := Versions.reads hconsistent f session i v
  have hpulled : s.Pulled session i (some v) s' := hread.pulled_stateOf
  rcases h with hgone | hheld
  · exact .inl ((hpulled.item? tenant item).trans hgone)
  · refine .inr ?_
    obtain ⟨⟨c, e, hc, he, hdirty, hsync⟩, hsynced⟩ := id hheld
    rcases hpulled.copy? tenant item user version with hsame | ⟨rfl, rfl, rfl, hv, -⟩
    · refine ⟨⟨c, e, hsame.trans hc, (hpulled.head? ..).trans he, hdirty, hsync⟩, fun d hd => ?_⟩
      exact hsynced d (hsame.symm.trans hd)
    · obtain rfl := Option.some.inj hv
      have hsame : s' = s := hread.stateOf_of_copy hc (hkeeps rfl rfl rfl)
      rw [hsame]
      exact hheld

/-- A request that does not put a stranded copy away leaves it, or deletes its item. -/
theorem held_serve (hconsistent : s.Consistent) (hitem : item ≠ e.fresh.item)
    (hversion : version ≠ e.fresh.version) (hkeeps : ¬ Discards user tenant item version s e)
    (naming : Calculator)
    (h : s.item? tenant item = none ∨ (s.shelf tenant item).Held e.fresh user version) :
    (s.serve naming e).item? tenant item = none ∨
      ((s.serve naming e).shelf tenant item).Held e.fresh user version := by
  let intact (s : Store) : Prop :=
    s.item? tenant item = none ∨ (s.shelf tenant item).Held e.fresh user version
  have hcall : ∀ s r, (e.session = ⟨user, tenant⟩ → r.discards? ≠ some (item, version)) →
      intact s → intact (s.next ⟨e.fresh, e.session, r⟩) :=
    fun s r hkeeps => held_next hitem hversion hkeeps
  refine related_serve (R := fun s s' => intact s → intact s')
    ⟨fun _ => id, fun h h' hs => h' (h hs), fun s r hr => hcall s r fun _ => ?_⟩ (fun i v hreads => ?_)
    (fun r hr => hcall s r fun hsession hdiscards => ?_) h
  · rw [hr]
    simp
  · refine held_get hconsistent fun hsession hi hv hsuperseded =>
      hkeeps ⟨hsession, .inr ⟨?_, hsuperseded⟩⟩
    rw [hreads, hi, hv]
  · exact hkeeps ⟨hsession, .inl (hr.symm.trans hdiscards)⟩

/-- **A stranded copy stays stranded** until it is put away or its item is deleted, whatever is requested. -/
theorem stranded_afterServing (hknown : s.KnownIds past) (hconsistent : s.Consistent)
    (hfresh : FreshIds history) (hpast : ∀ e ∈ history, ∀ g ∈ past, g.Apart e.fresh)
    (hkeeps : s.Throughout naming (fun s e => ¬ Discards user tenant item version s e) history)
    (h : (s.shelf tenant item).Stranded user version) :
    (s.afterServing naming history).item? tenant item = none ∨
      ((s.afterServing naming history).shelf tenant item).Stranded user version := by
  induction history generalizing s past with
  | nil => exact .inr h
  | cons e history ih =>
      obtain ⟨htail, hpast'⟩ := hfresh.tail hpast
      have hnew := hpast e List.mem_cons_self
      obtain ⟨c, -, hc, -⟩ := id h
      obtain ⟨x, hx⟩ := hknown.item_of_copy hc
      obtain ⟨g, hg, hid⟩ := hknown.item hx
      have hitem : item ≠ e.fresh.item := by
        rw [← hid]
        exact (hnew g hg).item
      have hversion := (hknown.shelf tenant item).version_ne_of_new hnew hc
      rcases held_serve hconsistent hitem hversion hkeeps.1 naming
        (.inr (h.held (hknown.shelf tenant item) hnew)) with hgone | hheld
      · exact .inl (item?_afterServing_of_gone (s := s.serve naming e) hid
          (fun d hd => hpast d (List.mem_cons_of_mem _ hd) g hg) hgone)
      · exact ih (hknown.serve naming e) (hconsistent.serve hknown hnew naming) htail hpast' hkeeps.2
          hheld.1

/-- A stranded copy is not published. -/
theorem reply_publish_of_stranded (naming : Calculator) (hsession : e.session = ⟨user, tenant⟩)
    (hrequest : e.request = .publish item version message)
    (h : s.item? tenant item = none ∨ (s.shelf tenant item).Stranded user version) :
    ∃ error, s.reply naming e = .error error := by
  obtain ⟨error, s', hpublish⟩ : ∃ error s',
      Store.publish e.fresh.revision e.fresh.clock.publish e.session item version message s = .error error s' := by
    rw [hsession, Store.publish, onShelf_eq]
    rcases h with hgone | ⟨c, d, hc, hd, -, hsync⟩
    · rw [hgone]
      exact ⟨_, _, rfl⟩
    · obtain ⟨error, -, hpublish⟩ := Shelf.publish_of_syncState_ne hc (hd ▸ hsync) item
        e.fresh.revision message e.fresh.clock.publish
      cases s.item? tenant item with
      | none => exact ⟨_, _, rfl⟩
      | some x =>
          simp only [hpublish]
          exact ⟨_, _, rfl⟩
  have hcall : Versions.publish (Memory.backend e.fresh) e.session item version message s
      = .error (.ofStore error) s' := Call.ofStore_error hpublish
  rw [reply, served, hrequest, Request.run, answerOf_map, hcall]
  exact ⟨_, rfl⟩

end Store

end VersionCatalog
