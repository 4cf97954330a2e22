import VersionCatalog.Proofs.Publication

/-!
# Footprints

A call on a version writes to one nested table, in places that it often has to make first. What it can
change is nevertheless no more than the caller's copy of that version, and, if it is a publication, the
version's shared copy (`Store.Touches`). It may fail: what it leaves then is subject to the same.

Other users see a version through copies of their own, which stand to the shared copy in some way or other. A
publication changes how they stand, and thereby the status that is shown; nothing else of what they get
changes, and no other call changes anything of it (`Store.version_call_footprint`).

## Main results

* `Shelf.Effect.touches`: what a call changes among the versions of its item.
* `Store.touches_next`: what it changes in the store.
* `Store.Touches.sameCopy`: what others get of a version, before and after.
-/

namespace VersionCatalog

/-- The item and the version whose copy a call is about; a version that is made has a new id. -/
def StoreRequest.place? (f : Fresh) : StoreRequest → Option (String × String)
  | .createVersion item _ => some (item, f.version)
  | .updateVersion item v => some (item, v.id)
  | .publish item version _ | .sync item version | .forceSync item version | .clean item version
  | .revert item version _ => some (item, version)
  | _ => none

/-- Whether a call is a publication. -/
def StoreRequest.isPublish : StoreRequest → Bool
  | .publish .. => true
  | _ => false

/-- Two versions as they are handed out that differ at most in the status and in how the copy stands to the
shared one. -/
structure Version.SameCopy (v w : Version) : Prop where
  content : { v.toContent with status := w.status } = w.toContent
  dirty : v.state.map (·.dirty) = w.state.map (·.dirty)

/-! ### Among the versions of an item -/

namespace Shelf

variable {s s' : Shelf} {f : Fresh} {user item version : String} {r : StoreRequest}

/-- At most one user's copy of one version changes, and the shared copy of that version if the call may publish. -/
structure Touches (s : Shelf) (user version : String) (publishes : Bool) (s' : Shelf) : Prop where
  copies : ∀ u v, ¬ (u = user ∧ v = version) → s'.copy? u v = s.copy? u v
  shared : ∀ v, ¬ (publishes = true ∧ v = version) → s'.shared.get? v = s.shared.get? v

theorem touches_putCopy (s : Shelf) (user version : String) (c : WorkingCopy) (publishes : Bool) :
    s.Touches user version publishes (s.putCopy user version c) where
  copies u v hplace := by rw [copy?_putCopy, if_neg hplace]
  shared _ _ := rfl

theorem touches_append_putCopy (s : Shelf) (user version : String) (e : Entry) (c : WorkingCopy) :
    s.Touches user version true ((s.append version e).putCopy user version c) where
  copies u v hplace := by rw [copy?_putCopy, if_neg hplace, copy?_append]
  shared v hv := by
    change (s.shared.insert version _).get? v = _
    rw [Keyed.get?_insert, if_neg fun h => hv ⟨rfl, h⟩]

theorem touches_dropCopy (s : Shelf) (user version : String) (publishes : Bool) :
    s.Touches user version publishes (s.dropCopy user version) where
  copies u v hplace := by rw [copy?_dropCopy, if_neg hplace]
  shared v _ := by rw [shared_dropCopy]

/-- **What a call changes among the versions of its item.** -/
theorem Effect.touches (h : s.Effect f user item r s') (hplace : r.place? f = some (item, version)) :
    s.Touches user version r.isPublish s' := by
  cases h with
  | idle halike => exact ⟨fun u v _ => (halike.copy? u v).symm, fun v _ => by rw [halike.shared]⟩
  | create | update | revert | pull | merge | overwrite =>
      obtain ⟨-, rfl⟩ := Prod.mk.inj (Option.some.inj hplace)
      exact touches_putCopy ..
  | publish =>
      obtain ⟨-, rfl⟩ := Prod.mk.inj (Option.some.inj hplace)
      exact touches_append_putCopy ..
  | drop =>
      obtain ⟨-, rfl⟩ := Prod.mk.inj (Option.some.inj hplace)
      exact touches_dropCopy ..
  | delete => exact absurd hplace (by simp [StoreRequest.place?])

/-- What a user gets of an unchanged copy changes with the head alone, and only in how it stands to it. -/
theorem sameCopy_of_copy (hcopy : s'.copy? user version = s.copy? user version) :
    Option.Rel Version.SameCopy (s.get? user version) (s'.get? user version) := by
  rw [get?, get?, hcopy]
  cases s.copy? user version with
  | none => exact .none
  | some c => exact .some ⟨rfl, rfl⟩

/-- What a user gets of an unchanged copy stays while the head does. -/
theorem get?_of_copy (hcopy : s'.copy? user version = s.copy? user version)
    (hhead : s'.head? version = s.head? version) : s'.get? user version = s.get? user version := by
  rw [get?, get?, hcopy, hhead]

end Shelf

/-! ### In the store -/

theorem Session.eq_of_names {a b : Session} (huser : a.user = b.user) (htenant : a.tenant = b.tenant) :
    a = b := by
  cases a
  cases b
  cases huser
  cases htenant
  rfl

namespace Store

variable {s s' : Store} {e : Event StoreRequest} {item version : String}

/-- Nothing changes in the store but a session's copy of one version, and the shared copy of that version if
the call may publish. -/
structure Touches (s : Store) (session : Session) (item version : String) (publishes : Bool)
    (s' : Store) : Prop where
  items : ∀ tenant i, s'.item? tenant i = s.item? tenant i
  /-- Not even an entry for the versions of another item comes or goes. -/
  elsewhere : ∀ tenant i, ¬ (tenant = session.tenant ∧ i = item) →
    s'.shelf? tenant i = s.shelf? tenant i
  copies : ∀ tenant i user v,
    ¬ (tenant = session.tenant ∧ i = item ∧ user = session.user ∧ v = version) →
      (s'.shelf tenant i).copy? user v = (s.shelf tenant i).copy? user v
  shared : ∀ tenant i v,
    ¬ (publishes = true ∧ tenant = session.tenant ∧ i = item ∧ v = version) →
      (s'.shelf tenant i).shared.get? v = (s.shelf tenant i).shared.get? v

/-- A call on a version changes the versions of its item. -/
theorem changes?_of_place {r : StoreRequest} {f : Fresh} (h : r.place? f = some (item, version)) :
    r.changes? = some item := by
  cases r with
  | listItems | getItem | createItem | updateItem | deleteItem | listVersions | getVersion
    | deleteVersion | listRevisions => exact absurd h (by simp [StoreRequest.place?])
  | createVersion | updateVersion | publish | sync | forceSync | clean | revert =>
      exact congrArg some (Prod.mk.inj (Option.some.inj h)).1

/-- A publication publishes the version that it is about. -/
theorem exists_publish {r : StoreRequest} {f : Fresh} (h : r.place? f = some (item, version))
    (hpublish : r.isPublish = true) : ∃ message, r = .publish item version message := by
  cases r with
  | publish i v message =>
      obtain ⟨rfl, rfl⟩ := Prod.mk.inj (Option.some.inj h)
      exact ⟨message, rfl⟩
  | _ => exact absurd hpublish (by simp [StoreRequest.isPublish])

/-- **What a call on a version changes in the store.** -/
theorem touches_next (s : Store) (hplace : e.request.place? e.fresh = some (item, version)) :
    s.Touches e.session item version e.request.isPublish (s.next e) := by
  have hchanges := changes?_of_place hplace
  have hshelf := (effect_next s e item).touches hplace
  have helsewhere : ∀ tenant i, ¬ (tenant = e.session.tenant ∧ i = item) →
      (s.next e).shelf? tenant i = s.shelf? tenant i := by
    intro tenant i hne
    rcases shelf?_next (s := s) (e := e) (t := tenant) (i := i) fun ht hi =>
      absurd ⟨ht, Option.some.inj (hi.symm.trans hchanges)⟩ hne with hsame | ⟨hdelete, -⟩
    · exact hsame
    · rw [hdelete] at hplace
      exact absurd hplace (by simp [StoreRequest.place?])
  constructor
  case items =>
    intro tenant i
    obtain ⟨f, session, r⟩ := e
    obtain ⟨α, change, answer, hrun⟩ := run_eq_onShelf hchanges f session
    rw [next, result, hrun, stateOf_map]
    exact item?_onShelf ..
  case elsewhere => exact helsewhere
  case copies =>
    intro tenant i user v hne
    by_cases hhere : tenant = e.session.tenant ∧ i = item
    · obtain ⟨rfl, rfl⟩ := hhere
      exact hshelf.copies user v fun h => hne ⟨rfl, rfl, h⟩
    · rw [shelf_eq, shelf_eq, helsewhere tenant i hhere]
  case shared =>
    intro tenant i v hne
    by_cases hhere : tenant = e.session.tenant ∧ i = item
    · obtain ⟨rfl, rfl⟩ := hhere
      exact hshelf.shared v fun h => hne ⟨h.1, rfl, rfl, h.2⟩
    · rw [shelf_eq, shelf_eq, helsewhere tenant i hhere]

namespace Touches

variable {session reader : Session} {publishes : Bool} {i v : String}

/-- What anybody gets of a version, but the caller of the one that the call is about, is the same copy. -/
theorem sameCopy (h : s.Touches session item version publishes s')
    (hother : ¬ (reader = session ∧ i = item ∧ v = version)) :
    Option.Rel Version.SameCopy (s.getVersion reader i v) (s'.getVersion reader i v) :=
  Shelf.sameCopy_of_copy (h.copies reader.tenant i reader.user v fun ⟨ht, hi, hu, hv⟩ =>
    hother ⟨Session.eq_of_names hu ht, hi, hv⟩)

/-- It is the same altogether, unless the version is published. -/
theorem getVersion_eq (h : s.Touches session item version publishes s')
    (hother : ¬ (reader = session ∧ i = item ∧ v = version))
    (hquiet : ¬ (publishes = true ∧ reader.tenant = session.tenant ∧ i = item ∧ v = version)) :
    s'.getVersion reader i v = s.getVersion reader i v := by
  refine Shelf.get?_of_copy (h.copies reader.tenant i reader.user v fun ⟨ht, hi, hu, hv⟩ =>
    hother ⟨Session.eq_of_names hu ht, hi, hv⟩) ?_
  rw [Shelf.head?, Shelf.head?, h.shared reader.tenant i v hquiet]

end Touches

/-- **The footprint of a call on a version**, in any store, whether it succeeds or not. It changes nothing but
the caller's copy of the version, and the shared copy of it if it is a publication. What others get of any
version, and the caller of any other one, can then change in nothing but the status and in how the copy stands
to the shared one; and it changes only when the version is published. -/
theorem version_call_footprint (s : Store) (e : Event StoreRequest) (item version : String)
    (hplace : e.request.place? e.fresh = some (item, version)) :
    s.Touches e.session item version e.request.isPublish (s.next e) ∧
    ∀ reader i v, ¬ (reader = e.session ∧ i = item ∧ v = version) →
      Option.Rel Version.SameCopy (s.getVersion reader i v) ((s.next e).getVersion reader i v) ∧
      ((s.next e).getVersion reader i v ≠ s.getVersion reader i v →
        reader.tenant = e.session.tenant ∧ ∃ message, e.request = .publish i v message) := by
  have htouches := s.touches_next hplace
  refine ⟨htouches, fun reader i v hother => ⟨htouches.sameCopy hother, fun hchanged => ?_⟩⟩
  by_cases hpublish : e.request.isPublish = true ∧ reader.tenant = e.session.tenant ∧
      i = item ∧ v = version
  · obtain ⟨hpublish, htenant, rfl, rfl⟩ := hpublish
    exact ⟨htenant, exists_publish hplace hpublish⟩
  · exact absurd (htouches.getVersion_eq hother hpublish) hchanged

/-- The first user certifies the version that both have. -/
def certifiedEdit : Event StoreRequest :=
  ⟨⟨"i5", "v5", "r5", noon⟩, ⟨"alice", "acme"⟩,
    .updateVersion "i1" { Version.blank with id := "v2", status := .certified }⟩

/-- What the other user gets of a version goes from a draft that is up to date to a certified one that is out of
sync when the first user publishes it; the content is that of the draft. -/
theorem certification_seen_by_other :
    let bob : Session := ⟨"bob", "acme"⟩
    let before := (Store.empty.after (twoUsers.take 4)).next certifiedEdit
    let now := before.next secondPublication
    secondPublication.request.place? secondPublication.fresh = some ("i1", "v2") ∧
      before.Touches ⟨"alice", "acme"⟩ "i1" "v2" true now ∧
      Option.Rel Version.SameCopy (before.getVersion bob "i1" "v2") (now.getVersion bob "i1" "v2") ∧
      (before.getVersion bob "i1" "v2").map (fun v => (v.status, v.state))
        = some (.draft, some ⟨.upToDate, false⟩) ∧
      (now.getVersion bob "i1" "v2").map (fun v => (v.status, v.state))
        = some (.certified, some ⟨.outOfSync, false⟩) ∧
      now.getVersion bob "i1" "v2" ≠ before.getVersion bob "i1" "v2" := by
  intro bob before now
  have hplace : secondPublication.request.place? secondPublication.fresh = some ("i1", "v2") := rfl
  obtain ⟨htouches, hothers⟩ :=
    version_call_footprint before secondPublication "i1" "v2" hplace
  have hbefore : (before.getVersion bob "i1" "v2").map (fun v => (v.status, v.state))
      = some (.draft, some ⟨.upToDate, false⟩) := rfl
  have hnow : (now.getVersion bob "i1" "v2").map (fun v => (v.status, v.state))
      = some (.certified, some ⟨.outOfSync, false⟩) := rfl
  refine ⟨hplace, htouches, (hothers bob "i1" "v2" (by decide)).1, hbefore, hnow, fun hsame => ?_⟩
  rw [hsame, hbefore] at hnow
  exact absurd hnow (by decide)

end Store

end VersionCatalog
