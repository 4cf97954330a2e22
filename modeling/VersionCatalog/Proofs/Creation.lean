import VersionCatalog.Proofs.Growth
import VersionCatalog.Proofs.Lifecycle
import VersionCatalog.Proofs.Reading

/-!
# Making a version

To make a version the engine reads its base, names it, makes a copy of it for the caller, counts it, and
publishes it. Each of these is a call of its own, and nothing is undone when one fails. But after the copy is
made no call can fail: the name that was free is still free, the item is still there, and the new id is in use
nowhere, so the copy can be published. So a version is made as a whole or not at all; a request that fails has
at most pulled its base.

## Main results

* `Store.Adds`: one publication, and a new record of its item, as all that changes in what is shared.
* `Store.Orderly.create_cases`: what comes of making a version.
* `Store.creation_all_or_nothing`: the same after every history of requests.
-/

namespace VersionCatalog

variable {naming : Calculator} {past : List Fresh} {f : Fresh} {session : Session}
  {tenant item user version : String} {s s' s'' : Store}

/-! ### Counts as words -/

namespace Tally

theorem get?_add_self (t : Tally) (status : VersionStatus) :
    (t.add status).get? status = some (.ofNat (t.count status + 1)) := by
  rw [add, get?_set_self, count, UInt32.ofNat_add, UInt32.ofNat_toNat]
  rfl

theorem get?_add_of_ne {status status' : VersionStatus} (h : status' ≠ status) (t : Tally) :
    (t.add status).get? status' = t.get? status' :=
  get?_set_of_ne h ..

end Tally

/-! ### Adding a publication -/

namespace Store

/-- An item becomes `y`, and one publication is added to one of its versions. All other items are the same,
and all else that is shared. -/
structure Adds (tenant item : String) (y : Item) (version : String) (e : Entry) (s s' : Store) :
    Prop where
  item? : ∀ t i, s'.item? t i = if t = tenant ∧ i = item then some y else s.item? t i
  shared : ∀ t i v, (s'.shelf t i).shared.get? v =
    if t = tenant ∧ i = item ∧ v = version then some ⟨(s.shelf t i).entries v ++ [e]⟩
    else (s.shelf t i).shared.get? v

namespace Adds

variable {y : Item} {e : Entry}

theorem entries (h : s.Adds tenant item y version e s') :
    (s'.shelf tenant item).entries version = (s.shelf tenant item).entries version ++ [e] := by
  rw [Shelf.entries, h.shared, if_pos ⟨rfl, rfl, rfl⟩]
  rfl

/-- The heads of other versions stay. -/
theorem head?_of_ne (h : s.Adds tenant item y version e s') {other : String} (hne : other ≠ version) :
    (s'.shelf tenant item).head? other = (s.shelf tenant item).head? other := by
  rw [Shelf.head?, h.shared, if_neg fun hplace => hne hplace.2.2, Shelf.head?]

/-- Before an addition copies may have been pulled. -/
theorem of_sameShared (h : s.SameShared s') (hadds : s'.Adds tenant item y version e s'') :
    s.Adds tenant item y version e s'' where
  item? t i := by rw [hadds.item?, h.item?]
  shared t i v := by rw [hadds.shared, h.entries, h.shared]

/-- The user publishes a content, and the item is described anew. -/
theorem published (s : Store) (hid : y.id = item) (message : String) (content : Content) :
    s.Adds tenant item y version ⟨⟨f.revision, message, f.clock.publish, user⟩, content⟩
      ((s.putItem tenant y).putShelf tenant item
        ((s.shelf tenant item).published f user version message content)) where
  item? t i := by rw [item?_putShelf, item?_putItem, hid]
  shared t i v := by
    rw [shelf_putShelf, shelf_putItem]
    by_cases hplace : t = tenant ∧ i = item
    · obtain ⟨rfl, rfl⟩ := hplace
      simp only [and_self, true_and, if_true]
      change ((s.shelf t i).shared.insert version _).get? v = _
      rw [Keyed.get?_insert]
      split
      · rename_i hv
        subst hv
        rfl
      · rfl
    · rw [if_neg hplace, if_neg fun h => hplace ⟨h.1, h.2.1⟩]

end Adds

end Store

/-! ### The base and the name -/

/-- The name that is calculated for a version that is made in a step from a shared base, or from none. -/
inductive Shelf.Calculates (naming : Calculator) (s : Shelf) (step : Step) (name : String) :
    Option String → Prop
  | root (hname : naming.calculate none step = .ok name) : Calculates naming s step name none
  | branch {base : String} {e : Entry} (hhead : s.head? base = some e)
      (hname : naming.calculate (some e.content.name) step = .ok name) :
      Calculates naming s step name (some base)

/-- What is stored of a version that a request describes, if it is made now. -/
def Version.asDraft (request : Version) (base : Option String) (name : String) (f : Fresh) :
    Content where
  id := f.version
  base := base
  name := name
  status := .draft
  description := request.description
  created := some f.clock.createVersion
  modified := some f.clock.createVersion
  properties := request.properties

theorem Version.asNew_overlay (request : Version) (base : Option String) (name : String) (f : Fresh) :
    ({ Version.blank.overlay request with base := base, name := name } : Version).asNew f.version f.clock.createVersion
      = request.asDraft base name f := by
  rw [asDraft, ← Keyed.empty_overlay request.properties]
  rfl

namespace Store.Orderly

/-- **Reading the base of a new version**, if it has one: it is shared, and its name is read. -/
theorem read_base (horderly : s.Orderly anyStatus past) (hconsistent : s.Consistent)
    (hnew : ∀ g ∈ past, g.Apart f) (naming : Calculator) (session : Session) (item : String)
    (base : Option String) :
    let read : Call Store (Option Version) := base.elim (pure none) fun id =>
      some <$> Versions.certifiedBase (Memory.backend f) session item id
    s.Pulled session item base (stateOf (read s)) ∧ (stateOf (read s)).Orderly anyStatus past ∧
      ∀ b s₁, read s = .ok b s₁ → b.map (·.id) = base ∧
        ∀ step name, naming.calculate (b.map (·.name)) step = .ok name →
          (s.shelf session.tenant item).Calculates naming step name base := by
  intro read
  cases base with
  | none =>
      refine ⟨.refl s, horderly, fun b s₁ hread => ?_⟩
      cases hread
      exact ⟨rfl, fun step name hname => .root hname⟩
  | some id =>
      have hstate : stateOf (read s)
          = stateOf (Versions.get (Memory.backend f) session item id s) := by
        rw [← Versions.stateOf_certifiedBase]
        exact stateOf_map ..
      have hpulled := (Versions.reads hconsistent f session item id).pulled_stateOf
      have hread := (horderly.get anyStatus_self hnew session item id).2
      rw [hstate]
      refine ⟨hpulled, hread, fun b s₁ hb => ?_⟩
      obtain ⟨v, hv, rfl⟩ := map_eq_ok.1 hb
      obtain ⟨hget, -⟩ := Versions.certifiedBase_eq_ok.1 hv
      rw [hget, stateOf_ok] at hpulled hread
      have hsound := hread.sound session.tenant item
      obtain ⟨c, e, hc, he, hid, hname, -⟩ := hsound.of_get? (Versions.get?_of_get hget)
      refine ⟨congrArg some hid, fun step name hcalculated => ?_⟩
      have hnamed : v.name = e.content.name := hname.trans (hsound.origin_of_copy hc he).name
      rw [Option.map_some, hnamed] at hcalculated
      exact .branch (hpulled.head? .. ▸ he) hcalculated

/-- **What comes of making a version.** -/
theorem create_cases (horderly : s.Orderly anyStatus past) (hconsistent : s.Consistent)
    (hnew : ∀ g ∈ past, g.Apart f) (naming : Calculator) (session : Session) (item : String)
    (base : Option String) (request : Version) (step : Step) :
    let result := Versions.create (Memory.backend f) naming session item base request step s
    (∃ error s', result = .error error s' ∧ s.Pulled session item base s') ∨
      ∃ x name s', s.item? session.tenant item = some x ∧
        (s.shelf session.tenant item).Calculates naming step name base ∧
        result = .ok ⟨request.asDraft base name f, some ⟨.upToDate, false⟩⟩ s' ∧
        s.Adds session.tenant item { x with tally := x.tally.add .draft, modified := some f.clock.updateItem }
          f.version
          ⟨⟨f.revision, s!"Create version: {name}", f.clock.publish, session.user⟩, request.asDraft base name f⟩
          s' := by
  intro result
  obtain ⟨hpulled, hread, hbase⟩ :=
    horderly.read_base hconsistent hnew naming session item base
  have hresult : result = _ := congrFun (Versions.create_eq ..) s
  cases hb : base.elim (pure none) (fun id =>
      some <$> Versions.certifiedBase (Memory.backend f) session item id) s with
  | error error s₁ =>
      rw [hb] at hpulled
      exact .inl ⟨error, s₁, hresult.trans (bind_error hb), hpulled⟩
  | ok b s₁ =>
      rw [hb] at hpulled hread
      obtain ⟨hid, hcalculated⟩ := hbase b s₁ hb
      replace hresult := hresult.trans (bind_ok hb)
      cases hname : naming.calculate (b.map (·.name)) step with
      | error error =>
          rw [hname] at hresult
          exact .inl ⟨error, s₁, hresult, hpulled⟩
      | ok name =>
          have hlist : Call.ofStore ((Memory.backend f).listVersions session item) s₁
              = .ok (s₁.shelf session.tenant item).list s₁ := rfl
          replace hresult := hresult.trans ((bind_ok (Call.ofExcept_ok hname s₁)).trans (bind_ok hlist))
          split at hresult
          · exact .inl ⟨_, s₁, hresult, hpulled⟩
          · rw [hid] at hresult
            rcases hread.create_result hnew session item
                { Version.blank.overlay request with base := base, name := name } with
              ⟨error, s', hnamed, halike⟩ | ⟨x, hx, -, hnamed⟩
            · exact .inl ⟨_, s', hresult.trans hnamed, hpulled.trans_alike halike⟩
            · rw [Version.asNew_overlay] at hnamed
              refine .inr ⟨x, name, _, (hpulled.item? ..).symm.trans hx, hcalculated step name hname,
                hresult.trans hnamed, .of_sameShared hpulled.toSameShared ?_⟩
              have hxid := hread.known.id_of_item hx
              exact .published (y := { x with tally := x.tally.add .draft, modified := some f.clock.updateItem })
                s₁ hxid ..

end Store.Orderly

/-! ### Creations after a history -/

namespace Store

variable {history : List (Event Request)}

/-- **A version is made as a whole or not at all.** Take any history of requests of any users, failing ones
included, and then a request to make a version, with new ids.

* If it fails, all items and all that is shared are the same as before, and so are all copies, but that the
  caller's copy of the base may have become one of the base's head.
* If it succeeds, its id was in use nowhere. Now one revision is shared under it, by the caller, of a draft
  with the description and the properties that were asked for, the name that is calculated, and the base that
  was given, whatever else the request said. The item counts one draft more (as far as a word goes) and is
  changed now, and nothing else is different in any item or in what is shared. The answer is what was made, up
  to date and without edits. -/
theorem creation_all_or_nothing (naming : Calculator) (hfresh : FreshIds history) {f : Fresh}
    (hnew : ∀ past ∈ history.map (·.fresh), past.Apart f) (session : Session) (item : String)
    (base : Option String) (request : Version) (step : Step) :
    let s := empty.afterServing naming history
    let shelf := s.shelf session.tenant item
    let result := Versions.create (Memory.backend f) naming session item base request step s
    (∀ error s', result = .error error s' → s.Pulled session item base s') ∧
    ∀ v s', result = .ok v s' →
      (∀ t i, (s.shelf t i).shared.get? f.version = none ∧
        ∀ user, (s.shelf t i).copy? user f.version = none) ∧
      ∃ x tally name,
        s.item? session.tenant item = some x ∧
        tally.get? .draft = some (.ofNat (x.tally.count .draft + 1)) ∧
        tally.get? .certified = x.tally.get? .certified ∧
        shelf.Calculates naming step name base ∧
        let content : Content :=
          { id := f.version, base := base, name := name, status := .draft,
            description := request.description, created := some f.clock.createVersion, modified := some f.clock.createVersion,
            properties := request.properties }
        let entry : Entry :=
          ⟨⟨f.revision, s!"Create version: {name}", f.clock.publish, session.user⟩, content⟩
        v = ⟨content, some ⟨.upToDate, false⟩⟩ ∧
        (s'.shelf session.tenant item).shared.get? f.version = some ⟨[entry]⟩ ∧
        s.Adds session.tenant item { x with tally := tally, modified := some f.clock.updateItem } f.version entry
          s' := by
  have horderly := orderly_afterServing naming hfresh
  have hconsistent := consistent_afterServing naming hfresh
  intro s shelf result
  have hunused : ∀ t i, (s.shelf t i).shared.get? f.version = none ∧
      ∀ user, (s.shelf t i).copy? user f.version = none := by
    intro t i
    have hknown := horderly.known.shelf t i
    exact ⟨(hconsistent.shelf t i).get?_shared_of_head? (hknown.head?_of_new hnew),
      fun _ => hknown.copy?_of_new hnew⟩
  rcases horderly.create_cases hconsistent hnew naming session item base request step with
    ⟨error, s', hresult, hpulled⟩ | ⟨x, name, s', hx, hname, hresult, hadds⟩
  · refine ⟨fun error' s'' herror => ?_, fun v s'' hok => ?_⟩
    · cases hresult.symm.trans herror
      exact hpulled
    · cases hresult.symm.trans hok
  · refine ⟨fun error s'' herror => ?_, fun v s'' hok => ⟨hunused, x, _, name, hx,
      x.tally.get?_add_self .draft, x.tally.get?_add_of_ne (by simp), hname, ?_⟩⟩
    · cases hresult.symm.trans herror
    · cases hresult.symm.trans hok
      refine ⟨rfl, ?_, hadds⟩
      rw [hadds.shared, if_pos ⟨rfl, rfl, rfl⟩, Shelf.entries, (hunused session.tenant item).1]
      rfl

/-- A request that says more than it may. -/
def boldRequest : Version :=
  { Version.blank with
    id := "v2"
    base := some "v9"
    name := "7.0"
    status := .certified
    description := "next"
    state := some ⟨.merging, true⟩ }

/-- What is made of it, one minor step from the certified version: a draft under the next name. -/
theorem draft_of_boldRequest :
    let s := empty.afterServing .standard certification
    let f : Fresh := ⟨"i4", "v4", "r4", noon⟩
    let content : Content := { Content.blank with
      id := "v4", base := some "v2", name := "1.1", description := "next", created := some noon,
      modified := some noon }
    FreshIds certification ∧ (∀ past ∈ certification.map (·.fresh), past.Apart f) ∧
      ∃ s', Versions.create (Memory.backend f) .standard ⟨"bob", "acme"⟩ "i1" (some "v2") boldRequest
          .minor s = .ok ⟨content, some ⟨.upToDate, false⟩⟩ s' ∧
        (s'.shelf "acme" "i1").shared.get? "v4"
          = some ⟨[⟨⟨"r4", "Create version: 1.1", noon, "bob"⟩, content⟩]⟩ ∧
        ∃ x, s'.item? "acme" "i1" = some x ∧ x.tally.get? .draft = some 1 ∧
          x.tally.get? .certified = some 1 := by
  intro s f content
  have hfresh : FreshIds certification := by decide
  have hnew : ∀ past ∈ certification.map (·.fresh), past.Apart f := by decide
  have hanswer : answerOf (Versions.create (Memory.backend f) .standard ⟨"bob", "acme"⟩ "i1"
      (some "v2") boldRequest .minor s) = .ok ⟨content, some ⟨.upToDate, false⟩⟩ := by decide +kernel
  have hcreate := eq_ok_of_answerOf hanswer
  obtain ⟨-, x, tally, name, hx, hdraft, hcertified, -, hv, hshared, hadds⟩ :=
    (creation_all_or_nothing .standard hfresh hnew ⟨"bob", "acme"⟩ "i1" (some "v2") boldRequest
      .minor).2 _ _ hcreate
  obtain rfl : "1.1" = name := congrArg (fun v : Version => v.name) hv
  have hbefore : (s.item? "acme" "i1").map (fun x => (x.tally.count .draft, x.tally.get? .certified))
      = some (0, some 1) := by decide +kernel
  rw [hx, Option.map_some, Option.some.injEq, Prod.mk.injEq] at hbefore
  have hitem := hadds.item? "acme" "i1"
  rw [if_pos ⟨rfl, rfl⟩] at hitem
  exact ⟨hfresh, hnew, _, hcreate, hshared, _, hitem, hdraft.trans (by rw [hbefore.1]; rfl),
    hcertified.trans hbefore.2⟩

end Store

end VersionCatalog
