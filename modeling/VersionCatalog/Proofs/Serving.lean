import VersionCatalog.Proofs.Moved

/-!
# What the engine does for a request

Each request of the engine, executed over the memory backend, makes some of the engine's moves on the item
that it names and leaves all other items as they were, whether it succeeds or fails. Only an item's making
and its deletion are no moves.

## Main results

* `Store.Orderly.moved_updateStatus`, `Store.Orderly.moved_create`: the engine's longest calls, in moves.
* `Store.Orderly.changed_serve`: what a request does, in moves.
* `Store.Orderly.serve`, `Store.Orderly.afterServing_of_allowed`: requests keep the store orderly.
-/

namespace VersionCatalog

variable {P : VersionStatus → VersionStatus → Prop} {past : List Fresh} {f : Fresh}
  {session : Session} {item version : String} {s s' : Store}

/-! ### Reading a version -/

namespace Versions

theorem getVersion_eq : (Memory.backend f).getVersion session item version s
    = .ok ((s.shelf session.tenant item).get? session.user version) s := rfl

/-- Looking at the outcome of a call changes nothing. -/
theorem refetch_eq (after : String) (s : Store) :
    refetch (Memory.backend f) session item version after s =
      match (s.shelf session.tenant item).get? session.user version with
      | some v => .ok v s
      | none => .error (.internalConsistency
          s!"version {version} of item {item} is missing after {after}") s := by
  rw [refetch, bind_ok (Call.ofStore_ok getVersion_eq)]
  cases (s.shelf session.tenant item).get? session.user version <;> rfl

theorem get_eq (s : Store) : get (Memory.backend f) session item version s =
    match (s.shelf session.tenant item).get? session.user version with
    | some v =>
      if v.isCertified && v.isOutOfSync then
        (Call.ofStore (Store.forceSync session item version) >>= fun _ =>
          refetch (Memory.backend f) session item version "force sync") s
      else .ok v s
    | none =>
      (Call.ofStore (Store.sync session item version) >>= fun _ =>
        refetch (Memory.backend f) session item version "sync") s := by
  rw [get, bind_ok (Call.ofStore_ok getVersion_eq)]
  cases (s.shelf session.tenant item).get? session.user version with
  | none => rfl
  | some v =>
      dsimp only
      split <;> rfl

theorem stateOf_refetch (after : String) (s : Store) :
    stateOf (refetch (Memory.backend f) session item version after s) = s := by
  rw [refetch_eq]
  cases (s.shelf session.tenant item).get? session.user version <;> rfl

theorem get?_of_refetch {after : String} {v : Version}
    (h : refetch (Memory.backend f) session item version after s = .ok v s') :
    (s'.shelf session.tenant item).get? session.user version = some v := by
  rw [refetch_eq] at h
  split at h
  · cases h
    assumption
  · cases h

/-- A call of the store whose outcome the engine looks at. -/
theorem stateOf_bind_refetch (x : Change Unit) (after : String) (s : Store) :
    stateOf ((Call.ofStore x >>= fun _ =>
      refetch (Memory.backend f) session item version after) s) = stateOf (x s) := by
  cases hx : x s with
  | ok a s₁ =>
      rw [bind_ok (Call.ofStore_ok hx), stateOf_refetch]
      rfl
  | error e s₁ =>
      rw [bind_error (Call.ofStore_error hx)]
      rfl

theorem get?_of_bind_refetch {x : Change Unit} {after : String} {v : Version}
    (h : (Call.ofStore x >>= fun _ =>
      refetch (Memory.backend f) session item version after) s = .ok v s') :
    (s'.shelf session.tenant item).get? session.user version = some v := by
  cases hx : x s with
  | ok a s₁ =>
      rw [bind_ok (Call.ofStore_ok hx)] at h
      exact get?_of_refetch h
  | error e s₁ =>
      rw [bind_error (Call.ofStore_error hx)] at h
      cases h

theorem stateOf_certifiedBase (base : String) (s : Store) :
    stateOf (certifiedBase (Memory.backend f) session item base s)
      = stateOf (get (Memory.backend f) session item base s) := by
  cases hget : get (Memory.backend f) session item base s with
  | ok v s₁ =>
      rw [certifiedBase, bind_ok hget]
      cases v.isCertified <;> rfl
  | error e s₁ => rw [certifiedBase, bind_error hget]

/-- A base is a version that is read as certified. -/
theorem certifiedBase_eq_ok {base : String} {v : Version} :
    certifiedBase (Memory.backend f) session item base s = .ok v s' ↔
      get (Memory.backend f) session item base s = .ok v s' ∧ v.isCertified = true := by
  rw [certifiedBase]
  cases hget : get (Memory.backend f) session item base s with
  | ok w s₁ =>
      rw [bind_ok hget]
      cases hw : w.isCertified with
      | true =>
          constructor
          · rintro ⟨⟩
            exact ⟨rfl, hw⟩
          · rintro ⟨⟨⟩, -⟩
            rfl
      | false =>
          constructor
          · rintro ⟨⟩
          · rintro ⟨⟨⟩, hcertified⟩
            exact absurd (hw.symm.trans hcertified) (by simp)
  | error e s₁ =>
      rw [bind_error hget]
      simp

/-- The engine reads what the user's copy is when it has answered. -/
theorem get?_of_get {v : Version} (h : get (Memory.backend f) session item version s = .ok v s') :
    (s'.shelf session.tenant item).get? session.user version = some v := by
  rw [get_eq] at h
  split at h
  · split at h
    · exact get?_of_bind_refetch h
    · cases h
      assumption
  · exact get?_of_bind_refetch h

/-- To read a version the engine does nothing but pull it, in one of two ways. -/
theorem stateOf_get (f : Fresh) (session : Session) (item version : String) (s : Store) :
    stateOf (get (Memory.backend f) session item version s) = s ∨
      ∃ r : StoreRequest, r.isPlain = true ∧ r.takesId = false ∧
        (∀ item version revision, r ≠ .revert item version revision) ∧
        stateOf (get (Memory.backend f) session item version s) = s.next ⟨f, session, r⟩ := by
  rw [get_eq]
  split
  · split
    · refine .inr ⟨.forceSync item version, rfl, rfl, by simp, ?_⟩
      rw [stateOf_bind_refetch]
      exact (stateOf_map _ _ s).symm
    · exact .inl rfl
  · refine .inr ⟨.sync item version, rfl, rfl, by simp, ?_⟩
    rw [stateOf_bind_refetch]
    exact (stateOf_map _ _ s).symm

end Versions

namespace Store.Orderly

/-- Reading a version is a move, and uses no new id. -/
theorem get (h : s.Orderly P past) (hP : ∀ status, P status status)
    (hnew : ∀ g ∈ past, g.Apart f) (session : Session) (item version : String) :
    Moved P f session.user s
        (stateOf (Versions.get (Memory.backend f) session item version s)) ∧
      (stateOf (Versions.get (Memory.backend f) session item version s)).Orderly P past := by
  rcases Versions.stateOf_get f session item version s with
    hsame | ⟨r, hplain, hunused, hrevert, hnext⟩
  · rw [hsame]
    exact ⟨.refl s, h⟩
  · rw [hnext]
    have hmoved : Moved P f session.user s (s.next ⟨f, session, r⟩) :=
      h.next (e := ⟨f, session, r⟩) hplain hnew fun item version revision hr =>
        absurd hr (hrevert item version revision)
    refine ⟨hmoved, h.moved hP hmoved (h.known.next_of_mem fun hused => ?_)⟩
    rw [hunused] at hused
    exact absurd hused (by simp)

end Store.Orderly

/-! ### Changing a version -/

namespace Versions

/-- An item's tally is changed where the item is. -/
theorem updateTally_eq {x : Item} (hx : s.item? session.tenant item = some x) (hid : x.id = item)
    (change : Tally → Tally) :
    updateTally (Memory.backend f) session item change s =
      .ok () (s.putItem session.tenant
        { x with tally := change x.tally, modified := some f.clock.updateItem }) := by
  have hget : (Memory.backend f).getItem session item s = .ok (some x) s := by
    rw [← hx]
    rfl
  rw [updateTally, bind_ok (Call.ofStore_ok hget)]
  refine Call.ofStore_ok ?_
  change Store.updateItem f.clock.updateItem session _ s = _
  rw [Store.updateItem_eq]
  simp only [hid, hx]

end Versions

namespace Store.Orderly

variable {c : WorkingCopy} {e : Entry} {x : Item} {v : Version}

/-- An edit of the user's copy, through the store. -/
theorem updateVersion_eq (hx : s.item? session.tenant item = some x)
    (hc : (s.shelf session.tenant item).copy? session.user version = some c) (hid : v.id = version) :
    Store.updateVersion f.clock.updateVersion session item v s =
      .ok () (s.putShelf session.tenant item ((s.shelf session.tenant item).putCopy session.user
        version { c with content := c.content.edited v f.clock.updateVersion, dirty := true })) := by
  subst hid
  refine onShelf_ok hx ?_
  rw [Shelf.update, hc]
  rfl

/-- An edit with a status that is allowed is a move. -/
theorem edit (h : s.Orderly P past)
    (hget : (s.shelf session.tenant item).get? session.user version = some v) {request : Version}
    (hid : request.id = v.id) (hname : request.name = v.name) (hstatus : request.status = v.status) :
    Moved P f session.user s (stateOf (Store.updateVersion f.clock.updateVersion session item request s)) := by
  have hsound := h.sound session.tenant item
  obtain ⟨c, e, hc, he, hversion, hvname, hcurrent, -⟩ := hsound.of_get? hget
  obtain ⟨x, hx⟩ := h.known.item_of_copy hc
  rw [updateVersion_eq hx hc (hid.trans hversion)]
  refine .putShelf (.edit hc (.edited _ (hname.trans hvname) _) fun {d} hd hsync => ?_)
  obtain rfl := Option.some.inj (he.symm.trans hd)
  change P _ request.status
  rw [hstatus, hcurrent hsync]
  exact hsound.steady hc he hsync

/-- What follows when the engine takes a version forward: the copy is edited, and published if it was made
from the head. -/
theorem certify_result (h : s.Orderly P past)
    (hget : (s.shelf session.tenant item).get? session.user version = some v)
    (hx : s.item? session.tenant item = some x)
    (hc : (s.shelf session.tenant item).copy? session.user version = some c)
    (he : (s.shelf session.tenant item).head? version = some e)
    (status : VersionStatus) (message : String) :
    let b := Memory.backend f
    let shelf := s.shelf session.tenant item
    let request := { v with status := status }
    let content := c.content.edited request f.clock.updateVersion
    let edited := { c with content := content, dirty := true }
    let result := (Call.ofStore (b.updateVersion session item request) >>= fun _ =>
      Call.ofStore (b.publish session item version message) >>= fun _ =>
        Versions.updateTally b session item fun t => (t.add status).remove v.status) s
    (c.syncState (some e) = .upToDate ∧
        result = .ok () ((s.putShelf session.tenant item
            (shelf.published f session.user version message content)).putItem session.tenant
          { x with
            tally := (x.tally.add status).remove v.status
            modified := some f.clock.updateItem })) ∨
      (c.syncState (some e) ≠ .upToDate ∧
        ∃ error : StoreError, error.isConflict = true ∧
          result = .error (.ofStore error)
            (s.putShelf session.tenant item (shelf.putCopy session.user version edited))) := by
  intro b shelf request content edited result
  have hsound := h.sound session.tenant item
  obtain ⟨d, e', hd, -, hversion, hname, -⟩ := hsound.of_get? hget
  obtain rfl := Option.some.inj (hc.symm.trans hd)
  have hcontent : content.SameOrigin c.content := ⟨rfl, rfl, hname, rfl⟩
  have hupdate : b.updateVersion session item request s
      = .ok () (s.putShelf session.tenant item (shelf.putCopy session.user version edited)) :=
    updateVersion_eq hx hc hversion
  have hresult : result = (Call.ofStore (b.publish session item version message) >>= fun _ =>
      Versions.updateTally b session item fun t => (t.add status).remove v.status)
        (s.putShelf session.tenant item (shelf.putCopy session.user version edited)) :=
    bind_ok (Call.ofStore_ok hupdate)
  by_cases hcurrent : c.syncState (some e) = .upToDate
  · have hpublish : b.publish session item version message
        (s.putShelf session.tenant item (shelf.putCopy session.user version edited))
        = .ok () (s.putShelf session.tenant item
            (shelf.published f session.user version message content)) :=
      onShelf_putShelf_ok hx (hsound.publish_edited hc he hcontent hcurrent)
    refine .inl ⟨hcurrent, ?_⟩
    rw [hresult, bind_ok (Call.ofStore_ok hpublish)]
    exact Versions.updateTally_eq (by rw [item?_putShelf, hx]) (h.known.id_of_item hx) _
  · have hbehind : edited.syncState
        ((shelf.putCopy session.user version edited).head? version) ≠ .upToDate := by
      rw [Shelf.head?_putCopy, he]
      exact hcurrent
    obtain ⟨error, hconflict, hfails⟩ := Shelf.publish_of_syncState_ne
      (Shelf.copy?_putCopy_self ..) hbehind item f.revision message f.clock.publish
    have hpublish : b.publish session item version message
        (s.putShelf session.tenant item (shelf.putCopy session.user version edited))
        = .error error
            (s.putShelf session.tenant item (shelf.putCopy session.user version edited)) :=
      onShelf_putShelf_error hx hfails
    exact .inr ⟨hcurrent, error, hconflict, hresult.trans (bind_error (Call.ofStore_error hpublish))⟩

/-- A version with a name that is not used is made, counted and published. -/
theorem create_ok (h : s.Orderly P past) (hnew : ∀ g ∈ past, g.Apart f) (session : Session)
    (request : Version) (hx : s.item? session.tenant item = some x)
    (hname : (s.shelf session.tenant item).usesName request.name = false) :
    let b := Memory.backend f
    let shelf := s.shelf session.tenant item
    let content := request.asNew f.version f.clock.createVersion
    Versions.createNamed b session item request s
      = .ok ⟨content, some ⟨.upToDate, false⟩⟩ ((s.putItem session.tenant
          { x with tally := x.tally.add .draft, modified := some f.clock.updateItem }).putShelf
        session.tenant item (shelf.published f session.user f.version
          s!"Create version: {request.name}" content)) := by
  intro b shelf content
  have hid : x.id = item := h.known.id_of_item hx
  have hhead := (h.known.shelf session.tenant item).head?_of_new hnew
  let counted := { x with tally := x.tally.add .draft, modified := some f.clock.updateItem }
  let created := shelf.putCopy session.user f.version ⟨content, none, true, false⟩
  let published := shelf.published f session.user f.version
    s!"Create version: {request.name}" content
  have hcreate : b.createVersion session item request s
      = .ok ⟨content, some ⟨.upToDate, true⟩⟩ (s.putShelf session.tenant item created) := by
    refine onShelf_ok hx ?_
    simp only [Shelf.create, hname, Bool.false_eq_true, if_false]
    rfl
  have htally : Versions.updateTally b session item (·.add .draft)
      (s.putShelf session.tenant item created)
      = .ok () ((s.putItem session.tenant counted).putShelf session.tenant item created) := by
    rw [Versions.updateTally_eq (by rw [item?_putShelf, hx]) hid, putShelf_putItem]
  have hcounted : (s.putItem session.tenant counted).item? session.tenant item = some counted := by
    rw [item?_putItem, if_pos ⟨rfl, hid.symm⟩]
  have hpublish : b.publish session item f.version s!"Create version: {request.name}"
      ((s.putItem session.tenant counted).putShelf session.tenant item created)
      = .ok () ((s.putItem session.tenant counted).putShelf session.tenant item published) :=
    onShelf_putShelf_ok hcounted (Shelf.publish_created hname hhead)
  have hrefetch : Versions.refetch b session item f.version "create"
      ((s.putItem session.tenant counted).putShelf session.tenant item published)
      = .ok ⟨content, some ⟨.upToDate, false⟩⟩
          ((s.putItem session.tenant counted).putShelf session.tenant item published) := by
    rw [Versions.refetch_eq, shelf_putShelf_self, Shelf.get?_published]
  refine (bind_ok (Call.ofStore_ok hcreate)).trans ?_
  refine (bind_ok htally).trans ?_
  exact (bind_ok (Call.ofStore_ok hpublish)).trans hrefetch

/-- What follows when the engine makes a version: it is published as well, unless there is no such item or
its name is used. -/
theorem create_result (h : s.Orderly P past) (hnew : ∀ g ∈ past, g.Apart f) (session : Session)
    (item : String) (request : Version) :
    let b := Memory.backend f
    let shelf := s.shelf session.tenant item
    let content := request.asNew f.version f.clock.createVersion
    let result := Versions.createNamed b session item request s
    (∃ error s', result = .error (.ofStore error) s' ∧ s.Alike s') ∨
      ∃ x, s.item? session.tenant item = some x ∧ shelf.usesName request.name = false ∧
        result = .ok ⟨content, some ⟨.upToDate, false⟩⟩ ((s.putItem session.tenant
            { x with tally := x.tally.add .draft, modified := some f.clock.updateItem }).putShelf
          session.tenant item (shelf.published f session.user f.version
            s!"Create version: {request.name}" content)) := by
  intro b shelf content result
  have hcreate : b.createVersion session item request s =
      onShelf session item (Shelf.create item f.version f.clock.createVersion session.user request) s := rfl
  rw [onShelf_eq] at hcreate
  cases hx : s.item? session.tenant item with
  | none =>
      rw [hx] at hcreate
      exact .inl ⟨_, _, bind_error (Call.ofStore_error hcreate), alike_touch s _⟩
  | some x =>
      rw [hx] at hcreate
      cases hname : shelf.usesName request.name with
      | true =>
          simp only [Shelf.create, shelf, hname, if_true] at hcreate
          exact .inl ⟨_, _, bind_error (Call.ofStore_error hcreate), alike_putShelf (.refl _)⟩
      | false =>
          exact .inr ⟨x, rfl, rfl, h.create_ok hnew session request hx hname⟩

end Store.Orderly

/-! ### Requests as moves -/

theorem VersionStatus.canBecome_iff {a b : VersionStatus} :
    a.canBecome b = true ↔ a = .draft ∧ b = .certified := by
  cases a <;> cases b <;> simp [canBecome]

namespace Store.Orderly

variable {s' : Store}

/-- How a change of a version's status ends. If it succeeds, the user's copy was made from the head, which
has a status that `P` allows beside a draft, and is published as certified. -/
theorem updateStatus (h : s.Orderly P past) (hP : ∀ status, P status status)
    (hnew : ∀ g ∈ past, g.Apart f) (session : Session) (item version : String)
    (status : VersionStatus) (message : String) :
    let result := Versions.updateStatus (Memory.backend f) session item version status message s
    (∃ error s', result = .error error s' ∧ Moved P f session.user s s') ∨
      ∃ s₁ c e x content,
        Moved P f session.user s s₁ ∧ s₁.Orderly P past ∧
        s₁.item? session.tenant item = some x ∧
        (s₁.shelf session.tenant item).copy? session.user version = some c ∧
        (s₁.shelf session.tenant item).head? version = some e ∧
        c.syncState (some e) = .upToDate ∧ P e.content.status .draft ∧
        content.SameOrigin c.content ∧ content.status = .certified ∧
        result = .ok () ((s₁.putShelf session.tenant item ((s₁.shelf session.tenant item).published f
            session.user version message content)).putItem session.tenant
          { x with
            tally := (x.tally.add .certified).remove .draft
            modified := some f.clock.updateItem }) := by
  intro result
  obtain ⟨hmoved, horderly⟩ := h.get hP hnew session item version
  have hresult : result = (Versions.get (Memory.backend f) session item version >>= _) s :=
    congrFun (Versions.updateStatus_eq ..) s
  cases hget : Versions.get (Memory.backend f) session item version s with
  | error error s₁ =>
      rw [hget] at hmoved
      exact .inl ⟨error, s₁, hresult.trans (bind_error hget), hmoved⟩
  | ok v s₁ =>
      rw [hget] at hmoved horderly
      have hresult := hresult.trans (bind_ok hget)
      split at hresult
      · exact .inl ⟨_, s₁, hresult, hmoved⟩
      · split at hresult
        · exact .inl ⟨_, s₁, hresult, hmoved⟩
        · rename_i hforward
          obtain ⟨hvdraft, rfl⟩ := VersionStatus.canBecome_iff.1 (by simpa using hforward)
          have hv := Versions.get?_of_get hget
          have hsound := horderly.sound session.tenant item
          obtain ⟨c, e, hc, he, -, hname, hcurrent, -⟩ := hsound.of_get? hv
          obtain ⟨x, hx⟩ := horderly.known.item_of_copy hc
          have hcontent : (c.content.edited { v with status := .certified } f.clock.updateVersion).SameOrigin
              c.content := ⟨rfl, rfl, hname, rfl⟩
          rcases horderly.certify_result (f := f) hv hx hc he .certified message with
            ⟨hsync, hok⟩ | ⟨hsync, error, -, herror⟩
          · have hedraft : P e.content.status .draft := by
              rw [← hvdraft, hcurrent hsync]
              exact hsound.steady hc he hsync
            have hresult := hresult.trans hok
            rw [hvdraft] at hresult
            exact .inr ⟨s₁, c, e, x, _, hmoved, horderly, hx, hc, he, hsync, hedraft, hcontent, rfl,
              hresult⟩
          · refine .inl ⟨_, _, hresult.trans herror, hmoved.trans (.putShelf (.edit hc hcontent ?_))⟩
            intro d hd hcurrent
            obtain rfl := Option.some.inj (he.symm.trans hd)
            exact absurd hcurrent hsync

theorem moved_updateStatus (h : s.Orderly P past) (hP : ∀ status, P status status)
    (hnew : ∀ g ∈ past, g.Apart f) (session : Session) (item version : String)
    (status : VersionStatus) (message : String) :
    Moved P f session.user s (stateOf
      (Versions.updateStatus (Memory.backend f) session item version status message s)) := by
  rcases h.updateStatus hP hnew session item version status message with
    ⟨error, s', hresult, hmoved⟩ |
      ⟨s₁, c, e, x, content, hmoved, horderly, hx, hc, he, hsync, hedraft, horigin, hcertified,
        hresult⟩
  · rw [hresult]
    exact hmoved
  · rw [hresult]
    have hid := horderly.known.id_of_item hx
    subst hid
    refine hmoved.trans (.putShelf_putItem ?_)
    rw [holding, hx]
    exact .certify hc he hsync (horderly.synced_ne hnew) horigin hedraft hcertified rfl

/-- Making a version is a move, after its base may have been pulled. -/
theorem moved_create (h : s.Orderly P past) (hP : ∀ status, P status status)
    (hnew : ∀ g ∈ past, g.Apart f) (naming : Calculator) (session : Session) (item : String)
    (base : Option String) (request : Version) (step : Step) :
    Moved P f session.user s (stateOf
      (Versions.create (Memory.backend f) naming session item base request step s)) := by
  rw [Versions.create_eq]
  -- the base is read, or there is none
  have hbase : ∀ x : Call Store (Option Version),
      x = base.elim (pure none) (fun id =>
        some <$> Versions.certifiedBase (Memory.backend f) session item id) →
      Moved P f session.user s (stateOf (x s)) ∧ (stateOf (x s)).Orderly P past := by
    rintro x rfl
    cases base with
    | none => exact ⟨.refl s, h⟩
    | some id =>
        rw [Option.elim_some, stateOf_map, Versions.stateOf_certifiedBase]
        exact h.get hP hnew session item id
  obtain ⟨hmoved, horderly⟩ := hbase _ rfl
  refine hmoved.bind fun base s₁ hs₁ => ?_
  rw [hs₁] at horderly
  change s₁.Orderly P past at horderly
  refine .bind_read (Call.stateOf_ofExcept _ _) fun name _ => ?_
  refine .bind_read rfl fun existing _ => ?_
  split
  · exact .refl s₁
  · rcases horderly.create_result hnew session item
      { Version.blank.overlay request with base := base.map (·.id), name := name } with
      ⟨error, s', hresult, halike⟩ | ⟨x, hx, hname, hresult⟩
    · rw [hresult]
      exact .alike halike
    · rw [hresult, stateOf_ok, ← Store.putShelf_putItem]
      have hknown := horderly.known.shelf session.tenant item
      have hid := horderly.known.id_of_item hx
      subst hid
      refine .putShelf_putItem ?_
      rw [holding, hx]
      exact .create rfl rfl hname (hknown.head?_of_new hnew) (fun _ => hknown.copy?_of_new hnew) rfl

theorem moved_update (h : s.Orderly P past) (hP : ∀ status, P status status)
    (hnew : ∀ g ∈ past, g.Apart f) (session : Session) (item version : String) (request : Version) :
    Moved P f session.user s (stateOf
      (Versions.update (Memory.backend f) session item version request s)) := by
  obtain ⟨hmoved, horderly⟩ := h.get hP hnew session item version
  refine hmoved.bind fun v s₁ hget => ?_
  rw [hget] at horderly
  rw [Versions.stateOf_bind_refetch]
  exact edit horderly (Versions.get?_of_get hget) rfl rfl rfl

/-- An item that is there is described anew, and otherwise nothing is done. -/
theorem moved_updateItem (h : s.Orderly P past) {y : Item} (hy : s.item? session.tenant item = some x)
    (hid : y.id = x.id) (htally : y.tally = x.tally) :
    Moved P f session.user s (stateOf (Store.updateItem f.clock.updateItem session y s)) := by
  have hitem : s.item? session.tenant y.id = some x := by
    rw [hid, h.known.id_of_item hy, hy]
  rw [updateItem_eq, hitem]
  refine .putItem ?_
  rw [holding, hitem]
  exact .describe htally

end Store.Orderly

namespace Items

theorem get_eq (s : Store) : get (Memory.backend f) session item s =
    match s.item? session.tenant item with
    | some x => .ok x s
    | none => .error (.notFound s!"item {item}") s := by
  have hget : (Memory.backend f).getItem session item s
      = .ok (s.item? session.tenant item) s := rfl
  rw [get, bind_ok (Call.ofStore_ok hget)]
  cases s.item? session.tenant item <;> rfl

theorem stateOf_get (s : Store) : stateOf (get (Memory.backend f) session item s) = s := by
  rw [get_eq]
  cases s.item? session.tenant item <;> rfl

theorem item?_of_get {x : Item} (h : get (Memory.backend f) session item s = .ok x s') :
    s.item? session.tenant item = some x := by
  rw [get_eq] at h
  split at h
  · cases h
    assumption
  · cases h

end Items

/-! ### What a request does -/

namespace Store.Orderly

theorem moved_items_update (h : s.Orderly P past) (session : Session) (item : String)
    (request : Item) :
    Moved P f session.user s
      (stateOf (Items.update (Memory.backend f) session item request s)) := by
  refine .bind_read (Items.stateOf_get s) fun x hx => ?_
  have hmoved := h.moved_updateItem (f := f) (y := x.overlay request) (Items.item?_of_get hx) rfl rfl
  refine .bind (by rw [Call.stateOf_ofStore]; exact hmoved) fun _ s₁ _ => ?_
  rw [Items.stateOf_get]
  exact .refl s₁

theorem moved_items_updateStatus (h : s.Orderly P past) (session : Session) (item : String)
    (status : ItemStatus) :
    Moved P f session.user s
      (stateOf (Items.updateStatus (Memory.backend f) session item status s)) := by
  refine .bind_read (Items.stateOf_get s) fun x hx => ?_
  dsimp only
  split
  · exact .refl s
  · have hmoved := h.moved_updateItem (f := f) (y := { x with status := status })
      (Items.item?_of_get hx) rfl rfl
    exact .bind (by rw [Call.stateOf_ofStore]; exact hmoved) fun _ s₁ _ => .refl s₁

/-- A new item is put where nothing is kept. -/
theorem changed_putItem {user : String} (h : s.Orderly P past) (hnew : ∀ g ∈ past, g.Apart f)
    {t : String} {y : Item} (hid : y.id = f.item) (htally : y.tally = ∅) (tenant item : String) :
    Holding.Change P f user (s.holding tenant item) ((s.putItem t y).holding tenant item) := by
  rw [holding, holding, item?_putItem, shelf_putItem]
  split
  · rename_i hplace
    obtain ⟨rfl, rfl⟩ := hplace
    cases hx : s.item? tenant y.id with
    | none =>
        rw [h.known.missing hx]
        exact .make htally
    | some x =>
        obtain ⟨g, hg, hgid⟩ := h.known.item hx
        exact absurd (hgid.trans hid) (hnew g hg).item
  · exact .moves .refl

/-- An item is deleted if it is there. -/
theorem holding_delete (session : Session) (i tenant item : String) :
    (stateOf (Items.delete (Memory.backend f) session i s)).holding tenant item
        = s.holding tenant item ∨
      (stateOf (Items.delete (Memory.backend f) session i s)).holding tenant item
        = ⟨none, .empty⟩ := by
  cases hx : s.item? session.tenant i with
  | none =>
      have hget : Items.get (Memory.backend f) session i s
          = .error (.notFound s!"item {i}") s := by
        rw [Items.get_eq, hx]
      rw [Items.delete, bind_error hget]
      exact .inl rfl
  | some x =>
      have hget : Items.get (Memory.backend f) session i s = .ok x s := by
        rw [Items.get_eq, hx]
      have hdrop : (Memory.backend f).deleteItem session i s
          = .ok () (s.dropItem session.tenant i) := by
        change Store.deleteItem session i s = _
        rw [deleteItem_eq, hx]
      rw [Items.delete, bind_ok hget, Call.ofStore_ok hdrop, stateOf_ok, holding, holding,
        item?_dropItem, shelf_dropItem]
      split
      · exact .inr rfl
      · exact .inl rfl

theorem changed_delete {user : String} (session : Session) (i tenant item : String) :
    Holding.Change P f user (s.holding tenant item)
      ((stateOf (Items.delete (Memory.backend f) session i s)).holding tenant item) := by
  rcases holding_delete (f := f) (s := s) session i tenant item with hsame | hgone
  · rw [hsame]
    exact .moves .refl
  · rw [hgone]
    exact .delete

end Store.Orderly

namespace Store

/-- A call of the store, as the engine makes it. -/
theorem stateOf_ofStore_of_run {α : Type} {r : StoreRequest} {x : Change α} {answer : α → Answer}
    (hr : r.run (Memory.backend f) session = answer <$> x) (s : Store) :
    stateOf (Call.ofStore x s) = s.next ⟨f, session, r⟩ := by
  rw [Call.stateOf_ofStore, next, result, hr, stateOf_map]

/-- A request that is handed on to the store. -/
theorem serve_eq_next {naming : Calculator} {r : Request} {r' : StoreRequest} {x : Change Unit}
    (hr : r.run (Memory.backend f) naming session = (fun () => .done) <$> Call.ofStore x)
    (hr' : r'.run (Memory.backend f) session = (fun () => .done) <$> x) :
    s.serve naming ⟨f, session, r⟩ = s.next ⟨f, session, r'⟩ := by
  rw [serve, served, hr, stateOf_map, Call.stateOf_ofStore, next, result, hr', stateOf_map]

/-- What every successful revert takes over has a status that `P` allows, if the copy was made from the
head. -/
def RevertAllowed (P : VersionStatus → VersionStatus → Prop) (s : Store) (e : Event Request) : Prop :=
  ∀ item version revision, e.request = .revert item version revision →
    (s.shelf e.session.tenant item).RestoresAllowed P e.session.user version revision

namespace Orderly

variable {e : Event Request}

/-- A request that hands a plain call on to the store. -/
theorem moved_of_next (h : s.Orderly P past) (hnew : ∀ g ∈ past, g.Apart e.fresh)
    (hrevert : s.RevertAllowed P e) (naming : Calculator) {r : StoreRequest}
    (hplain : r.isPlain = true)
    (hr : ∀ item version revision, r = .revert item version revision →
      e.request = .revert item version revision)
    (hserve : s.serve naming e = s.next ⟨e.fresh, e.session, r⟩) :
    Moved P e.fresh e.session.user s (s.serve naming e) := by
  rw [hserve]
  exact h.next (e := ⟨e.fresh, e.session, r⟩) hplain hnew
    fun item version revision heq => hrevert item version revision (hr item version revision heq)

/-- **What a request does to any item and its versions**: the engine's moves, unless it makes the item or
deletes it. -/
theorem changed_serve (h : s.Orderly P past) (hP : ∀ status, P status status)
    (hnew : ∀ g ∈ past, g.Apart e.fresh) (hrevert : s.RevertAllowed P e) (naming : Calculator)
    (tenant item : String) :
    Holding.Change P e.fresh e.session.user (s.holding tenant item)
      ((s.serve naming e).holding tenant item) := by
  obtain ⟨f, session, r⟩ := e
  have hmoved : ∀ {s'}, Moved P f session.user s s' →
      s.serve naming ⟨f, session, r⟩ = s' →
      Holding.Change P f session.user (s.holding tenant item)
        ((s.serve naming ⟨f, session, r⟩).holding tenant item) := by
    rintro s' hmoved rfl
    exact .moves (hmoved tenant item)
  have hplain : ∀ r' : StoreRequest, r'.isPlain = true →
      (∀ item version revision, r' = .revert item version revision →
        r = .revert item version revision) →
      s.serve naming ⟨f, session, r⟩ = s.next ⟨f, session, r'⟩ →
      Holding.Change P f session.user (s.holding tenant item)
        ((s.serve naming ⟨f, session, r⟩).holding tenant item) :=
    fun r' hplain hr hserve =>
      .moves (h.moved_of_next hnew hrevert naming hplain hr hserve tenant item)
  cases r with
  | listItems keep =>
      refine hmoved (.refl s) ?_
      rw [serve, served, Request.run, stateOf_map]
      rfl
  | getItem i =>
      refine hmoved (.refl s) ?_
      rw [serve, served, Request.run, stateOf_map, Items.stateOf_get]
  | createItem request =>
      have hserve : s.serve naming ⟨f, session, .createItem request⟩ = s.putItem session.tenant
          { Item.blank.overlay request with
            id := f.item, created := some f.clock.createItem, modified := some f.clock.createItem } := stateOf_map _ _ _
      rw [hserve]
      exact h.changed_putItem hnew rfl rfl tenant item
  | updateItem i request =>
      exact hmoved (h.moved_items_update session i request) (stateOf_map _ _ _)
  | deleteItem i =>
      have hserve : s.serve naming ⟨f, session, .deleteItem i⟩
          = stateOf (Items.delete (Memory.backend f) session i s) := stateOf_map _ _ _
      rw [hserve]
      exact changed_delete session i tenant item
  | setItemStatus i status =>
      exact hmoved (h.moved_items_updateStatus session i status) (stateOf_map _ _ _)
  | listVersions i =>
      refine hmoved (.refl s) ?_
      rw [serve, served, Request.run, stateOf_map]
      exact Call.stateOf_ofExcept _ _
  | getVersion i v =>
      exact hmoved (h.get hP hnew session i v).1 (stateOf_map _ _ _)
  | createVersion i base request step =>
      exact hmoved (h.moved_create hP hnew naming session i base request step) (stateOf_map _ _ _)
  | updateVersion i v request =>
      exact hmoved (h.moved_update hP hnew session i v request) (stateOf_map _ _ _)
  | setVersionStatus i v status message =>
      exact hmoved (h.moved_updateStatus hP hnew session i v status message)
        (stateOf_map _ _ _)
  | publish i v message => exact hplain (.publish i v message) rfl (by simp) (serve_eq_next rfl rfl)
  | sync i v => exact hplain (.sync i v) rfl (by simp) (serve_eq_next rfl rfl)
  | forceSync i v => exact hplain (.forceSync i v) rfl (by simp) (serve_eq_next rfl rfl)
  | clean i v => exact hplain (.clean i v) rfl (by simp) (serve_eq_next rfl rfl)
  | revert i v revision => exact hplain (.revert i v revision) rfl (by simp) (serve_eq_next rfl rfl)
  | listRevisions i v =>
      refine hmoved (.refl s) ?_
      rw [serve, served, Request.run, stateOf_map]
      rfl
  | deleteVersion i v => exact hmoved (.refl s) (stateOf_map _ _ _)

/-- **Every request keeps the store orderly.** -/
theorem serve (h : s.Orderly P past) (hP : ∀ status, P status status)
    (hnew : ∀ g ∈ past, g.Apart e.fresh) (hrevert : s.RevertAllowed P e) (naming : Calculator) :
    (s.serve naming e).Orderly P (past ++ [e.fresh]) where
  known := h.known.serve naming e
  sound tenant item :=
    Shelf.Sound.change (h := s.holding tenant item) (h.sound tenant item) hP
      (h.changed_serve hP hnew hrevert naming tenant item)

/-- **Every history keeps the store orderly**, if reverts take over only what is allowed. -/
theorem afterServing_of_allowed {naming : Calculator} {history : List (Event Request)}
    (h : s.Orderly P past) (hP : ∀ status, P status status) (hfresh : FreshIds history)
    (hpast : ∀ e ∈ history, ∀ f ∈ past, f.Apart e.fresh)
    (hreverts : s.Throughout naming (RevertAllowed P) history) :
    (s.afterServing naming history).Orderly P (past ++ history.map (·.fresh)) := by
  induction history generalizing s past with
  | nil => simpa using h
  | cons e history ih =>
      obtain ⟨htail, hpast'⟩ := hfresh.tail hpast
      have hnext := h.serve hP (hpast e List.mem_cons_self) hreverts.1 naming
      simpa using ih hnext htail hpast' hreverts.2

end Orderly

/-! ### Reverts that succeed -/

/-- What a revert takes over, if it succeeds, has a status that `P` allows beside the head's. -/
def Restores (naming : Calculator) (P : VersionStatus → VersionStatus → Prop) (s : Store)
    (e : Event Request) : Prop :=
  ∀ item version revision, e.request = .revert item version revision →
    (∃ a, s.reply naming e = .ok a) →
      ∀ r head, (s.shelf e.session.tenant item).restored? version revision = some r →
        (s.shelf e.session.tenant item).head? version = some head →
          P head.content.status r.content.status

/-- A copy that is there is reverted to a revision that is there. -/
theorem revert_ok {x : Item} {c : WorkingCopy} {r : Entry} {now : Instant} {revision : String}
    (hx : s.item? session.tenant item = some x)
    (hcopy : (s.shelf session.tenant item).copy? session.user version = some c)
    (hentry : (s.shelf session.tenant item).restored? version revision = some r) :
    Store.revert now session item version revision s
      = .ok () (s.putShelf session.tenant item ((s.shelf session.tenant item).putCopy session.user
          version { c with content := r.content.restored now, dirty := true })) := by
  refine onShelf_ok hx ?_
  simp only [Shelf.revert_eq, hentry, hcopy]

/-- The engine does so when it is asked to. -/
theorem served_revert (h : s.KnownIds past) {e : Event Request} {revision : String} {c : WorkingCopy}
    {r : Entry} (naming : Calculator) (hrequest : e.request = .revert item version revision)
    (hcopy : (s.shelf e.session.tenant item).copy? e.session.user version = some c)
    (hentry : (s.shelf e.session.tenant item).restored? version revision = some r) :
    served naming s e = .ok .done (s.putShelf e.session.tenant item
      ((s.shelf e.session.tenant item).putCopy e.session.user version
        { c with content := r.content.restored e.fresh.clock.revert, dirty := true })) := by
  obtain ⟨x, hx⟩ := h.item_of_copy hcopy
  have hcall : Versions.revert (Memory.backend e.fresh) e.session item version revision s
      = .ok () _ := Call.ofStore_ok (revert_ok hx hcopy hentry)
  rw [served, hrequest, Request.run]
  exact map_eq_ok.2 ⟨(), hcall, rfl⟩

theorem reply_revert (h : s.KnownIds past) {e : Event Request} {revision : String} {c : WorkingCopy}
    {r : Entry} (naming : Calculator) (hrequest : e.request = .revert item version revision)
    (hcopy : (s.shelf e.session.tenant item).copy? e.session.user version = some c)
    (hentry : (s.shelf e.session.tenant item).restored? version revision = some r) :
    s.reply naming e = .ok .done := by
  rw [reply, served_revert h naming hrequest hcopy hentry]
  rfl

/-- **What was restored in a copy that is up to date can be published at once**: the copy still stands on the
head, it has edits now, and the version's name stays. -/
theorem Orderly.served_publish_restored (h : s.Orderly P past) (naming : Calculator)
    {e p : Event Request} {revision message : String} {c : WorkingCopy} {head r : Entry}
    (hsession : p.session = e.session) (hrevert : e.request = .revert item version revision)
    (hpublish : p.request = .publish item version message)
    (hcopy : (s.shelf e.session.tenant item).copy? e.session.user version = some c)
    (hhead : (s.shelf e.session.tenant item).head? version = some head)
    (hsync : c.syncState (some head) = .upToDate)
    (hentry : (s.shelf e.session.tenant item).restored? version revision = some r) :
    served naming (s.serve naming e) p = .ok .done (s.putShelf e.session.tenant item
      ((s.shelf e.session.tenant item).published p.fresh e.session.user version message
        (r.content.restored e.fresh.clock.revert))) := by
  have hsound := h.sound e.session.tenant item
  obtain ⟨x, hx⟩ := h.known.item_of_copy hcopy
  have horigin := hsound.origin_restored e.fresh.clock.revert hcopy hhead
    (Shelf.mem_entries_of_restored? hentry)
  have hcall : Versions.publish (Memory.backend p.fresh) e.session item version message
      (s.serve naming e) = .ok () (s.putShelf e.session.tenant item
        ((s.shelf e.session.tenant item).published p.fresh e.session.user version message
          (r.content.restored e.fresh.clock.revert))) := by
    rw [Store.serve, served_revert h.known naming hrevert hcopy hentry, stateOf_ok]
    exact Call.ofStore_ok (onShelf_putShelf_ok hx (hsound.publish_edited hcopy hhead horigin hsync))
  rw [served, hpublish, Request.run, hsession]
  exact map_eq_ok.2 ⟨(), hcall, rfl⟩

/-- A revert that would take over a status which is not allowed is one that succeeds. -/
theorem Restores.allowed {e : Event Request} {naming : Calculator}
    (hrestores : s.Restores naming P e) (h : s.KnownIds past) :
    s.RevertAllowed P e := by
  intro item version revision hrequest c r head hcopy hentry hhead _
  exact hrestores item version revision hrequest
    ⟨_, reply_revert h naming hrequest hcopy hentry⟩ r head hentry hhead

end Store

end VersionCatalog
