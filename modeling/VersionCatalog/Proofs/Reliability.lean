import VersionCatalog.Proofs.Legibility
import VersionCatalog.Proofs.Synchronizing

/-!
# Stores that keep their word

The engine looks for a version again after it was pulled, edited, or made and published. If the version is
missing then, the store has reported a success that its content does not bear out, and the engine fails with an
error of a kind of its own. This never happens over a backend whose successes can be relied on
(`Backend.Reliable`), and both backends are such, from every state: whatever store is in memory, and whatever is
on the disk. Nothing is asked of the store. Its ids may differ from the places that they are in, there may be
copies of versions that nobody has published, and shared versions of which nothing was ever published.

The file backend reads the file again to look for the version. It finds it there, unless the document that it has
just written is too deep to be read (`File.Buried`); then it fails for that, as every later call does, and does
not report the version as missing.

## Main results

* `Request.delivers`: over a backend that can be relied on, no request ends in an inconsistency.
* `Memory.reliable`, `File.reliable`: both backends can be relied on.
* `File.update_of_buried`: what becomes of an update whose document is too deep.
* `no_success_is_empty`: both backends, and every request to the engine.
-/

namespace VersionCatalog

/-! ### What calls deliver -/

namespace Call

variable {σ α β : Type}

/-- A call whose answer is good if it succeeds, and which never finds the store inconsistent. -/
structure Delivers (x : Call σ α) (s : σ) (good : α → σ → Prop) : Prop where
  good_of_ok : ∀ {a s'}, x s = .ok a s' → good a s'
  consistent : ∀ {e s'}, x s = .error e s' → e.kind ≠ .internalConsistency

namespace Delivers

variable {s : σ} {good : α → σ → Prop} {good' : β → σ → Prop}

theorem pure {a : α} (h : good a s) : Delivers (Pure.pure a : Call σ α) s good where
  good_of_ok := by
    rintro _ _ ⟨⟩
    exact h
  consistent := by rintro _ _ ⟨⟩

theorem pure_any {a : α} : Delivers (Pure.pure a : Call σ α) s fun _ _ => True :=
  .pure trivial

theorem throw {e : EngineError} (h : e.kind ≠ .internalConsistency) :
    Delivers (MonadExcept.throw e : Call σ α) s good where
  good_of_ok := by rintro _ _ ⟨⟩
  consistent := by
    rintro _ _ ⟨⟩
    exact h

/-- The errors of a store are passed on as what they are. -/
theorem ofStore {x : EStateM StoreError σ α} (h : ∀ {a s'}, x s = .ok a s' → good a s') :
    Delivers (.ofStore x) s good where
  good_of_ok {a s'} hok := by
    cases hx : x s with
    | ok b s₁ =>
        rw [ofStore_ok hx] at hok
        cases hok
        exact h hx
    | error e s₁ =>
        rw [ofStore_error hx] at hok
        cases hok
  consistent {e s'} herror := by
    cases hx : x s with
    | ok b s₁ =>
        rw [ofStore_ok hx] at herror
        cases herror
    | error e s₁ =>
        rw [ofStore_error hx] at herror
        cases herror
        rw [EngineError.ofStore]
        cases e.fault <;> simp [EngineError.kind]

/-- A store's call whose outcome does not matter. -/
theorem ofStore_any {x : EStateM StoreError σ α} : Delivers (.ofStore x) s fun _ _ => True :=
  .ofStore fun _ => trivial

/-- What the engine computes itself. -/
theorem ofExcept {x : Except EngineError α} (h : ∀ {e}, x = .error e → ∃ text, e = .validation text) :
    Delivers (.ofExcept x) s fun _ _ => True := by
  cases x with
  | ok a => exact .pure_any
  | error e =>
      obtain ⟨text, rfl⟩ := h rfl
      exact .throw (by simp [EngineError.kind])

theorem bind {x : Call σ α} {f : α → Call σ β} (hx : Delivers x s good)
    (hf : ∀ a s', good a s' → Delivers (f a) s' good') : Delivers (x >>= f) s good' where
  good_of_ok {b s'} hok := by
    cases hres : x s with
    | ok a s₁ =>
        rw [bind_ok hres] at hok
        exact (hf a s₁ (hx.good_of_ok hres)).good_of_ok hok
    | error e s₁ =>
        rw [bind_error hres] at hok
        cases hok
  consistent {e s'} herror := by
    cases hres : x s with
    | ok a s₁ =>
        rw [bind_ok hres] at herror
        exact (hf a s₁ (hx.good_of_ok hres)).consistent herror
    | error e₁ s₁ =>
        rw [bind_error hres] at herror
        cases herror
        exact hx.consistent hres

theorem any {x : Call σ α} (hx : Delivers x s good) : Delivers x s fun _ _ => True :=
  ⟨fun _ => trivial, hx.consistent⟩

theorem map_any {x : Call σ α} {g : α → β} (hx : Delivers x s good) :
    Delivers (g <$> x) s fun _ _ => True := by
  rw [map_eq_pure_bind]
  exact hx.bind fun _ _ _ => .pure_any

end Delivers

end Call

/-! ### Backends that can be relied on -/

namespace Backend

variable {σ : Type}

/-- Who looks for a version finds it, or it is there and buried. -/
def Finds (b : Backend σ) (buried : Session → String → String → σ → Prop) (session : Session)
    (item version : String) (s : σ) : Prop :=
  (∃ v, b.getVersion session item version s = .ok (some v) s) ∨ buried session item version s

/-- A backend whose successes can be relied on. It does not answer where a version is buried, and the properties of
versions have certain values. -/
structure Reliable (b : Backend σ) (buried : Session → String → String → σ → Prop)
    (value : Json → Prop) : Prop where
  /-- What is found once is found again. -/
  getVersion : ∀ {session item version v s s'}, b.getVersion session item version s = .ok (some v) s' →
    b.Finds buried session item version s' ∧ v.properties.All value
  /-- An edit loses no version, whatever the id is that it is made under. -/
  updateVersion : ∀ {session item version v s s'}, v.properties.All value →
    b.Finds buried session item version s → b.updateVersion session item v s = .ok () s' →
      b.Finds buried session item version s'
  publish : ∀ {session item version message s s'},
    b.publish session item version message s = .ok () s' → b.Finds buried session item version s'
  sync : ∀ {session item version s s'},
    b.sync session item version s = .ok () s' → b.Finds buried session item version s'
  forceSync : ∀ {session item version s s'},
    b.forceSync session item version s = .ok () s' → b.Finds buried session item version s'
  error_of_buried : ∀ {session item version s}, buried session item version s →
    ∃ e s', b.getVersion session item version s = .error e s'

end Backend

/-! ### The engine over such a backend -/

section Engine

variable {σ : Type} {b : Backend σ} {buried : Session → String → String → σ → Prop} {value : Json → Prop}
  {naming : Calculator} {session : Session} {item version : String} {s : σ}

namespace Versions

/-- What is read is found when it is looked for again. -/
def Readable (b : Backend σ) (buried : Session → String → String → σ → Prop) (value : Json → Prop)
    (session : Session) (item version : String) (v : Version) (s : σ) : Prop :=
  b.Finds buried session item version s ∧ v.properties.All value

theorem delivers_refetch (h : b.Reliable buried value) (hfinds : b.Finds buried session item version s)
    (after : String) :
    (refetch b session item version after).Delivers s
      (Readable b buried value session item version) := by
  have hfound : (Call.ofStore (b.getVersion session item version)).Delivers s fun found s' =>
      ∃ v, found = some v ∧ Readable b buried value session item version v s' := by
    refine .ofStore fun {found s'} hok => ?_
    rcases hfinds with ⟨v, hv⟩ | hburied
    · cases hv.symm.trans hok
      exact ⟨v, rfl, h.getVersion hv⟩
    · obtain ⟨e, s₁, herror⟩ := h.error_of_buried hburied
      cases herror.symm.trans hok
  refine hfound.bind ?_
  rintro _ s' ⟨v, rfl, hv⟩
  exact .pure hv

/-- A call of the store that leaves the version there, and the look at what it did. -/
theorem delivers_bind_refetch (h : b.Reliable buried value) {x : EStateM StoreError σ Unit}
    (hx : ∀ {s'}, x s = .ok () s' → b.Finds buried session item version s') (after : String) :
    (Call.ofStore x >>= fun _ => refetch b session item version after).Delivers s
      (Readable b buried value session item version) := by
  have hleft : (Call.ofStore x).Delivers s fun _ s' => b.Finds buried session item version s' :=
    .ofStore fun hok => hx hok
  exact hleft.bind fun _ _ hfinds => delivers_refetch h hfinds after

/-- **A reading finds what it pulled.** -/
theorem delivers_get (h : b.Reliable buried value) :
    (get b session item version).Delivers s (Readable b buried value session item version) := by
  have hfound : (Call.ofStore (b.getVersion session item version)).Delivers s fun found s' =>
      ∀ v, found = some v → Readable b buried value session item version v s' := by
    refine .ofStore fun {found s'} hok v hv => ?_
    rw [hv] at hok
    exact h.getVersion hok
  refine hfound.bind fun found s' hreadable => ?_
  cases found with
  | none => exact delivers_bind_refetch h h.sync "sync"
  | some v =>
      dsimp only
      split
      · exact delivers_bind_refetch h h.forceSync "force sync"
      · exact .pure (hreadable v rfl)

/-- **An update finds what it edited**, also where the copy has another id than its place. -/
theorem delivers_update (h : b.Reliable buried value) {request : Version}
    (hrequest : request.properties.All value) :
    (update b session item version request).Delivers s (Readable b buried value session item version) := by
  refine (delivers_get h).bind ?_
  rintro stored s' ⟨hfinds, hstored⟩
  have hvalues : (stored.overlay request).properties.All value := hstored.overlay hrequest
  exact delivers_bind_refetch h (fun hok => h.updateVersion hvalues hfinds hok) "update"

theorem delivers_certifiedBase (h : b.Reliable buried value) (base : String) :
    (certifiedBase b session item base).Delivers s fun _ _ => True := by
  refine (delivers_get h).bind fun v _ _ => ?_
  cases v.isCertified with
  | true => exact .pure_any
  | false => exact .throw (by simp [EngineError.kind])

theorem delivers_updateTally (b : Backend σ) (session : Session) (item : String)
    (change : Tally → Tally) (s : σ) :
    (updateTally b session item change).Delivers s fun _ _ => True := by
  refine Call.Delivers.ofStore_any.bind fun found _ _ => ?_
  cases found with
  | none => exact .throw (by simp [EngineError.kind])
  | some stored => exact .ofStore_any

/-- **A creation finds what it published**, under the id that the store has given it. -/
theorem delivers_createNamed (h : b.Reliable buried value) (v : Version) :
    (createNamed b session item v).Delivers s fun _ _ => True := by
  refine Call.Delivers.ofStore_any.bind fun created s₁ _ => ?_
  refine (delivers_updateTally b session item _ s₁).bind fun _ _ _ => ?_
  exact (delivers_bind_refetch h h.publish "create").any

theorem delivers_create (h : b.Reliable buried value) (base : Option String) (request : Version)
    (step : Step) :
    (create b naming session item base request step).Delivers s fun _ _ => True := by
  rw [create_eq]
  have hbase : (base.elim (pure none) fun id => some <$> certifiedBase b session item id :
      Call σ (Option Version)).Delivers s fun _ _ => True := by
    cases base with
    | none => exact .pure_any
    | some id => exact (delivers_certifiedBase h id).map_any
  refine hbase.bind fun base _ _ => ?_
  refine (Call.Delivers.ofExcept Calculator.calculate_eq_error).bind fun name _ _ => ?_
  refine Call.Delivers.ofStore_any.bind fun existing _ _ => ?_
  split
  · exact .throw (by simp [EngineError.kind])
  · exact delivers_createNamed h _

theorem delivers_updateStatus (h : b.Reliable buried value) (status : VersionStatus) (message : String) :
    (updateStatus b session item version status message).Delivers s fun _ _ => True := by
  rw [updateStatus_eq]
  refine (delivers_get h).bind fun v _ _ => ?_
  split
  · exact .throw (by simp [EngineError.kind])
  · split
    · exact .throw (by simp [EngineError.kind])
    · refine Call.Delivers.ofStore_any.bind fun _ _ _ => ?_
      refine Call.Delivers.ofStore_any.bind fun _ _ _ => ?_
      exact delivers_updateTally b session item _ _

end Versions

namespace Items

theorem delivers_get (b : Backend σ) (session : Session) (item : String) (s : σ) :
    (get b session item).Delivers s fun _ _ => True := by
  refine Call.Delivers.ofStore_any.bind fun found _ _ => ?_
  cases found with
  | none => exact .throw (by simp [EngineError.kind])
  | some stored => exact .pure_any

theorem delivers_updateStatus (b : Backend σ) (session : Session) (item : String) (status : ItemStatus)
    (s : σ) : (updateStatus b session item status).Delivers s fun _ _ => True := by
  refine (delivers_get b session item s).bind fun stored _ _ => ?_
  dsimp only
  split
  · exact .throw (by simp [EngineError.kind])
  · exact Call.Delivers.ofStore_any.bind fun _ _ _ => .pure_any

end Items

/-- **Over a backend that can be relied on no request ends in an inconsistency.** -/
theorem Request.delivers (h : b.Reliable buried value) (naming : Calculator) (session : Session)
    {r : Request} (hr : r.properties.All value) (s : σ) :
    (r.run b naming session).Delivers s fun _ _ => True := by
  cases r with
  | listItems keep =>
      exact (Call.Delivers.ofStore_any.bind fun _ _ _ => .pure_any).map_any
  | getItem item => exact (Items.delivers_get b session item s).map_any
  | createItem request => exact Call.Delivers.ofStore_any.map_any
  | updateItem item request =>
      have hupdate : (Items.update b session item request).Delivers s fun _ _ => True := by
        refine (Items.delivers_get b session item s).bind fun _ _ _ => ?_
        exact Call.Delivers.ofStore_any.bind fun _ _ _ => Items.delivers_get b session item _
      exact hupdate.map_any
  | deleteItem item =>
      have hdelete : (Items.delete b session item).Delivers s fun _ _ => True :=
        (Items.delivers_get b session item s).bind fun _ _ _ => .ofStore_any
      exact hdelete.map_any
  | setItemStatus item status =>
      exact (Items.delivers_updateStatus b session item status s).map_any
  | listVersions item =>
      have hlist : (Versions.list b naming session item).Delivers s fun _ _ => True :=
        Call.Delivers.ofStore_any.bind fun _ _ _ => .ofExcept Calculator.mapM_annotate_eq_error
      exact hlist.map_any
  | getVersion item version => exact (Versions.delivers_get h).map_any
  | createVersion item base request step =>
      exact (Versions.delivers_create h base request step).map_any
  | updateVersion item version request =>
      exact (Versions.delivers_update h hr).map_any
  | setVersionStatus item version status message =>
      exact (Versions.delivers_updateStatus h status message).map_any
  | publish | sync | forceSync | clean | revert =>
      exact Call.Delivers.ofStore_any.map_any
  | listRevisions item version =>
      exact (Call.Delivers.ofStore_any.bind fun _ _ _ => .pure_any).map_any
  | deleteVersion item version =>
      have hdelete : (Versions.delete item version : Call σ Unit).Delivers s fun _ _ => True :=
        .throw (by simp [EngineError.kind])
      exact hdelete.map_any

end Engine

/-! ### What successes leave in a store -/

namespace Shelf

variable {s s' : Shelf} {item revision user version message : String} {now : Instant}

theorem copy_of_sync (h : sync item user version s = .ok () s') : (s'.copy? user version).isSome := by
  cases hcopy : s.copy? user version with
  | none =>
      cases hhead : s.head? version with
      | none => simp [sync_of_nothing hcopy hhead] at h
      | some e =>
          rw [sync_of_head hcopy hhead] at h
          cases h
          rw [copy?_putCopy_self, Option.isSome_some]
  | some c =>
      rcases s.stays_or_behind version c with hstays | ⟨e, he, hmerging, hbehind⟩
      · rw [sync_of_stays hcopy hstays] at h
        cases h
        rw [hcopy, Option.isSome_some]
      · rw [sync_of_behind hcopy he hmerging hbehind] at h
        cases h
        rw [copy?_putCopy_self, Option.isSome_some]

theorem copy_of_forceSync (h : forceSync item user version s = .ok () s') :
    (s'.copy? user version).isSome := by
  cases hhead : s.head? version with
  | none => simp [forceSync, hhead] at h
  | some e =>
      rw [forceSync_of_head hhead] at h
      cases h
      rw [copy?_putCopy_self, Option.isSome_some]

/-- What is published is published from a copy, which stays. -/
theorem copy_of_publish (h : publish item revision now user version message s = .ok () s') :
    (s'.copy? user version).isSome := by
  rw [publish] at h
  cases hcopy : s.copy? user version with
  | none => simp [hcopy] at h
  | some c =>
      cases hsync : c.syncState (s.head? version) with
      | merging | outOfSync => simp [hcopy, hsync] at h
      | upToDate =>
          simp only [hcopy, hsync] at h
          split at h
          · cases h
            rw [hcopy, Option.isSome_some]
          · split at h
            · cases h
            · cases h
              rw [copy?_putCopy_self, Option.isSome_some]

/-- An edit puts a copy, and loses none. -/
theorem copy_of_update {v : Version} (h : update item now user v s = .ok () s')
    (hcopy : (s.copy? user version).isSome) : (s'.copy? user version).isSome := by
  rw [update] at h
  cases hc : s.copy? user v.id with
  | none => simp [hc] at h
  | some c =>
      simp only [hc] at h
      cases h
      rw [copy?_putCopy]
      split
      · rfl
      · exact hcopy

end Shelf

namespace Store

variable {s s' : Store} {session : Session} {item version message : String} {now : Instant}

theorem isSome_getVersion : (s.getVersion session item version).isSome
    = ((s.shelf session.tenant item).copy? session.user version).isSome :=
  Option.isSome_map

/-- A change of an item's versions that leaves a copy on their shelf leaves it in the store. -/
theorem getVersion_of_onShelf {change : EStateM StoreError Shelf Unit}
    (hchange : ∀ {after}, change (s.shelf session.tenant item) = .ok () after →
      (after.copy? session.user version).isSome)
    (h : onShelf session item change s = .ok () s') :
    (s'.getVersion session item version).isSome := by
  obtain ⟨after, hafter, rfl⟩ := exists_of_onShelf h
  rw [isSome_getVersion, shelf_putShelf_self]
  exact hchange hafter

theorem getVersion_of_update {v : Version} (h : updateVersion now session item v s = .ok () s')
    (hfound : (s.getVersion session item version).isSome) :
    (s'.getVersion session item version).isSome := by
  rw [isSome_getVersion] at hfound
  exact getVersion_of_onShelf (fun hafter => Shelf.copy_of_update hafter hfound) h

end Store

/-! ### Both backends can be relied on -/

namespace Memory

variable {fresh : Fresh} {session : Session} {item version : String} {s : Store}

theorem finds_iff : (backend fresh).Finds (fun _ _ _ _ => False) session item version s ↔
    (s.getVersion session item version).isSome := by
  rw [Backend.Finds, or_false, Option.isSome_iff_exists]
  constructor
  · rintro ⟨v, hv⟩
    injection hv with hv
    exact ⟨v, hv⟩
  · rintro ⟨v, hv⟩
    exact ⟨v, congrArg (fun found => EStateM.Result.ok found s) hv⟩

/-- **The memory backend can be relied on**, whatever is stored. -/
theorem reliable (fresh : Fresh) : (backend fresh).Reliable (fun _ _ _ _ => False) fun _ => True where
  getVersion {session item version v s s'} h := by
    injection h with hfound hsame
    exact ⟨finds_iff.2 (hsame ▸ Option.isSome_iff_exists.2 ⟨v, hfound⟩), fun _ _ _ => trivial⟩
  updateVersion _ hfinds h := finds_iff.2 (Store.getVersion_of_update h (finds_iff.1 hfinds))
  publish h := finds_iff.2 (Store.getVersion_of_onShelf Shelf.copy_of_publish h)
  sync h := finds_iff.2 (Store.getVersion_of_onShelf Shelf.copy_of_sync h)
  forceSync h := finds_iff.2 (Store.getVersion_of_onShelf Shelf.copy_of_forceSync h)
  error_of_buried hburied := hburied.elim

end Memory

namespace File

variable {f : FileSettings} {locked : Bool} {fresh : Fresh} {session : Session}
  {item version : String} {d d' : Disk} {s : Store}

/-- The version is in the store that the file holds, and this store is too deep to be loaded. -/
def Buried (f : FileSettings) (session : Session) (item version : String) (d : Disk) : Prop :=
  ∃ s, Holds f d s ∧ ¬ s.Shallow ∧ (s.getVersion session item version).isSome

theorem loadLocked_eq_ok (h : loadLocked f locked d = .ok s) : locked = false ∧ load f d = .ok s := by
  cases locked with
  | true => cases h
  | false => exact ⟨rfl, h⟩

/-- No store is loaded from a file in which a version is buried. -/
theorem Buried.load (h : Buried f session item version d) : File.load f d = .error .unreadable := by
  obtain ⟨s, hholds, hdeep, -⟩ := h
  exact hholds.load_not_shallow hdeep

theorem Buried.loadLocked (h : Buried f session item version d) (locked : Bool) :
    ∃ e, loadLocked f locked d = .error e := by
  cases locked with
  | true => exact ⟨_, rfl⟩
  | false => exact ⟨_, h.load⟩

theorem getVersion_of_load (hload : loadLocked f locked d = .ok s) :
    (backend f locked fresh).getVersion session item version d
      = .ok (s.getVersion session item version) d := by
  change reading f locked (·.getVersion session item version) d = _
  simp only [reading, hload]

theorem getVersion_of_load_error {e : StoreError} (hload : loadLocked f locked d = .error e) :
    (backend f locked fresh).getVersion session item version d = .error e d := by
  change reading f locked (·.getVersion session item version) d = _
  simp only [reading, hload]

/-- What is found in a file that can be loaded is in the store. -/
theorem isSome_of_finds (h : (backend f locked fresh).Finds (Buried f) session item version d)
    (hload : loadLocked f locked d = .ok s) : (s.getVersion session item version).isSome := by
  rcases h with ⟨v, hv⟩ | hdeep
  · rw [getVersion_of_load hload] at hv
    injection hv with hv
    exact Option.isSome_iff_exists.2 ⟨v, hv⟩
  · obtain ⟨e, he⟩ := hdeep.loadLocked locked
    cases he.symm.trans hload

/-- A call that changes the store and succeeds leaves a version there, if the change does. -/
theorem finds_of_changing {change : Change Unit} {r : StoreRequest}
    (hrun : r.run (Memory.backend fresh) session = (fun () => .done) <$> change)
    (hvalues : r.properties.All Json.IsValue)
    (hchange : ∀ {s s'}, loadLocked f locked d = .ok s → change s = .ok () s' →
      (s'.getVersion session item version).isSome)
    (h : changing f locked change d = .ok () d') :
    (backend f locked fresh).Finds (Buried f) session item version d' := by
  obtain ⟨s, hload⟩ : ∃ s, loadLocked f locked d = .ok s := by
    cases hload : loadLocked f locked d with
    | error e => simp [changing, hload] at h
    | ok s => exact ⟨s, rfl⟩
  obtain ⟨rfl, hstore⟩ := loadLocked_eq_ok hload
  obtain ⟨s', hresult, hsave⟩ := changing_eq_ok hstore h
  have hfits : (stateOf (change s)).Fits := by
    have hnext := (fits_and_shallow_of_load hstore).1.next (e := ⟨fresh, session, r⟩) hvalues
    rwa [Store.next, Store.result, hrun, stateOf_map] at hnext
  rw [hresult] at hfits
  have hholds : Holds f d' s' := ⟨(read_save hsave).1, hfits⟩
  have hfound := hchange hload hresult
  by_cases hshallow : s'.Shallow
  · rw [← Store.isSome_getVersion_rounded] at hfound
    obtain ⟨v, hv⟩ := Option.isSome_iff_exists.1 hfound
    have hload' : loadLocked f false d' = .ok s'.rounded := hholds.load_shallow hshallow
    exact .inl ⟨v, by rw [getVersion_of_load hload', hv]⟩
  · exact .inr ⟨s', hholds, hshallow, hfound⟩

/-- **The file backend can be relied on**, whatever is on the disk. -/
theorem reliable (f : FileSettings) (locked : Bool) (fresh : Fresh) :
    (backend f locked fresh).Reliable (Buried f) Json.IsValue where
  getVersion {session item version v d d'} h := by
    cases hload : loadLocked f locked d with
    | error e => cases (getVersion_of_load_error hload).symm.trans h
    | ok s =>
        have hfound := (getVersion_of_load hload).symm.trans h
        injection hfound with hfound hsame
        subst hsame
        obtain ⟨c, hc, hproperties⟩ := Store.copy?_of_getVersion hfound
        have hfits := (fits_and_shallow_of_load (loadLocked_eq_ok hload).2).1
        refine ⟨.inl ⟨v, h⟩, ?_⟩
        rw [hproperties]
        exact (hfits.shelves session.tenant item).copies _ _ _ hc
  updateVersion {session item version v d d'} hvalues hfinds h :=
    finds_of_changing (r := .updateVersion item v) rfl hvalues
      (fun hload hok => Store.getVersion_of_update hok (isSome_of_finds hfinds hload)) h
  publish {session item version message d d'} h :=
    finds_of_changing (r := .publish item version message) rfl .empty
      (fun _ hok => Store.getVersion_of_onShelf Shelf.copy_of_publish hok) h
  sync {session item version d d'} h :=
    finds_of_changing (r := .sync item version) rfl .empty
      (fun _ hok => Store.getVersion_of_onShelf Shelf.copy_of_sync hok) h
  forceSync {session item version d d'} h :=
    finds_of_changing (r := .forceSync item version) rfl .empty
      (fun _ hok => Store.getVersion_of_onShelf Shelf.copy_of_forceSync hok) h
  error_of_buried hburied :=
    let ⟨e, he⟩ := hburied.loadLocked _
    ⟨e, _, getVersion_of_load_error he⟩

/-- A version that is buried is not found: the call fails because the file cannot be read. -/
theorem Buried.getVersion (h : Buried f session item version d) :
    (backend f false fresh).getVersion session item version d = .error .unreadable d :=
  getVersion_of_load_error h.load

/-- **An update may bury what it edits.** The store reports a success, and the look at what it did fails. -/
theorem update_of_buried {v request : Version} {s' : Store} (hload : File.load f d = .ok s)
    (hcopy : s.getVersion session item version = some v)
    (hcurrent : (v.isCertified && v.isOutOfSync) = false)
    (hedit : Store.updateVersion fresh.clock.updateVersion session item (v.overlay request) s = .ok () s')
    (hsave : save f s' d = .ok () d') (hburied : Buried f session item version d') :
    Versions.update (backend f false fresh) session item version request d
      = .error (.ofStore .unreadable) d' := by
  have hget : (backend f false fresh).getVersion session item version d = .ok (some v) d := by
    have hlocked : File.loadLocked f false d = .ok s := hload
    rw [getVersion_of_load hlocked, hcopy]
  have hread : Versions.get (backend f false fresh) session item version d = .ok v d := by
    rw [Versions.get, bind_ok (Call.ofStore_ok hget)]
    simp only [hcurrent, Bool.false_eq_true, if_false]
    rfl
  have hupdate : (backend f false fresh).updateVersion session item (v.overlay request) d = .ok () d' := by
    have hsaved := changing_of_load hload
      (Store.updateVersion fresh.clock.updateVersion session item (v.overlay request))
    simp only [hedit, hsave] at hsaved
    exact hsaved
  rw [Versions.update, bind_ok hread, bind_ok (Call.ofStore_ok hupdate), Versions.refetch,
    bind_error (Call.ofStore_error hburied.getVersion)]

end File

/-- **No success is empty.** Take any request to an engine, from any store in memory, and from anything on a disk,
with any values of properties that can be read (`Json.yields_value`). After a success of a pull, an edit or a
publication the version is in the store, with both backends, and so no request fails because the store is
inconsistent. Over a file the version is also found again, unless the document that it is in is too deep to be
read. -/
theorem no_success_is_empty (fresh : Fresh) (naming : Calculator) (session : Session) (r : Request) :
    ((Memory.backend fresh).Reliable (fun _ _ _ _ => False) (fun _ => True) ∧ ∀ (s : Store) (text : String),
      answerOf (r.run (Memory.backend fresh) naming session s)
        ≠ .error (.internalConsistency text)) ∧
    ∀ (f : FileSettings) (locked : Bool),
      (File.backend f locked fresh).Reliable (File.Buried f) Json.IsValue ∧
      (r.properties.All Json.IsValue → ∀ (d : Disk) (text : String),
        answerOf (r.run (File.backend f locked fresh) naming session d)
          ≠ .error (.internalConsistency text)) := by
  refine ⟨⟨Memory.reliable fresh, fun s text herror => ?_⟩, fun f locked =>
    ⟨File.reliable f locked fresh, fun hvalues d text herror => ?_⟩⟩
  · have hdelivers := Request.delivers (Memory.reliable fresh) naming session (r := r)
      (fun _ _ _ => trivial) s
    exact hdelivers.consistent (eq_error_of_answerOf herror) rfl
  · have hdelivers := Request.delivers (File.reliable f locked fresh) naming session hvalues d
    exact hdelivers.consistent (eq_error_of_answerOf herror) rfl

/-- A copy of a version. -/
def draftedCopy : Version :=
  { Version.blank with
    id := "v1", created := some Store.noon, modified := some Store.noon, state := some ⟨.upToDate, true⟩ }

/-- What it is to be given: a property whose value is 118 deep. -/
def deepProperty : Version :=
  Version.blank.setProperty "p" (Json.nested 117)

/-- An item and a version are made, and the version is edited. -/
def deepEdit : List (Event Operation) :=
  let make (r : StoreRequest) : Event Operation :=
    ⟨⟨"", "v1", "", Store.noon⟩, ⟨"alice", "acme"⟩, .store r⟩
  [newItem "i1", make (.createVersion "i1" Version.blank),
    make (.updateVersion "i1" (draftedCopy.overlay deepProperty))]

/-- The store makes the edit; nobody finds the version after it, and the update fails. -/
theorem deep_edit_buried :
    let file := File.backend catalogFile false ⟨"", "v1", "", Store.noon⟩
    let alice : Session := ⟨"alice", "acme"⟩
    let before := Platform.memory.after .empty (deepEdit.take 2)
    let after := Platform.memory.after .empty deepEdit
    let edit : Request := .updateVersion "i1" "v1" deepProperty
    edit.properties.All Json.IsValue ∧
      File.Buried catalogFile alice "i1" "v1" (catalogDisk after) ∧
      edit.run file .standard alice (catalogDisk before)
        = .error (.ofStore .unreadable) (catalogDisk after) ∧
      ∀ text, answerOf (edit.run file .standard alice (catalogDisk before))
        ≠ .error (.internalConsistency text) := by
  intro file alice before after edit
  have hvalues : edit.properties.All Json.IsSteady := .insert .empty (Json.isSteady_nested 117)
  have hedit : edit.properties.All Json.IsValue := fun k v hv => (hvalues k v hv).toIsValue
  have hhistory : ∀ e ∈ deepEdit, e.request.properties.All Json.IsSteady := by
    intro e he
    simp only [deepEdit, List.mem_cons, List.not_mem_nil, or_false] at he
    rcases he with rfl | rfl | rfl
    · exact .empty
    · exact .empty
    · exact Keyed.All.overlay .empty hvalues
  have hbefore : File.Keeps catalogFile (catalogDisk before) before :=
    ⟨rfl, Platform.within_after (fun e he => hhistory e (List.mem_of_mem_take he)) Store.within_empty,
      by decide +kernel⟩
  have hafter : File.Holds catalogFile (catalogDisk after) after :=
    ⟨rfl, Platform.fits_after
      (fun e he k v hv => Json.IsSteady.toIsValue (hhistory e he k v hv)) Store.fits_empty⟩
  have hdeep : ¬ after.Shallow := by
    rw [← Store.depth_toJson_le_iff]
    decide +kernel
  have hburied : File.Buried catalogFile alice "i1" "v1" (catalogDisk after) :=
    ⟨after, hafter, hdeep, by decide +kernel⟩
  have hupdate : Versions.update file alice "i1" "v1" deepProperty (catalogDisk before)
      = .error (.ofStore .unreadable) (catalogDisk after) :=
    File.update_of_buried (v := draftedCopy) hbefore.load (by decide +kernel) rfl rfl
      (save_catalogDisk _ _) hburied
  exact ⟨hedit, hburied, map_error hupdate,
    ((no_success_is_empty _ .standard alice edit).2 catalogFile false).2 hedit _⟩

end VersionCatalog
