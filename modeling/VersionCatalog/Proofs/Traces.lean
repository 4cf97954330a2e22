import Mathlib.Data.Fintype.EquivFin
import VersionCatalog.Proofs.Backends
import VersionCatalog.Proofs.Copies
import VersionCatalog.Proofs.Serving

/-!
# Operations as store calls

What a request of the engine leaves in the memory is what some store calls leave there, made one after the
other in its session (`Store.Made`). These calls share what is supplied to the request, but no two of them
take a new id of the same kind. So each may as well be supplied with ids of its own, of which only the one
that it takes matters, and then a history of operations ends in the same store as a history of store calls in
which no id is supplied twice. What is shown for every history of store calls thus holds after every history
of operations.

## Main results

* `Store.made_serve`: the store calls of a request.
* `Store.Made.exists_calls`: calls that share what they are supplied, as a history with new ids.
* `Platform.exists_calls`: a history of operations, as a history of store calls.
* `Store.Consistent.serve`: a request keeps the store consistent.
* `Platform.consistent_after`, `Store.consistent_afterServing`: the store is consistent after every history.
-/

namespace VersionCatalog

/-! ### Ids by their kinds -/

/-- The kinds of ids. -/
inductive IdKind where
  | item
  | version
  | revision
  deriving DecidableEq

namespace Fresh

variable {f g : Fresh} {kind : IdKind}

/-- The id of a kind. -/
def id (f : Fresh) : IdKind → String
  | .item => f.item
  | .version => f.version
  | .revision => f.revision

theorem apart_iff : f.Apart g ↔ ∀ kind, f.id kind ≠ g.id kind := by
  constructor
  · intro h kind
    cases kind
    · exact h.item
    · exact h.version
    · exact h.revision
  · intro h
    exact ⟨h .item, h .version, h .revision⟩

/-- There are always ids that were not supplied yet. -/
theorem exists_apart (past : List Fresh) (clock : Clock) :
    ∃ f : Fresh, f.clock = clock ∧ ∀ g ∈ past, g.Apart f := by
  have hnew : ∀ ids : List String, ∃ new, new ∉ ids := by
    intro ids
    obtain ⟨new, hnew⟩ := Infinite.exists_notMem_finset ids.toFinset
    exact ⟨new, fun h => hnew (List.mem_toFinset.2 h)⟩
  obtain ⟨item, hitem⟩ := hnew (past.map (·.item))
  obtain ⟨version, hversion⟩ := hnew (past.map (·.version))
  obtain ⟨revision, hrevision⟩ := hnew (past.map (·.revision))
  refine ⟨⟨item, version, revision, clock⟩, rfl, fun g hg => ⟨?_, ?_, ?_⟩⟩
  · exact fun h => hitem (List.mem_map.2 ⟨g, hg, h⟩)
  · exact fun h => hversion (List.mem_map.2 ⟨g, hg, h⟩)
  · exact fun h => hrevision (List.mem_map.2 ⟨g, hg, h⟩)

/-- What `other` supplies, but for the id of one kind, which is that of `f`. -/
def taking (f : Fresh) (kind : Option IdKind) (other : Fresh) : Fresh where
  item := if kind = some .item then f.item else other.item
  version := if kind = some .version then f.version else other.version
  revision := if kind = some .revision then f.revision else other.revision
  clock := other.clock

theorem id_taking (f : Fresh) (taken : Option IdKind) (other : Fresh) (kind : IdKind) :
    (f.taking taken other).id kind = if taken = some kind then f.id kind else other.id kind := by
  cases kind <;> rfl

end Fresh

/-! ### Store calls with shared ids -/

/-- The kind of the new id that a store call takes. -/
def StoreRequest.takes? : StoreRequest → Option IdKind
  | .createItem _ => some .item
  | .createVersion _ _ => some .version
  | .publish _ _ _ => some .revision
  | _ => none

theorem StoreRequest.takes?_eq_none {r : StoreRequest} (h : r.takesId = false) : r.takes? = none := by
  cases r <;> first | rfl | cases h

namespace Store

variable {f g : Fresh} {session : Session} {kinds kinds' : List IdKind} {s s' s'' : Store}
  {r : StoreRequest}

/-- Of all that is supplied to a store call only the id that it takes and the clock matter. -/
theorem next_congr (hclock : f.clock = g.clock) (hid : ∀ kind, r.takes? = some kind → f.id kind = g.id kind) :
    s.next ⟨f, session, r⟩ = s.next ⟨g, session, r⟩ := by
  simp only [next, result]
  cases r with
  | createItem x =>
      have hitem : f.item = g.item := hid .item rfl
      simp only [StoreRequest.run, Memory.backend, Keeper.backend, hitem, hclock]
  | createVersion item v =>
      have hversion : f.version = g.version := hid .version rfl
      simp only [StoreRequest.run, Memory.backend, Keeper.backend, hversion, hclock]
  | publish item version message =>
      have hrevision : f.revision = g.revision := hid .revision rfl
      simp only [StoreRequest.run, Memory.backend, Keeper.backend, hrevision, hclock]
  | _ => simp only [StoreRequest.run, Memory.backend, Keeper.backend, hclock]

/-- The store becomes another one by store calls of a session that are all supplied with `f` and take new ids
of the given kinds at most, each of them once for each time that it is given. -/
def Made (f : Fresh) (session : Session) (kinds : List IdKind) (s s' : Store) : Prop :=
  ∃ calls : List StoreRequest, (calls.filterMap StoreRequest.takes?).Sublist kinds ∧
    s' = s.after (calls.map fun r => ⟨f, session, r⟩)

namespace Made

theorem refl (s : Store) : Made f session kinds s s :=
  ⟨[], List.nil_sublist _, rfl⟩

theorem mono (h : Made f session kinds s s') (hsub : kinds.Sublist kinds') :
    Made f session kinds' s s' :=
  let ⟨calls, hkinds, hs'⟩ := h
  ⟨calls, hkinds.trans hsub, hs'⟩

theorem trans (h : Made f session kinds s s') (h' : Made f session kinds' s' s'') :
    Made f session (kinds ++ kinds') s s'' := by
  obtain ⟨calls, hkinds, rfl⟩ := h
  obtain ⟨calls', hkinds', rfl⟩ := h'
  refine ⟨calls ++ calls', ?_, ?_⟩
  · rw [List.filterMap_append]
    exact hkinds.append hkinds'
  · rw [List.map_append, after, after, after, List.foldl_append]

/-- One call. -/
theorem next (f : Fresh) (session : Session) (r : StoreRequest) (s : Store) :
    Made f session r.takes?.toList s (s.next ⟨f, session, r⟩) := by
  refine ⟨[r], ?_, rfl⟩
  cases h : r.takes? <;> simp [h]

/-- One call, as the engine makes it. -/
theorem call {α : Type} {x : Change α} (f : Fresh) (session : Session) (r : StoreRequest)
    (answer : α → Answer) (hr : r.run (Memory.backend f) session = answer <$> x) (s : Store) :
    Made f session r.takes?.toList s (stateOf (Call.ofStore x s)) := by
  rw [stateOf_ofStore_of_run hr]
  exact next f session r s

/-- Calls of the engine made one after the other. -/
theorem bind {α β : Type} {x : Call Store α} {g : α → Call Store β}
    (hx : Made f session kinds s (stateOf (x s)))
    (hg : ∀ a s', Made f session kinds' s' (stateOf (g a s'))) :
    Made f session (kinds ++ kinds') s (stateOf ((x >>= g) s)) := by
  cases hres : x s with
  | ok a s₁ =>
      rw [hres] at hx
      rw [bind_ok hres]
      exact hx.trans (hg a s₁)
  | error e s₁ =>
      rw [hres] at hx
      rw [bind_error hres]
      exact hx.mono (List.sublist_append_left kinds kinds')

/-- A call that only looks does not count. -/
theorem bind_read {α β : Type} {x : Call Store α} {g : α → Call Store β} (hx : stateOf (x s) = s)
    (hg : ∀ a s', Made f session kinds s' (stateOf (g a s'))) :
    Made f session kinds s (stateOf ((x >>= g) s)) := by
  have hstays : Made f session [] s (stateOf (x s)) := hx.symm ▸ refl s
  exact hstays.bind hg

/-! ### The engine's calls -/

variable (f session) (item version : String)

theorem get (s : Store) :
    Made f session [] s (stateOf (Versions.get (Memory.backend f) session item version s)) := by
  rcases Versions.stateOf_get f session item version s with hsame | ⟨r, -, hunused, -, hnext⟩
  · rw [hsame]
    exact refl s
  · have hmade := next f session r s
    rw [StoreRequest.takes?_eq_none hunused] at hmade
    rw [hnext]
    exact hmade

theorem updateTally (change : Tally → Tally) (s : Store) :
    Made f session [] s
      (stateOf (Versions.updateTally (Memory.backend f) session item change s)) := by
  refine bind_read rfl fun x s' => ?_
  cases x with
  | none => exact refl s'
  | some x => exact call f session (.updateItem { x with tally := change x.tally }) (fun () => .done) rfl s'

theorem update (request : Version) (s : Store) :
    Made f session [] s
      (stateOf (Versions.update (Memory.backend f) session item version request s)) := by
  refine (get f session item version s).bind fun v s₁ => ?_
  rw [Versions.stateOf_bind_refetch]
  have hmade := call f session (.updateVersion item (v.overlay request)) (fun () => .done) rfl s₁
  rwa [Call.stateOf_ofStore] at hmade

theorem updateStatus (status : VersionStatus) (message : String) (s : Store) :
    Made f session [.revision] s (stateOf
      (Versions.updateStatus (Memory.backend f) session item version status message s)) := by
  rw [Versions.updateStatus_eq]
  refine (get f session item version s).bind fun v s₁ => ?_
  split
  · exact refl s₁
  · split
    · exact refl s₁
    · have hupdate := call f session (.updateVersion item { v with status := status })
        (fun () => .done) rfl s₁
      refine hupdate.bind fun _ s₂ => ?_
      have hpublish := call f session (.publish item version message) (fun () => .done) rfl s₂
      exact hpublish.bind fun _ s₃ => updateTally f session item _ s₃

theorem createNamed (v : Version) (s : Store) :
    Made f session [.version, .revision] s
      (stateOf (Versions.createNamed (Memory.backend f) session item v s)) := by
  have hcreate := call f session (.createVersion item v) .version rfl s
  refine hcreate.bind fun created s₁ => ?_
  refine (updateTally f session item _ s₁).bind fun _ s₂ => ?_
  have hpublish := call f session (.publish item created.id s!"Create version: {created.name}")
    (fun () => .done) rfl s₂
  refine hpublish.bind fun _ s₃ => ?_
  rw [Versions.stateOf_refetch]
  exact refl s₃

theorem create (naming : Calculator) (base : Option String) (request : Version) (step : Step)
    (s : Store) :
    Made f session [.version, .revision] s (stateOf
      (Versions.create (Memory.backend f) naming session item base request step s)) := by
  rw [Versions.create_eq]
  have hbase : Made f session [] s (stateOf ((base.elim (pure none) fun id =>
      some <$> Versions.certifiedBase (Memory.backend f) session item id) s)) := by
    cases base with
    | none => exact refl s
    | some id =>
        rw [Option.elim_some, stateOf_map, Versions.stateOf_certifiedBase]
        exact get f session item id s
  refine hbase.bind fun base s₁ => ?_
  refine bind_read (Call.stateOf_ofExcept _ s₁) fun name s₂ => ?_
  refine bind_read rfl fun existing s₃ => ?_
  split
  · exact refl s₃
  · exact createNamed f session item _ s₃

theorem items_update (request : Item) (s : Store) :
    Made f session [] s (stateOf (Items.update (Memory.backend f) session item request s)) := by
  refine bind_read (Items.stateOf_get s) fun x s₁ => ?_
  have hupdate := call f session (.updateItem (x.overlay request)) (fun () => .done) rfl s₁
  refine hupdate.bind fun _ s₂ => ?_
  rw [Items.stateOf_get]
  exact refl s₂

theorem items_updateStatus (status : ItemStatus) (s : Store) :
    Made f session [] s
      (stateOf (Items.updateStatus (Memory.backend f) session item status s)) := by
  refine bind_read (Items.stateOf_get s) fun x s₁ => ?_
  dsimp only
  split
  · exact refl s₁
  · have hupdate := call f session (.updateItem { x with status := status }) (fun () => .done) rfl s₁
    exact hupdate.bind fun _ s₂ => refl s₂

theorem delete (s : Store) :
    Made f session [] s (stateOf (Items.delete (Memory.backend f) session item s)) :=
  bind_read (Items.stateOf_get s) fun _ s₁ => call f session (.deleteItem item) (fun () => .done) rfl s₁

end Made

end Store

/-- The kinds of the new ids that a request to the engine takes. -/
def Request.takes : Request → List IdKind
  | .createItem _ => [.item]
  | .createVersion _ _ _ _ => [.version, .revision]
  | .setVersionStatus _ _ _ _ | .publish _ _ _ => [.revision]
  | _ => []

theorem Request.nodup_takes (r : Request) : r.takes.Nodup := by
  cases r <;> simp [takes]

/-- The kinds of the new ids that an operation takes. -/
def Operation.takes : Operation → List IdKind
  | store r => r.takes?.toList
  | engine _ r => r.takes
  | checkHealth => []

theorem Operation.nodup_takes (o : Operation) : o.takes.Nodup := by
  cases o with
  | store r => cases h : r.takes? <;> simp [takes, h]
  | engine naming r => exact r.nodup_takes
  | checkHealth => exact .nil

/-- **What a request leaves is what store calls leave**, made in its session with what it is supplied. -/
theorem Store.made_serve (naming : Calculator) (s : Store) (e : Event Request) :
    Made e.fresh e.session e.request.takes s (s.serve naming e) := by
  obtain ⟨f, session, r⟩ := e
  rw [serve, served]
  cases r <;> rw [Request.run, stateOf_map]
  case listItems | listRevisions | deleteVersion => exact .refl s
  case getItem i =>
    rw [Items.stateOf_get]
    exact .refl s
  case createItem x => exact .call f session (.createItem (Item.blank.overlay x)) .item rfl s
  case updateItem i x => exact .items_update f session i x s
  case deleteItem i => exact .delete f session i s
  case setItemStatus i status => exact .items_updateStatus f session i status s
  case listVersions i =>
    exact .bind_read rfl fun _ s₁ => by
      rw [Call.stateOf_ofExcept]
      exact .refl s₁
  case getVersion i v => exact .get f session i v s
  case createVersion i base v step => exact .create f session i naming base v step s
  case updateVersion i v x => exact .update f session i v x s
  case setVersionStatus i v status message => exact .updateStatus f session i v status message s
  case publish i v message => exact .call f session (.publish i v message) (fun () => .done) rfl s
  case sync i v => exact .call f session (.sync i v) (fun () => .done) rfl s
  case forceSync i v => exact .call f session (.forceSync i v) (fun () => .done) rfl s
  case clean i v => exact .call f session (.clean i v) (fun () => .done) rfl s
  case revert i v revision => exact .call f session (.revert i v revision) (fun () => .done) rfl s

/-! ### Histories of operations -/

/-- **Calls that share what they are supplied are a history with new ids**, if no two of them take an id of
one kind: each is supplied with the id that it takes, and beside it with ids that nothing takes. -/
theorem Store.Made.exists_calls {f : Fresh} {session : Session} {kinds : List IdKind} {s s' : Store}
    (h : Made f session kinds s s') (hkinds : kinds.Nodup) {past : List Fresh}
    (hnew : ∀ g ∈ past, ∀ kind ∈ kinds, g.id kind ≠ f.id kind) :
    ∃ calls : List (Event StoreRequest), FreshIds calls ∧
      (∀ c ∈ calls, ∀ g ∈ past, g.Apart c.fresh) ∧ s' = s.after calls := by
  obtain ⟨calls, hsub, rfl⟩ := h
  replace hkinds := hkinds.sublist hsub
  replace hnew : ∀ g ∈ past, ∀ kind ∈ calls.filterMap StoreRequest.takes?, g.id kind ≠ f.id kind :=
    fun g hg kind hkind => hnew g hg kind (hsub.subset hkind)
  clear hsub
  induction calls generalizing s past with
  | nil => exact ⟨[], .nil, by simp, rfl⟩
  | cons r calls ih =>
      -- the other ids are new to `f` as well, so the later calls can still take those of `f`
      obtain ⟨other, hclock, hother⟩ := Fresh.exists_apart (f :: past) f.clock
      let supplied := f.taking r.takes? other
      have hpast : ∀ g ∈ past, g.Apart supplied := by
        intro g hg
        refine Fresh.apart_iff.2 fun kind => ?_
        rw [Fresh.id_taking]
        split
        · rename_i htakes
          exact hnew g hg kind (List.mem_filterMap.2 ⟨r, List.mem_cons_self, htakes⟩)
        · exact Fresh.apart_iff.1 (hother g (List.mem_cons_of_mem _ hg)) kind
      have hlater : ∀ kind ∈ calls.filterMap StoreRequest.takes?, supplied.id kind ≠ f.id kind := by
        intro kind hkind
        have hne : r.takes? ≠ some kind := by
          intro htakes
          rw [List.filterMap_cons_some htakes, List.nodup_cons] at hkinds
          exact hkinds.1 hkind
        rw [Fresh.id_taking, if_neg hne]
        exact (Fresh.apart_iff.1 (hother f List.mem_cons_self) kind).symm
      have htail : ∀ kind, kind ∈ calls.filterMap StoreRequest.takes? →
          kind ∈ (r :: calls).filterMap StoreRequest.takes? := by
        intro kind hkind
        obtain ⟨c, hc, htakes⟩ := List.mem_filterMap.1 hkind
        exact List.mem_filterMap.2 ⟨c, List.mem_cons_of_mem _ hc, htakes⟩
      have hnext : s.next ⟨f, session, r⟩ = s.next ⟨supplied, session, r⟩ :=
        next_congr hclock.symm fun kind htakes => by rw [Fresh.id_taking, if_pos htakes]
      have hnewer : ∀ g ∈ supplied :: past, ∀ kind ∈ calls.filterMap StoreRequest.takes?,
          g.id kind ≠ f.id kind :=
        List.forall_mem_cons.2 ⟨hlater, fun g hg kind hkind => hnew g hg kind (htail kind hkind)⟩
      obtain ⟨more, hfresh, hmore, hafter⟩ := ih (s := s.next ⟨supplied, session, r⟩)
        (hkinds.sublist ((List.sublist_cons_self r calls).filterMap _)) hnewer
      refine ⟨⟨supplied, session, r⟩ :: more, List.pairwise_cons.2 ⟨fun c hc => ?_, hfresh⟩,
        List.forall_mem_cons.2 ⟨hpast, fun c hc g hg => ?_⟩, ?_⟩
      · exact hmore c hc supplied List.mem_cons_self
      · exact hmore c hc g (List.mem_cons_of_mem _ hg)
      · rw [List.map_cons, after_cons, hnext, after_cons, hafter]

/-- **A request keeps the store consistent**, if its ids are new. -/
theorem Store.Consistent.serve {s : Store} {past : List Fresh} (h : s.Consistent)
    (hknown : s.KnownIds past) {e : Event Request} (hnew : ∀ g ∈ past, g.Apart e.fresh)
    (naming : Calculator) : (s.serve naming e).Consistent := by
  obtain ⟨calls, hcalls, hapart, hafter⟩ := (s.made_serve naming e).exists_calls
    e.request.nodup_takes fun g hg kind _ => Fresh.apart_iff.1 (hnew g hg) kind
  rw [hafter]
  exact h.after hknown hcalls hapart

namespace Platform

/-- The store calls of an operation take ids of the kinds that it takes. -/
theorem made_takes (s : Store) (e : Event Operation) :
    Store.Made e.fresh e.session e.request.takes s (memory.perform s e).2 := by
  obtain ⟨f, session, request⟩ := e
  cases request with
  | store r => exact .next f session r s
  | engine naming r => exact s.made_serve naming ⟨f, session, r⟩
  | checkHealth => exact .refl s

/-- The store calls of an operation, none of which takes an id of a kind that another one takes. -/
theorem made_perform (s : Store) (e : Event Operation) :
    ∃ kinds : List IdKind, kinds.Nodup ∧
      Store.Made e.fresh e.session kinds s (memory.perform s e).2 :=
  ⟨e.request.takes, e.request.nodup_takes, made_takes s e⟩

/-- **A history of operations ends like a history of store calls**, with new ids. -/
theorem exists_calls {history : List (Event Operation)} (hfresh : FreshIds history) {past : List Fresh}
    (hpast : ∀ e ∈ history, ∀ g ∈ past, g.Apart e.fresh) (s : Store) :
    ∃ calls : List (Event StoreRequest), FreshIds calls ∧
      (∀ c ∈ calls, ∀ g ∈ past, g.Apart c.fresh) ∧ memory.after s history = s.after calls := by
  induction history generalizing s past with
  | nil => exact ⟨[], .nil, by simp, rfl⟩
  | cons e history ih =>
      obtain ⟨kinds, hkinds, hmade⟩ := made_perform s e
      obtain ⟨hlater, htail⟩ := List.pairwise_cons.1 hfresh
      obtain ⟨hpast_e, hpast⟩ := List.forall_mem_cons.1 hpast
      -- the ids beside those that the calls of `e` take are new to the later operations, too
      have hnew : ∀ g ∈ past ++ history.map (·.fresh), ∀ kind ∈ kinds,
          g.id kind ≠ e.fresh.id kind := by
        intro g hg kind _
        rcases List.mem_append.1 hg with hg | hg
        · exact Fresh.apart_iff.1 (hpast_e g hg) kind
        · obtain ⟨d, hd, rfl⟩ := List.mem_map.1 hg
          exact (Fresh.apart_iff.1 (hlater d hd) kind).symm
      obtain ⟨calls, hcalls, hapart, hnext⟩ := hmade.exists_calls hkinds hnew
      have hpast' : ∀ d ∈ history, ∀ g ∈ past ++ calls.map (·.fresh), g.Apart d.fresh := by
        intro d hd g hg
        rcases List.mem_append.1 hg with hg | hg
        · exact hpast d hd g hg
        · obtain ⟨c, hc, rfl⟩ := List.mem_map.1 hg
          have hd' := hapart c hc d.fresh
            (List.mem_append_right _ (List.mem_map_of_mem (f := (·.fresh)) hd))
          exact Fresh.apart_iff.2 fun kind => (Fresh.apart_iff.1 hd' kind).symm
      obtain ⟨more, hmore, hmoreNew, hafter⟩ := ih htail hpast' (memory.perform s e).2
      refine ⟨calls ++ more, List.pairwise_append.2 ⟨hcalls, hmore, fun c hc d hd => ?_⟩,
        fun c hc g hg => ?_, ?_⟩
      · exact hmoreNew d hd c.fresh
          (List.mem_append_right _ (List.mem_map_of_mem (f := (·.fresh)) hc))
      · rcases List.mem_append.1 hc with hc | hc
        · exact hapart c hc g (List.mem_append_left _ hg)
        · exact hmoreNew c hc g (List.mem_append_left _ hg)
      · rw [Platform.after, List.foldl_cons]
        change memory.after (memory.perform s e).2 history = _
        rw [hafter, hnext, Store.after, Store.after, Store.after, List.foldl_append]

/-- The store is consistent after every history of operations with new ids. -/
theorem consistent_after {history : List (Event Operation)} (hfresh : FreshIds history) :
    (memory.after .empty history).Consistent := by
  have hnone : ∀ e ∈ history, ∀ g ∈ ([] : List Fresh), g.Apart e.fresh := by simp
  obtain ⟨calls, hcalls, -, hafter⟩ := exists_calls hfresh hnone .empty
  have hknown : Store.empty.KnownIds [] := .empty
  rw [hafter]
  exact Store.Consistent.empty.after hknown hcalls (by simp)

end Platform

/-- The store is consistent after every history of requests with new ids. -/
theorem Store.consistent_afterServing (naming : Calculator) {history : List (Event Request)}
    (hfresh : FreshIds history) : (empty.afterServing naming history).Consistent := by
  let operation (e : Event Request) : Event Operation := ⟨e.fresh, e.session, .engine naming e.request⟩
  have hafter : Platform.memory.after .empty (history.map operation) = empty.afterServing naming history :=
    List.foldl_map
  rw [← hafter]
  exact Platform.consistent_after (List.pairwise_map.2 hfresh)

end VersionCatalog
