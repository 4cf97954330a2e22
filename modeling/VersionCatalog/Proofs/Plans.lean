import VersionCatalog.Backend.Scripted
import VersionCatalog.Proofs.Calls

/-!
# What the engine asks of a store

A scripted backend answers anything, so what the engine asks of it is what it asks of any store. For each
request there are plans, the lists of calls that are made if all goes well (`Request.plans`). A request that
succeeds has followed one of them to its end. One that fails has stopped on the way: after a call that fails the
store is not asked again.

A reading asks the store once. Only a look at a version may pull it and look again, and it does that once: the
version is pulled where the user has no copy of it, or a certified one that is behind, and if it is missing even
then, the look fails with an error of its own.

## Main results

* `Request.follows`: every request follows one of its plans, as far as it comes.
* `Request.asks_once`, `Request.pulls_le_one`: a reading asks once, and no request pulls more than once.
* `Versions.looked`: what a look at a version asks, and what comes of it.
-/

namespace VersionCatalog

/-- Lists of calls, one of which is made. -/
abbrev Plans := List (List String)

/-- The calls of one plan, and then those of another one. -/
def Plans.andThen (first next : Plans) : Plans :=
  first.flatMap fun plan => next.map (plan ++ ·)

namespace Script

variable {α β : Type} {P Q : Plans} {x : Call Script α}

/-- The names of the calls so far, the first one first. -/
def names (s : Script) : List String :=
  s.calls.map (·.call)

/-- What a call of the engine asks, of whatever script: one of the plans, up to where it fails. -/
def Follows (plans : Plans) (x : Call Script α) : Prop :=
  ∀ s, ∃ asked, (stateOf (x s)).names = s.names ++ asked ∧
    ∃ plan ∈ plans, asked <+: plan ∧ ∀ a s', x s = .ok a s' → asked = plan

/-- A call that pulls a version. -/
def isPull (call : String) : Bool :=
  call == "sync" || call == "force_sync"

/-! ### One call -/

/-- A call of the store is asked once, and answered with a value or an error. -/
theorem names_answer (call : String) (arguments : List Json) (read : Json → Option α) (plain : α)
    (s : Script) : (stateOf (answer call arguments read plain s)).names = s.names ++ [call] := by
  have hnames : ∀ t : Script, t.asked = ⟨call, arguments⟩ :: s.asked → t.names = s.names ++ [call] := by
    intro t ht
    simp [names, calls, ht]
  refine hnames _ ?_
  rw [answer]
  cases s.answers.getD call [] with
  | nil => rfl
  | cons next rest => cases next <;> rfl

theorem follows_answer (call : String) (arguments : List Json) (read : Json → Option α) (plain : α) :
    Follows [[call]] (.ofStore (answer call arguments read plain)) := by
  intro s
  refine ⟨[call], ?_, [call], List.mem_singleton_self _, List.prefix_rfl, fun _ _ _ => rfl⟩
  rw [Call.stateOf_ofStore, names_answer]

namespace Follows

theorem pure (a : α) : Follows [[]] (Pure.pure a) :=
  fun _ => ⟨[], (List.append_nil _).symm, [], List.mem_singleton_self _, List.prefix_rfl, fun _ _ _ => rfl⟩

theorem throw (h : P ≠ []) (e : EngineError) :
    Follows P (MonadExcept.throw e : Call Script α) := by
  obtain ⟨plan, hplan⟩ := List.exists_mem_of_ne_nil P h
  refine fun s => ⟨[], (List.append_nil _).symm, plan, hplan, List.nil_prefix, fun a s' hok => ?_⟩
  cases hok

theorem ofExcept (r : Except EngineError α) : Follows [[]] (.ofExcept r) := by
  cases r with
  | ok a => exact pure a
  | error e => exact throw (by simp) e

theorem mono (h : Follows P x) (hsub : P ⊆ Q) : Follows Q x := by
  intro s
  obtain ⟨asked, hnames, plan, hplan, hasked⟩ := h s
  exact ⟨asked, hnames, plan, hsub hplan, hasked⟩

/-- **Calls that follow plans one after the other follow them together.** -/
theorem bind {f : α → Call Script β} (h : Follows P x) (hne : Q ≠ [])
    (hf : ∀ a, Follows Q (f a)) : Follows (P.andThen Q) (x >>= f) := by
  intro s
  obtain ⟨asked, hnames, plan, hplan, hprefix, hall⟩ := h s
  have hmem : ∀ next ∈ Q, plan ++ next ∈ P.andThen Q := fun next hnext =>
    List.mem_flatMap.2 ⟨plan, hplan, List.mem_map_of_mem hnext⟩
  cases hres : x s with
  | ok a s' =>
      obtain rfl := hall a s' hres
      obtain ⟨rest, hrest, next, hnext, hprefix', hall'⟩ := hf a s'
      rw [hres, stateOf_ok] at hnames
      refine ⟨asked ++ rest, ?_, asked ++ next, hmem next hnext, ?_, fun b s'' hok => ?_⟩
      · rw [bind_ok hres, hrest, hnames, List.append_assoc]
      · exact (List.prefix_append_right_inj asked).2 hprefix'
      · rw [bind_ok hres] at hok
        rw [hall' b s'' hok]
  | error e s' =>
      -- the rest of the plan is not asked for
      obtain ⟨next, hnext⟩ := List.exists_mem_of_ne_nil Q hne
      rw [hres] at hnames
      refine ⟨asked, ?_, plan ++ next, hmem next hnext, hprefix.trans (List.prefix_append _ _), ?_⟩
      · rw [bind_error hres]
        exact hnames
      · intro b s'' hok
        rw [bind_error hres] at hok
        cases hok

theorem map (g : α → β) (h : Follows P x) : Follows P (g <$> x) := by
  intro s
  obtain ⟨asked, hnames, plan, hplan, hprefix, hall⟩ := h s
  refine ⟨asked, (stateOf_map g x s).symm ▸ hnames, plan, hplan, hprefix, fun b s' hok => ?_⟩
  obtain ⟨a, hok, -⟩ := map_eq_ok.1 hok
  exact hall a s' hok

end Follows

end Script

/-! ### The engine's calls -/

open Script

variable (session : Session) (item version : String)

namespace Items

theorem follows_get : Follows [["items.get"]] (get backend session item) :=
  (follows_answer _ _ _ _).bind (Q := [[]]) (by simp) fun stored => by
    cases stored with
    | none => exact .throw (by simp) _
    | some stored => exact .pure stored

theorem follows_update (request : Item) :
    Follows [["items.get", "items.update", "items.get"]] (update backend session item request) :=
  (follows_get session item).bind (Q := [["items.update", "items.get"]]) (by simp) fun _ =>
    (follows_answer _ _ _ _).bind (by simp) fun _ => follows_get session item

theorem follows_delete :
    Follows [["items.get", "items.delete"]] (delete backend session item) :=
  (follows_get session item).bind (by simp) fun _ => follows_answer _ _ _ _

theorem follows_updateStatus (status : ItemStatus) :
    Follows [["items.get", "items.update"]] (updateStatus backend session item status) := by
  refine (follows_get session item).bind (Q := [["items.update"]]) (by simp) fun stored => ?_
  split
  · exact .throw (by simp) _
  · exact (follows_answer _ _ _ _).bind (Q := [[]]) (by simp) fun _ => .pure _

end Items

namespace Versions

/-- A look at a version, which may have to be pulled and looked at again. -/
def looks : Plans :=
  [["get"], ["get", "sync", "get"], ["get", "force_sync", "get"]]

/-- Making a version that has its name. -/
def making : Plans :=
  [["create", "items.get", "items.update", "publish", "get"]]

theorem follows_refetch (after : String) :
    Follows [["get"]] (refetch backend session item version after) :=
  (follows_answer _ _ _ _).bind (Q := [[]]) (by simp) fun v => by
    cases v with
    | none => exact .throw (by simp) _
    | some v => exact .pure v

theorem follows_get : Follows looks (get backend session item version) := by
  refine (follows_answer _ _ _ _).bind (Q := [[], ["sync", "get"], ["force_sync", "get"]]) (by simp)
    fun v => ?_
  have hpull : ∀ {call : String} (after : String),
      Follows [[call, "get"]] (.ofStore (done call [.text item, .text version]) >>= fun _ =>
        refetch backend session item version after) := fun after =>
    (follows_answer _ _ _ _).bind (by simp) fun _ => follows_refetch session item version after
  cases v with
  | none => exact (hpull "sync").mono (by simp)
  | some v =>
      dsimp only
      split
      · exact (hpull "force sync").mono (by simp)
      · exact (Follows.pure v).mono (by simp)

theorem follows_certifiedBase (base : String) :
    Follows looks (certifiedBase backend session item base) := by
  refine (follows_get session item base).bind (Q := [[]]) (by simp) fun v => ?_
  split
  · exact .pure v
  · exact .throw (by simp) _

theorem follows_updateTally (change : Tally → Tally) :
    Follows [["items.get", "items.update"]] (updateTally backend session item change) := by
  refine (follows_answer _ _ _ _).bind (Q := [["items.update"]]) (by simp) fun stored => ?_
  cases stored with
  | none => exact .throw (by simp) _
  | some stored => exact follows_answer _ _ _ _

theorem follows_createNamed (v : Version) : Follows making (createNamed backend session item v) :=
  (follows_answer _ _ _ _).bind (Q := [["items.get", "items.update", "publish", "get"]]) (by simp)
    fun _ => (follows_updateTally session item _).bind (Q := [["publish", "get"]]) (by simp)
      fun _ => (follows_answer _ _ _ _).bind (by simp) fun _ => follows_refetch session item _ _

theorem follows_create (naming : Calculator) (base : Option String) (request : Version) (step : Step) :
    Follows (Plans.andThen (base.elim [[]] fun _ => looks) (Plans.andThen [["list"]] making))
      (create backend naming session item base request step) := by
  rw [create_eq]
  have hbase : Follows (base.elim [[]] fun _ => looks)
      (base.elim (pure none) fun id => some <$> certifiedBase backend session item id) := by
    cases base with
    | none => exact .pure none
    | some id => exact (follows_certifiedBase session item id).map some
  refine hbase.bind (by decide) fun base => ?_
  refine (Follows.ofExcept _).bind (Q := Plans.andThen [["list"]] making) (by decide) fun name => ?_
  refine (follows_answer _ _ _ _).bind (by decide) fun existing => ?_
  split
  · exact .throw (by decide) _
  · exact follows_createNamed session item _

theorem follows_update (request : Version) :
    Follows (Plans.andThen looks [["update", "get"]])
      (update backend session item version request) :=
  (follows_get session item version).bind (by simp) fun _ =>
    (follows_answer _ _ _ _).bind (Q := [["get"]]) (by simp) fun _ => follows_refetch session item version _

theorem follows_updateStatus (status : VersionStatus) (message : String) :
    Follows (Plans.andThen looks [["update", "publish", "items.get", "items.update"]])
      (updateStatus backend session item version status message) := by
  rw [updateStatus_eq]
  refine (follows_get session item version).bind (by simp) fun v => ?_
  split
  · exact .throw (by simp) _
  split
  · exact .throw (by simp) _
  · exact (follows_answer _ _ _ _).bind (Q := [["publish", "items.get", "items.update"]]) (by simp)
      fun _ => (follows_answer _ _ _ _).bind (by simp) fun _ => follows_updateTally session item _

end Versions

/-! ### Requests -/

namespace Request

/-- What a request asks of a store if all goes well. -/
def plans : Request → Plans
  | listItems _ => [["items.list"]]
  | getItem _ => [["items.get"]]
  | createItem _ => [["items.create"]]
  | updateItem _ _ => [["items.get", "items.update", "items.get"]]
  | deleteItem _ => [["items.get", "items.delete"]]
  | setItemStatus _ _ => [["items.get", "items.update"]]
  | listVersions _ => [["list"]]
  | getVersion _ _ => Versions.looks
  | createVersion _ base _ _ =>
    .andThen (base.elim [[]] fun _ => Versions.looks) (.andThen [["list"]] Versions.making)
  | updateVersion _ _ _ => .andThen Versions.looks [["update", "get"]]
  | setVersionStatus _ _ _ _ =>
    .andThen Versions.looks [["update", "publish", "items.get", "items.update"]]
  | publish _ _ _ => [["publish"]]
  | sync _ _ => [["sync"]]
  | forceSync _ _ => [["force_sync"]]
  | clean _ _ => [["clean"]]
  | revert _ _ _ => [["revert"]]
  | listRevisions _ _ => [["list_revisions"]]
  | deleteVersion _ _ => [[]]

/-- **Every request follows one of its plans**, to the end if it succeeds. -/
theorem follows (naming : Calculator) (r : Request) :
    Follows r.plans (r.run backend naming session) := by
  cases r with
  | listItems keep =>
      exact ((follows_answer _ _ _ _).bind (Q := [[]]) (by simp) fun _ => .pure _).map _
  | getItem item => exact (Items.follows_get session item).map _
  | createItem request => exact (follows_answer _ _ _ _).map _
  | updateItem item request => exact (Items.follows_update session item request).map _
  | deleteItem item => exact (Items.follows_delete session item).map _
  | setItemStatus item status => exact (Items.follows_updateStatus session item status).map _
  | listVersions item =>
      exact ((follows_answer _ _ _ _).bind (Q := [[]]) (by simp) fun _ => .ofExcept _).map _
  | getVersion item version => exact (Versions.follows_get session item version).map _
  | createVersion item base request step =>
      exact (Versions.follows_create session item naming base request step).map _
  | updateVersion item version request =>
      exact (Versions.follows_update session item version request).map _
  | setVersionStatus item version status message =>
      exact (Versions.follows_updateStatus session item version status message).map _
  | listRevisions item version =>
      exact ((follows_answer _ _ _ _).bind (Q := [[]]) (by simp) fun _ => .pure _).map _
  | deleteVersion item version => exact (Follows.throw (by simp [plans]) _).map _
  | _ => exact (follows_answer _ _ _ _).map _

theorem countP_plan_le_one {r : Request} {plan : List String} (h : plan ∈ r.plans) :
    plan.countP isPull ≤ 1 := by
  have hall : r.plans.all (fun plan => decide (plan.countP isPull ≤ 1)) = true := by
    cases r with
    | createVersion item base request step => cases base <;> rfl
    | _ => rfl
  exact of_decide_eq_true (List.all_eq_true.1 hall plan h)

/-- **No request pulls more than once.** -/
theorem pulls_le_one (naming : Calculator) (r : Request) (s : Script) :
    (stateOf (r.run backend naming session s)).names.countP isPull ≤ s.names.countP isPull + 1 := by
  obtain ⟨asked, hnames, plan, hplan, hprefix, -⟩ := r.follows session naming s
  rw [hnames, List.countP_append]
  exact Nat.add_le_add_left (Nat.le_trans hprefix.sublist.countP_le (countP_plan_le_one hplan)) _

/-- The requests that only read, but for a look at a version. -/
def isReading : Request → Bool
  | listItems _ | getItem _ | listVersions _ | listRevisions _ _ => true
  | _ => false

/-- **A reading asks the store once.** -/
theorem asks_once (naming : Calculator) {r : Request} (h : r.isReading) (s : Script) :
    (stateOf (r.run backend naming session s)).names.length ≤ s.names.length + 1 := by
  obtain ⟨asked, hnames, plan, hplan, hprefix, -⟩ := r.follows session naming s
  have hall : r.plans.all (fun plan => decide (plan.length ≤ 1)) = true := by
    cases r <;> first | rfl | cases h
  have hlength : plan.length ≤ 1 := of_decide_eq_true (List.all_eq_true.1 hall plan hplan)
  rw [hnames, List.length_append]
  exact Nat.add_le_add_left (Nat.le_trans hprefix.length_le hlength) _

end Request

/-! ### A look at a version -/

namespace Versions

/-- What a look at a version asks, and what comes of it. -/
inductive Looked : (asked : List String) → Except EngineError Version → Prop
  | found (v : Version) : Looked ["get"] (.ok v)
  | failed (e : StoreError) : Looked ["get"] (.error (.ofStore e))
  /-- If the version cannot be pulled, it is not looked for again. -/
  | unpulled {pull : String} (h : isPull pull) (e : StoreError) :
    Looked ["get", pull] (.error (.ofStore e))
  | foundAgain {pull : String} (h : isPull pull) (v : Version) : Looked ["get", pull, "get"] (.ok v)
  | failedAgain {pull : String} (h : isPull pull) (e : StoreError) :
    Looked ["get", pull, "get"] (.error (.ofStore e))
  /-- If it is missing after that, it is not pulled again. -/
  | missing {pull : String} (h : isPull pull) (text : String) :
    Looked ["get", pull, "get"] (.error (.internalConsistency text))

/-- A look for a version that was pulled. -/
theorem looked_refetch {pull : String} (h : isPull pull) (after : String) (s : Script) :
    (stateOf (refetch backend session item version after s)).names = s.names ++ ["get"] ∧
      Looked ["get", pull, "get"] (answerOf (refetch backend session item version after s)) := by
  have hnames := names_answer "get" [.text item, .text version] (Json.optional? Version.ofJson?) none s
  change (stateOf (backend.getVersion session item version s)).names = _ at hnames
  rw [refetch]
  cases hlook : backend.getVersion session item version s with
  | error e s' =>
      rw [bind_error (Call.ofStore_error hlook)]
      rw [hlook] at hnames
      exact ⟨hnames, .failedAgain h e⟩
  | ok found s' =>
      rw [bind_ok (Call.ofStore_ok hlook)]
      rw [hlook] at hnames
      cases found with
      | none => exact ⟨hnames, .missing h _⟩
      | some v => exact ⟨hnames, .foundAgain h v⟩

/-- What a pull comes to, with the look after it. -/
theorem looked_pull {pull : String} (h : isPull pull) (arguments : List Json) (after : String)
    (s : Script) :
    let result := (.ofStore (done pull arguments) >>= fun _ =>
      refetch backend session item version after : Call Script Version) s
    ∃ asked, (stateOf result).names = s.names ++ asked ∧ Looked ("get" :: asked) (answerOf result) := by
  intro result
  have hnames : (stateOf (done pull arguments s)).names = s.names ++ [pull] :=
    names_answer pull arguments _ _ s
  cases hdone : done pull arguments s with
  | error e s' =>
      have hresult : result = .error (.ofStore e) s' := bind_error (Call.ofStore_error hdone)
      rw [hdone] at hnames
      rw [hresult]
      exact ⟨[pull], hnames, .unpulled h e⟩
  | ok u s' =>
      have hresult : result = refetch backend session item version after s' :=
        bind_ok (Call.ofStore_ok hdone)
      rw [hdone, stateOf_ok] at hnames
      obtain ⟨hlook, hlooked⟩ := looked_refetch session item version h after s'
      rw [hresult, hlook, hnames]
      exact ⟨[pull, "get"], List.append_assoc _ _ _, hlooked⟩

/-- **What a look at a version asks, and what comes of it**, whatever the store answers. -/
theorem looked (s : Script) :
    ∃ asked, (stateOf (get backend session item version s)).names = s.names ++ asked ∧
      Looked asked (answerOf (get backend session item version s)) := by
  have hnames := names_answer "get" [.text item, .text version] (Json.optional? Version.ofJson?) none s
  change (stateOf (backend.getVersion session item version s)).names = _ at hnames
  rw [get]
  cases hlook : backend.getVersion session item version s with
  | error e s' =>
      rw [bind_error (Call.ofStore_error hlook)]
      rw [hlook] at hnames
      exact ⟨["get"], hnames, .failed e⟩
  | ok found s' =>
      rw [bind_ok (Call.ofStore_ok hlook)]
      rw [hlook, stateOf_ok] at hnames
      have hpull : ∀ {pull : String}, isPull pull → ∀ after : String,
          let result := (.ofStore (done pull [.text item, .text version]) >>= fun _ =>
            refetch backend session item version after : Call Script Version) s'
          ∃ asked, (stateOf result).names = s.names ++ asked ∧ Looked asked (answerOf result) := by
        intro pull h after result
        obtain ⟨asked, hasked, hlooked⟩ := looked_pull session item version h [.text item, .text version] after s'
        refine ⟨"get" :: asked, ?_, hlooked⟩
        rw [hasked, hnames, List.append_assoc]
        rfl
      cases found with
      | none => exact hpull rfl "sync"
      | some v =>
          dsimp only
          split
          · exact hpull rfl "force sync"
          · exact ⟨["get"], hnames, .found v⟩

end Versions

end VersionCatalog
