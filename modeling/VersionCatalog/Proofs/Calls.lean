import VersionCatalog.Manager.Request

/-!
# Calls

A call answers and leaves a state behind (`answerOf`, `stateOf`), whether it succeeds or fails. Here is what
this is for calls made one after the other, and for a store's call made by the engine. The engine's longer
calls are restated as such sequences, each of their checks deciding between an error and all that follows.
-/

namespace VersionCatalog

/-! ### What a call leaves behind -/

/-- The state that a call leaves behind, whether it succeeds or fails. -/
def stateOf {ε σ α : Type} : EStateM.Result ε σ α → σ
  | .ok _ s => s
  | .error _ s => s

/-- What a call answers. -/
def answerOf {ε σ α : Type} : EStateM.Result ε σ α → Except ε α
  | .ok a _ => .ok a
  | .error e _ => .error e

@[simp] theorem stateOf_ok {ε σ α : Type} (a : α) (s : σ) :
    stateOf (.ok a s : EStateM.Result ε σ α) = s := rfl

@[simp] theorem stateOf_error {ε σ α : Type} (e : ε) (s : σ) :
    stateOf (.error e s : EStateM.Result ε σ α) = s := rfl

@[simp] theorem answerOf_ok {ε σ α : Type} (a : α) (s : σ) :
    answerOf (.ok a s : EStateM.Result ε σ α) = .ok a := rfl

@[simp] theorem answerOf_error {ε σ α : Type} (e : ε) (s : σ) :
    answerOf (.error e s : EStateM.Result ε σ α) = .error e := rfl

/-- A call that answers has succeeded. -/
theorem eq_ok_of_answerOf {ε σ α : Type} {r : EStateM.Result ε σ α} {a : α}
    (h : answerOf r = .ok a) : r = .ok a (stateOf r) := by
  cases r with
  | ok b s =>
      cases h
      rfl
  | error e s => cases h

theorem eq_error_of_answerOf {ε σ α : Type} {r : EStateM.Result ε σ α} {e : ε}
    (h : answerOf r = .error e) : r = .error e (stateOf r) := by
  cases r with
  | ok a s => cases h
  | error d s =>
      cases h
      rfl

@[simp] theorem stateOf_map {ε σ α β : Type} (g : α → β) (x : EStateM ε σ α) (s : σ) :
    stateOf ((g <$> x) s) = stateOf (x s) := by
  change stateOf (EStateM.map g x s) = stateOf (x s)
  rw [EStateM.map]
  cases x s <;> rfl

@[simp] theorem answerOf_map {ε σ α β : Type} (g : α → β) (x : EStateM ε σ α) (s : σ) :
    answerOf ((g <$> x) s) = (answerOf (x s)).map g := by
  change answerOf (EStateM.map g x s) = (answerOf (x s)).map g
  rw [EStateM.map]
  cases x s <;> rfl

theorem bind_ok {ε σ α β : Type} {x : EStateM ε σ α} {f : α → EStateM ε σ β} {s s' : σ} {a : α}
    (h : x s = .ok a s') : (x >>= f) s = f a s' := by
  change EStateM.bind x f s = f a s'
  rw [EStateM.bind, h]

theorem bind_error {ε σ α β : Type} {x : EStateM ε σ α} {f : α → EStateM ε σ β} {s s' : σ} {e : ε}
    (h : x s = .error e s') : (x >>= f) s = .error e s' := by
  change EStateM.bind x f s = .error e s'
  rw [EStateM.bind, h]

/-- If each of two calls made one after the other leaves a state that is related to the one it finds, so do
both together. -/
theorem related_bind {ε σ α β : Type} {R : σ → σ → Prop} (htrans : ∀ {a b c}, R a b → R b c → R a c)
    {x : EStateM ε σ α} {f : α → EStateM ε σ β} {s : σ} (hx : R s (stateOf (x s)))
    (hf : ∀ a s', x s = .ok a s' → R s' (stateOf (f a s'))) : R s (stateOf ((x >>= f) s)) := by
  cases hres : x s with
  | ok a s' =>
      rw [hres] at hx
      rw [bind_ok hres]
      exact htrans hx (hf a s' hres)
  | error e s' =>
      rw [hres] at hx
      rw [bind_error hres]
      exact hx

/-- A call that only looks does not count. -/
theorem related_bind_read {ε σ α β : Type} {R : σ → σ → Prop} (hrefl : ∀ a, R a a)
    (htrans : ∀ {a b c}, R a b → R b c → R a c) {x : EStateM ε σ α} {f : α → EStateM ε σ β} {s : σ}
    (hx : stateOf (x s) = s) (hf : ∀ a, x s = .ok a s → R s (stateOf (f a s))) :
    R s (stateOf ((x >>= f) s)) := by
  have hstays : R s (stateOf (x s)) := by
    rw [hx]
    exact hrefl s
  refine related_bind (R := R) htrans hstays fun a s' hs' => ?_
  obtain rfl : s' = s := by
    rw [hs'] at hx
    exact hx
  exact hf a hs'

/-- A call with another answer is the call. -/
theorem map_eq_ok {ε σ α β : Type} {x : EStateM ε σ α} {g : α → β} {s s' : σ} {b : β} :
    (g <$> x) s = .ok b s' ↔ ∃ a, x s = .ok a s' ∧ g a = b := by
  change EStateM.map g x s = .ok b s' ↔ _
  rw [EStateM.map]
  cases x s with
  | ok a s₁ =>
      constructor
      · rintro ⟨⟩
        exact ⟨a, rfl, rfl⟩
      · rintro ⟨_, ⟨⟩, rfl⟩
        rfl
  | error e s₁ => simp

theorem map_error {ε σ α β : Type} {x : EStateM ε σ α} {g : α → β} {s s' : σ} {e : ε}
    (h : x s = .error e s') : (g <$> x) s = .error e s' := by
  change EStateM.map g x s = .error e s'
  rw [EStateM.map, h]

/-- A call that does nothing more when it is made again does so with another answer, too. -/
theorem map_again {ε σ α β : Type} {x : EStateM ε σ α} {g : α → β} {s : σ}
    (h : x (stateOf (x s)) = x s) : (g <$> x) (stateOf ((g <$> x) s)) = (g <$> x) s := by
  rw [stateOf_map]
  change EStateM.map g x (stateOf (x s)) = EStateM.map g x s
  rw [EStateM.map, EStateM.map, h]

namespace Call

variable {σ α : Type} {x : EStateM StoreError σ α} {s s' : σ}

theorem ofStore_ok {a : α} (h : x s = .ok a s') : ofStore x s = .ok a s' := by
  rw [ofStore, EStateM.adaptExcept, h]

theorem ofStore_error {e : StoreError} (h : x s = .error e s') :
    ofStore x s = .error (.ofStore e) s' := by
  rw [ofStore, EStateM.adaptExcept, h]

@[simp] theorem stateOf_ofStore (x : EStateM StoreError σ α) (s : σ) :
    stateOf (ofStore x s) = stateOf (x s) := by
  rw [ofStore, EStateM.adaptExcept]
  cases x s <;> rfl

@[simp] theorem answerOf_ofStore (x : EStateM StoreError σ α) (s : σ) :
    answerOf (ofStore x s) = (answerOf (x s)).mapError EngineError.ofStore := by
  rw [ofStore, EStateM.adaptExcept]
  cases x s <;> rfl

theorem ofExcept_ok {r : Except EngineError α} {a : α} (h : r = .ok a) (s : σ) :
    (ofExcept r : Call σ α) s = .ok a s := by
  rw [h]
  rfl

@[simp] theorem stateOf_ofExcept (x : Except EngineError α) (s : σ) :
    stateOf (ofExcept x s : EStateM.Result EngineError σ α) = s := by
  cases x <;> rfl

@[simp] theorem answerOf_ofExcept (x : Except EngineError α) (s : σ) :
    answerOf (ofExcept x s : EStateM.Result EngineError σ α) = x := by
  cases x <;> rfl

end Call

/-! ### Errors of the engine's own -/

/-- The engine passes a store's error on as it is, if at all. -/
theorem EngineError.eq_of_ofStore {e e' : StoreError} (h : ofStore e = .store e') : e' = e := by
  rw [ofStore] at h
  split at h
  · cases h
  · exact (EngineError.store.inj h).symm

/-- Of two computations one after the other the first or the second fails. -/
theorem bind_eq_error {ε α β : Type} {x : Except ε α} {f : α → Except ε β} {e : ε} :
    (x >>= f) = .error e ↔ x = .error e ∨ ∃ a, x = .ok a ∧ f a = .error e := by
  cases x <;> simp [bind, Except.bind]

namespace Calculator

variable {c : Calculator} {e : EngineError}

theorem next_eq_error {n : VersionName} {step : Step} (h : n.next step = .error e) :
    ∃ text, e = .validation text := by
  rw [VersionName.next] at h
  cases hn : n.next? step with
  | some m => simp [hn] at h
  | none =>
      rw [hn] at h
      cases h
      exact ⟨_, rfl⟩

theorem parse_eq_error {name : String} (h : VersionName.parse name = .error e) :
    ∃ text, e = .validation text := by
  rw [VersionName.parse] at h
  cases hname : VersionName.parse? name with
  | some n => simp [hname] at h
  | none =>
      rw [hname] at h
      cases h
      exact ⟨_, rfl⟩

/-- Naming is the engine's own business. -/
theorem calculate_eq_error {base : Option String} {step : Step}
    (h : c.calculate base step = .error e) : ∃ text, e = .validation text := by
  have hnext : ∀ {n : VersionName}, (n.next step >>= fun n => pure n.toText) = Except.error e →
      ∃ text, e = .validation text := by
    intro n h
    rcases bind_eq_error.1 h with h | ⟨_, -, h⟩
    · exact next_eq_error h
    · cases h
  cases base with
  | none => exact hnext (n := c.seed) h
  | some name =>
      rcases bind_eq_error.1 h with h | ⟨n, -, h⟩
      · exact parse_eq_error h
      · exact hnext h

theorem annotate_eq_error {names : List String} {v : Version} (h : c.annotate names v = .error e) :
    ∃ text, e = .validation text := by
  rw [annotate] at h
  cases hstatus : v.status with
  | draft =>
      simp only [hstatus] at h
      cases h
  | certified =>
      simp only [hstatus] at h
      rcases bind_eq_error.1 h with h | ⟨next, -, h⟩
      · exact calculate_eq_error h
      · cases h

theorem mapM_annotate_eq_error {names : List String} {vs : List Version}
    (h : vs.mapM (c.annotate names) = .error e) : ∃ text, e = .validation text := by
  induction vs with
  | nil => cases h
  | cons v vs ih =>
      rw [List.mapM_cons] at h
      rcases bind_eq_error.1 h with h | ⟨x, -, h⟩
      · exact annotate_eq_error h
      · rcases bind_eq_error.1 h with h | ⟨xs, -, h⟩
        · exact ih h
        · cases h

end Calculator

/-! ### The engine's calls as sequences -/

namespace Versions

variable {σ : Type} (b : Backend σ) (session : Session) (item version : String)

/-- Makes a version that has its name already, counts it and publishes it. -/
def createNamed (version : Version) : Call σ Version := do
  let created ← .ofStore (b.createVersion session item version)
  updateTally b session item (·.add .draft)
  .ofStore (b.publish session item created.id s!"Create version: {created.name}")
  refetch b session item created.id "create"

theorem create_eq (naming : Calculator) (base : Option String) (request : Version) (step : Step) :
    create b naming session item base request step =
      (base.elim (pure none) fun id => some <$> certifiedBase b session item id) >>= fun base =>
        .ofExcept (naming.calculate (base.map (·.name)) step) >>= fun name =>
          .ofStore (b.listVersions session item) >>= fun existing =>
            if existing.any (·.name == name) then
              throw (.validation s!"item {item} already has a version named {name}")
            else
              createNamed b session item { Version.blank.overlay request with
                base := base.map (·.id), name := name } := by
  cases base <;> rfl

theorem updateStatus_eq (status : VersionStatus) (message : String) :
    updateStatus b session item version status message =
      get b session item version >>= fun v =>
        if v.status = status then
          throw (.validation s!"version {v.name} is already in status {status.name}")
        else if v.status.canBecome status = false then
          throw (.validation
            s!"version {v.name} cannot move from {v.status.name} back to {status.name}")
        else
          .ofStore (b.updateVersion session item { v with status := status }) >>= fun _ =>
          .ofStore (b.publish session item version message) >>= fun _ =>
            updateTally b session item fun t => (t.add status).remove v.status := by
  rw [updateStatus]
  congr 1
  funext v
  by_cases hsame : v.status = status
  · simp only [hsame, if_true]
    rfl
  · simp only [hsame, if_false]
    cases v.status.canBecome status <;> rfl

end Versions

end VersionCatalog
