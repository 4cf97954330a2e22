import VersionCatalog.Manager.Request
import VersionCatalog.Proofs.Likeness

/-!
# Agreement of backends

The engine is written over any backend, so two backends that agree on the calls of a store agree on all
of the engine. Agreement is meant for backends that keep the same content in different forms: a call from
corresponding states has to give the same answer and leave corresponding states (`Agree`).

Two things may end a comparison. The second backend may fail for a reason of its own, which is excused, or
it may be left in a state that is lost, from which nothing is compared any more. And values that are taken
in and given out may be asked to have a property, as not every backend can keep every value, and so may the
errors that are reported.

## Main results

* `Agree.bind`: agreement of calls made one after the other.
* `Request.run_agree`, `StoreRequest.run_agree`: backends that agree are alike to the engine, and in direct
  calls.
* `Keeper.agree`: backends that keep a store agree if they read it and change it alike.
* `Store.serve_keeps`, `Store.serve_keeps_values`: what every call of a store keeps, the engine keeps.
-/

namespace VersionCatalog

/-! ### Calls that agree -/

section Calls

variable {ε ε' σ τ α β : Type} {R : σ → τ → Prop} {lost : τ → Prop} {excused fair : ε → Prop}
  {good : α → Prop} {good' : β → Prop}

/-- The call `x` from a state does what `y` does from a corresponding one, unless `y` fails for an excused
reason or is lost; what `y` answers is good, and its errors are fair unless it is lost. -/
structure Agree (R : σ → τ → Prop) (lost : τ → Prop) (excused fair : ε → Prop) (good : α → Prop)
    (x : EStateM ε σ α) (y : EStateM ε τ α) : Prop where
  good_of_ok : ∀ {t t' : τ} {a : α}, (lost t ∨ ∃ s, R s t) → y t = .ok a t' → good a
  fair_of_error : ∀ {s : σ} {t t' : τ} {e : ε}, R s t → y t = .error e t' → lost t' ∨ fair e
  lost_of_lost : ∀ {t : τ}, lost t → lost (stateOf (y t))
  of_related : ∀ {s : σ} {t : τ}, R s t →
    lost (stateOf (y t)) ∨ (∃ e t', y t = .error e t' ∧ excused e) ∨
      answerOf (x s) = answerOf (y t) ∧ R (stateOf (x s)) (stateOf (y t))

namespace Agree

theorem pure {a : α} (h : good a) :
    Agree R lost excused fair good (Pure.pure a : EStateM ε σ α) (Pure.pure a : EStateM ε τ α) where
  good_of_ok := by
    rintro t t' b - hb
    cases hb
    exact h
  fair_of_error := by
    rintro s t t' e - he
    cases he
  lost_of_lost ht := ht
  of_related hr := .inr (.inr ⟨rfl, hr⟩)

theorem throw (e : ε) (h : fair e) :
    Agree R lost excused fair good (MonadExcept.throw e : EStateM ε σ α)
      (MonadExcept.throw e : EStateM ε τ α) where
  good_of_ok := by
    rintro t t' b - hb
    cases hb
  fair_of_error := by
    rintro s t t' e' - he
    cases he
    exact .inr h
  lost_of_lost ht := ht
  of_related hr := .inr (.inr ⟨rfl, hr⟩)

/-- The state that a successful call leaves is lost or corresponds to another one again. -/
theorem reached {x : EStateM ε σ α} {y : EStateM ε τ α} (h : Agree R lost excused fair good x y)
    {t t' : τ} {a : α} (ht : lost t ∨ ∃ s, R s t) (hy : y t = .ok a t') :
    lost t' ∨ ∃ s, R s t' := by
  rcases ht with ht | ⟨s, hr⟩
  · have hlost := h.lost_of_lost ht
    rw [hy] at hlost
    exact .inl hlost
  · rcases h.of_related hr with hlost | ⟨e, t'', herr, -⟩ | ⟨-, hr'⟩
    · rw [hy] at hlost
      exact .inl hlost
    · rw [hy] at herr
      cases herr
    · rw [hy] at hr'
      exact .inr ⟨_, hr'⟩

/-- A state that a call leaves lost stays so in what follows. -/
theorem lost_bind {y : EStateM ε τ α} {g : α → EStateM ε τ β} {t : τ} (hlost : lost (stateOf (y t)))
    (hg : ∀ a t', y t = .ok a t' → lost t' → lost (stateOf (g a t'))) :
    lost (stateOf ((y >>= g) t)) := by
  cases hy : y t with
  | ok a t' =>
      rw [hy] at hlost
      rw [bind_ok hy]
      exact hg a t' hy hlost
  | error e t' =>
      rw [hy] at hlost
      rw [bind_error hy]
      exact hlost

/-- **Calls that agree one after the other agree together.** -/
theorem bind {x : EStateM ε σ α} {y : EStateM ε τ α} {f : α → EStateM ε σ β}
    {g : α → EStateM ε τ β} (h : Agree R lost excused fair good x y)
    (hf : ∀ a, good a → Agree R lost excused fair good' (f a) (g a)) :
    Agree R lost excused fair good' (x >>= f) (y >>= g) where
  good_of_ok {t t' b} ht hb := by
    cases hy : y t with
    | ok a t₁ =>
        rw [bind_ok hy] at hb
        exact (hf a (h.good_of_ok ht hy)).good_of_ok (h.reached ht hy) hb
    | error e t₁ =>
        rw [bind_error hy] at hb
        cases hb
  fair_of_error {s t t' e} hr he := by
    cases hy : y t with
    | error e₁ t₁ =>
        rw [bind_error hy] at he
        cases he
        exact h.fair_of_error hr hy
    | ok a t₁ =>
        rw [bind_ok hy] at he
        have hagree := hf a (h.good_of_ok (.inr ⟨s, hr⟩) hy)
        rcases h.reached (.inr ⟨s, hr⟩) hy with hlost | ⟨s₁, hr₁⟩
        · have hlost := hagree.lost_of_lost hlost
          rw [he] at hlost
          exact .inl hlost
        · exact hagree.fair_of_error hr₁ he
  lost_of_lost {t} ht :=
    lost_bind (h.lost_of_lost ht) fun a _ hy => (hf a (h.good_of_ok (.inl ht) hy)).lost_of_lost
  of_related {s t} hr := by
    rcases h.of_related hr with hlost | ⟨e, t₁, hy, he⟩ | ⟨hanswer, hr'⟩
    · exact .inl (lost_bind hlost fun a _ hy =>
        (hf a (h.good_of_ok (.inr ⟨s, hr⟩) hy)).lost_of_lost)
    · exact .inr (.inl ⟨e, t₁, bind_error hy, he⟩)
    · -- the first call goes on exactly if the second one does
      cases hy : y t with
      | ok a t₁ =>
          rw [hy] at hanswer hr'
          have hx := eq_ok_of_answerOf hanswer
          rw [bind_ok hx, bind_ok hy]
          exact (hf a (h.good_of_ok (.inr ⟨s, hr⟩) hy)).of_related hr'
      | error e t₁ =>
          rw [hy] at hanswer hr'
          have hx := eq_error_of_answerOf hanswer
          rw [bind_error hx, bind_error hy]
          exact .inr (.inr ⟨rfl, hr'⟩)

theorem map {x : EStateM ε σ α} {y : EStateM ε τ α} (h : Agree R lost excused fair good x y)
    {g : α → β} (hg : ∀ a, good a → good' (g a)) :
    Agree R lost excused fair good' (g <$> x) (g <$> y) := by
  rw [map_eq_pure_bind, map_eq_pure_bind]
  exact h.bind fun a ha => .pure (hg a ha)

end Agree

end Calls

/-! ### Backends that agree -/

/-- How the states of two backends are compared, and which values they take in and give out. -/
structure Comparison (σ τ : Type) where
  /-- The states that correspond. -/
  related : σ → τ → Prop
  /-- The states of the second backend from which nothing is compared. -/
  lost : τ → Prop
  /-- The errors of the second backend that nothing is compared after. -/
  excused : StoreError → Prop
  /-- The errors that the second backend may report while nothing is lost. -/
  fair : StoreError → Prop
  /-- What may be the value of an item's property. -/
  itemValue : Json → Prop
  /-- What may be the value of a version's property. -/
  versionValue : Json → Prop

namespace Comparison

variable {σ τ α β : Type} (C : Comparison σ τ)

/-- Agreement of two calls of a store. -/
def Agrees (good : α → Prop) (x : EStateM StoreError σ α) (y : EStateM StoreError τ α) : Prop :=
  Agree C.related C.lost C.excused C.fair good x y

/-- Agreement of two calls of the engine, which passes excused errors on and makes up no errors of a
store. -/
def Concur (good : α → Prop) (x : Call σ α) (y : Call τ α) : Prop :=
  Agree C.related C.lost (fun e => ∃ e', C.excused e' ∧ e = .ofStore e')
    (fun e => ∀ e', e = .store e' → C.fair e') good x y

/-- All properties of an item may be taken in. -/
def item (i : Item) : Prop :=
  i.properties.All C.itemValue

/-- All properties of a version may be taken in. -/
def version (v : Version) : Prop :=
  v.properties.All C.versionValue

variable {C} {good : α → Prop} {good' : β → Prop}

theorem Concur.ofStore {x : EStateM StoreError σ α} {y : EStateM StoreError τ α}
    (h : C.Agrees good x y) : C.Concur good (.ofStore x) (.ofStore y) where
  good_of_ok {t t' a} ht ha := by
    cases hy : y t with
    | ok b t₁ =>
        rw [Call.ofStore_ok hy] at ha
        cases ha
        exact h.good_of_ok ht hy
    | error e t₁ =>
        rw [Call.ofStore_error hy] at ha
        cases ha
  fair_of_error {s t t' e} hr he := by
    cases hy : y t with
    | ok b t₁ =>
        rw [Call.ofStore_ok hy] at he
        cases he
    | error e₁ t₁ =>
        rw [Call.ofStore_error hy] at he
        cases he
        refine (h.fair_of_error hr hy).imp_right fun hfair e' he' => ?_
        rw [EngineError.eq_of_ofStore he']
        exact hfair
  lost_of_lost {t} ht := by
    rw [Call.stateOf_ofStore]
    exact h.lost_of_lost ht
  of_related {s t} hr := by
    rw [Call.stateOf_ofStore, Call.stateOf_ofStore]
    rcases h.of_related hr with hlost | ⟨e, t', hy, he⟩ | ⟨hanswer, hr'⟩
    · exact .inl hlost
    · exact .inr (.inl ⟨_, t', Call.ofStore_error hy, e, he, rfl⟩)
    · refine .inr (.inr ⟨?_, hr'⟩)
      rw [Call.answerOf_ofStore, Call.answerOf_ofStore, hanswer]

/-- What the engine computes itself, without errors of a store. -/
theorem Concur.ofExcept {x : Except EngineError α} (h : ∀ a, x = .ok a → good a)
    (herror : ∀ e, x = .error e → ∃ text, e = .validation text) :
    C.Concur good (.ofExcept x) (.ofExcept x) := by
  cases x with
  | ok a => exact Agree.pure (h a rfl)
  | error e =>
      obtain ⟨text, rfl⟩ := herror e rfl
      exact Agree.throw _ fun e' he' => by cases he'

/-- An error of the engine's own. -/
theorem Concur.throw {e : EngineError} (h : ∀ e', e ≠ .store e') :
    C.Concur good (MonadExcept.throw e) (MonadExcept.throw e) :=
  Agree.throw e fun e' he' => absurd he' (h e')

end Comparison

/-- Two backends agree on every call that the engine makes. -/
structure Backend.Agree {σ τ : Type} (C : Comparison σ τ) (a : Backend σ) (b : Backend τ) : Prop where
  listItems : ∀ session,
    C.Agrees (fun is => ∀ i ∈ is, C.item i) (a.listItems session) (b.listItems session)
  getItem : ∀ session item,
    C.Agrees (fun i => ∀ x, i = some x → C.item x) (a.getItem session item) (b.getItem session item)
  createItem : ∀ session i, C.item i →
    C.Agrees C.item (a.createItem session i) (b.createItem session i)
  updateItem : ∀ session i, C.item i →
    C.Agrees (fun _ => True) (a.updateItem session i) (b.updateItem session i)
  deleteItem : ∀ session item,
    C.Agrees (fun _ => True) (a.deleteItem session item) (b.deleteItem session item)
  listVersions : ∀ session item,
    C.Agrees (fun _ => True) (a.listVersions session item) (b.listVersions session item)
  createVersion : ∀ session item v, C.version v →
    C.Agrees (fun _ => True) (a.createVersion session item v) (b.createVersion session item v)
  updateVersion : ∀ session item v, C.version v →
    C.Agrees (fun _ => True) (a.updateVersion session item v) (b.updateVersion session item v)
  getVersion : ∀ session item version,
    C.Agrees (fun v => ∀ x, v = some x → C.version x) (a.getVersion session item version)
      (b.getVersion session item version)
  publish : ∀ session item version message,
    C.Agrees (fun _ => True) (a.publish session item version message)
      (b.publish session item version message)
  sync : ∀ session item version,
    C.Agrees (fun _ => True) (a.sync session item version) (b.sync session item version)
  forceSync : ∀ session item version,
    C.Agrees (fun _ => True) (a.forceSync session item version) (b.forceSync session item version)
  clean : ∀ session item version,
    C.Agrees (fun _ => True) (a.clean session item version) (b.clean session item version)
  revert : ∀ session item version revision,
    C.Agrees (fun _ => True) (a.revert session item version revision)
      (b.revert session item version revision)
  listRevisions : ∀ session item version,
    C.Agrees (fun _ => True) (a.listRevisions session item version)
      (b.listRevisions session item version)

/-! ### The engine over backends that agree -/

namespace Backend.Agree

variable {σ τ : Type} {C : Comparison σ τ} {a : Backend σ} {b : Backend τ} (h : a.Agree C b)
  (session : Session) (item version : String)

include h

theorem list_items (keep : Item → Bool) :
    C.Concur (fun _ => True) (Items.list a session keep) (Items.list b session keep) :=
  (Comparison.Concur.ofStore (h.listItems session)).bind fun _ _ => .pure trivial

theorem get_item : C.Concur C.item (Items.get a session item) (Items.get b session item) := by
  refine (Comparison.Concur.ofStore (h.getItem session item)).bind fun i hi => ?_
  cases i with
  | none => exact Comparison.Concur.throw (by simp)
  | some stored => exact .pure (hi stored rfl)

theorem update_item {request : Item} (hrequest : C.item request) :
    C.Concur C.item (Items.update a session item request) (Items.update b session item request) := by
  refine (h.get_item session item).bind fun stored hstored => ?_
  have hoverlay : C.item (stored.overlay request) := Keyed.All.overlay hstored hrequest
  exact (Comparison.Concur.ofStore (h.updateItem session _ hoverlay)).bind
    fun _ _ => h.get_item session item

theorem delete_item :
    C.Concur (fun _ => True) (Items.delete a session item) (Items.delete b session item) :=
  (h.get_item session item).bind fun _ _ => Comparison.Concur.ofStore (h.deleteItem session item)

theorem updateStatus_item (status : ItemStatus) :
    C.Concur C.item (Items.updateStatus a session item status)
      (Items.updateStatus b session item status) := by
  refine (h.get_item session item).bind fun stored hstored => ?_
  split
  · exact Comparison.Concur.throw (by simp)
  · exact (Comparison.Concur.ofStore (h.updateItem session { stored with status := status }
      hstored)).bind fun _ _ => .pure hstored

theorem list_versions (naming : Calculator) :
    C.Concur (fun _ => True) (Versions.list a naming session item)
      (Versions.list b naming session item) :=
  (Comparison.Concur.ofStore (h.listVersions session item)).bind fun _ _ =>
    Comparison.Concur.ofExcept (fun _ _ => trivial) fun _ => Calculator.mapM_annotate_eq_error

theorem list_revisions :
    C.Concur (fun _ => True) (Versions.listRevisions a session item version)
      (Versions.listRevisions b session item version) :=
  (Comparison.Concur.ofStore (h.listRevisions session item version)).bind fun _ _ =>
    .pure trivial

theorem refetch (after : String) :
    C.Concur C.version (Versions.refetch a session item version after)
      (Versions.refetch b session item version after) := by
  refine (Comparison.Concur.ofStore (h.getVersion session item version)).bind fun v hv => ?_
  cases v with
  | none => exact Comparison.Concur.throw (by simp)
  | some v => exact .pure (hv v rfl)

theorem get_version :
    C.Concur C.version (Versions.get a session item version)
      (Versions.get b session item version) := by
  refine (Comparison.Concur.ofStore (h.getVersion session item version)).bind fun v hv => ?_
  cases v with
  | none =>
      exact (Comparison.Concur.ofStore (h.sync session item version)).bind
        fun _ _ => h.refetch session item version _
  | some v =>
      dsimp only
      split
      · exact (Comparison.Concur.ofStore (h.forceSync session item version)).bind
          fun _ _ => h.refetch session item version _
      · exact .pure (hv v rfl)

theorem certifiedBase (base : String) :
    C.Concur C.version (Versions.certifiedBase a session item base)
      (Versions.certifiedBase b session item base) := by
  refine (h.get_version session item base).bind fun v hv => ?_
  split
  · exact .pure hv
  · exact Comparison.Concur.throw (by simp)

theorem updateTally (change : Tally → Tally) :
    C.Concur (fun _ => True) (Versions.updateTally a session item change)
      (Versions.updateTally b session item change) := by
  refine (Comparison.Concur.ofStore (h.getItem session item)).bind fun i hi => ?_
  cases i with
  | none => exact Comparison.Concur.throw (by simp)
  | some stored =>
      exact Comparison.Concur.ofStore
        (h.updateItem session { stored with tally := change stored.tally } (hi stored rfl))

theorem createNamed {v : Version} (hv : C.version v) :
    C.Concur C.version (Versions.createNamed a session item v)
      (Versions.createNamed b session item v) := by
  refine (Comparison.Concur.ofStore (h.createVersion session item v hv)).bind fun created _ => ?_
  refine (h.updateTally session item _).bind fun _ _ => ?_
  refine (Comparison.Concur.ofStore (h.publish session item _ _)).bind fun _ _ => ?_
  exact h.refetch session item _ _

theorem create_version (naming : Calculator) (base : Option String) {request : Version}
    (hrequest : C.version request) (step : Step) :
    C.Concur C.version (Versions.create a naming session item base request step)
      (Versions.create b naming session item base request step) := by
  rw [Versions.create_eq, Versions.create_eq]
  have hbase : C.Concur (fun _ => True)
      (base.elim (Pure.pure none) fun id => some <$> Versions.certifiedBase a session item id)
      (base.elim (Pure.pure none) fun id => some <$> Versions.certifiedBase b session item id) := by
    cases base with
    | none => exact Agree.pure trivial
    | some id => exact (h.certifiedBase session item id).map fun _ _ => trivial
  refine hbase.bind fun base _ => ?_
  refine (Comparison.Concur.ofExcept (fun _ _ => trivial) fun _ =>
    Calculator.calculate_eq_error).bind fun name _ => ?_
  refine (Comparison.Concur.ofStore (h.listVersions session item)).bind fun existing _ => ?_
  split
  · exact Comparison.Concur.throw (by simp)
  · have hnew : C.version { Version.blank.overlay request with
        base := base.map (·.id), name := name } :=
      Keyed.All.overlay .empty hrequest
    exact h.createNamed session item hnew

theorem update_version {request : Version} (hrequest : C.version request) :
    C.Concur C.version (Versions.update a session item version request)
      (Versions.update b session item version request) := by
  refine (h.get_version session item version).bind fun stored hstored => ?_
  have hoverlay : C.version (stored.overlay request) := Keyed.All.overlay hstored hrequest
  exact (Comparison.Concur.ofStore (h.updateVersion session item _ hoverlay)).bind
    fun _ _ => h.refetch session item version _

theorem updateStatus_version (status : VersionStatus) (message : String) :
    C.Concur (fun _ => True) (Versions.updateStatus a session item version status message)
      (Versions.updateStatus b session item version status message) := by
  rw [Versions.updateStatus_eq, Versions.updateStatus_eq]
  refine (h.get_version session item version).bind fun v hv => ?_
  split
  · exact Comparison.Concur.throw (by simp)
  · split
    · exact Comparison.Concur.throw (by simp)
    · refine (Comparison.Concur.ofStore (h.updateVersion session item { v with status := status }
        hv)).bind fun _ _ => ?_
      refine (Comparison.Concur.ofStore (h.publish session item version message)).bind
        fun _ _ => ?_
      exact h.updateTally session item _

end Backend.Agree

/-- The properties that a request brings along. -/
def Request.properties : Request → Keyed Json
  | .createItem i | .updateItem _ i => i.properties
  | .createVersion _ _ v _ | .updateVersion _ _ v => v.properties
  | _ => ∅

/-- The values that a request brings along are such as items or versions may have. -/
def Request.Brings (item version : Json → Prop) : Request → Prop
  | .createItem i | .updateItem _ i => i.properties.All item
  | .createVersion _ _ v _ | .updateVersion _ _ v => v.properties.All version
  | _ => True

theorem Request.brings_iff {value : Json → Prop} {r : Request} :
    r.Brings value value ↔ r.properties.All value := by
  cases r <;> first | exact Iff.rfl | exact iff_of_true trivial .empty

/-- **To the engine, backends that agree are alike.** -/
theorem Request.run_agree {σ τ : Type} {C : Comparison σ τ} {a : Backend σ} {b : Backend τ}
    (h : a.Agree C b) (naming : Calculator) (session : Session) {r : Request}
    (hr : r.Brings C.itemValue C.versionValue) :
    C.Concur (fun _ => True) (r.run a naming session) (r.run b naming session) := by
  cases r with
  | listItems keep =>
      exact (h.list_items session keep).map fun _ _ => trivial
  | getItem item => exact (h.get_item session item).map fun _ _ => trivial
  | createItem request =>
      have hnew : C.item (Item.blank.overlay request) := Keyed.All.overlay .empty hr
      exact (Comparison.Concur.ofStore (h.createItem session _ hnew)).map fun _ _ => trivial
  | updateItem item request => exact (h.update_item session item hr).map fun _ _ => trivial
  | deleteItem item => exact (h.delete_item session item).map fun _ _ => trivial
  | setItemStatus item status =>
      exact (h.updateStatus_item session item status).map fun _ _ => trivial
  | listVersions item =>
      exact (h.list_versions session item naming).map fun _ _ => trivial
  | getVersion item version => exact (h.get_version session item version).map fun _ _ => trivial
  | createVersion item base request step =>
      exact (h.create_version session item naming base hr step).map fun _ _ => trivial
  | updateVersion item version request =>
      exact (h.update_version session item version hr).map fun _ _ => trivial
  | setVersionStatus item version status message =>
      exact (h.updateStatus_version session item version status message).map fun _ _ => trivial
  | publish item version message =>
      exact (Comparison.Concur.ofStore (h.publish session item version message)).map
        fun _ _ => trivial
  | sync item version =>
      exact (Comparison.Concur.ofStore (h.sync session item version)).map fun _ _ => trivial
  | forceSync item version =>
      exact (Comparison.Concur.ofStore (h.forceSync session item version)).map fun _ _ => trivial
  | clean item version =>
      exact (Comparison.Concur.ofStore (h.clean session item version)).map fun _ _ => trivial
  | revert item version revision =>
      exact (Comparison.Concur.ofStore (h.revert session item version revision)).map
        fun _ _ => trivial
  | listRevisions item version =>
      exact (h.list_revisions session item version).map fun _ _ => trivial
  | deleteVersion item version =>
      have hdelete : C.Concur (fun _ => True) (Versions.delete item version)
          (Versions.delete item version) := Comparison.Concur.throw (by simp)
      exact hdelete.map fun _ _ => trivial

/-- The properties that a call of the store brings along. -/
def StoreRequest.properties : StoreRequest → Keyed Json
  | .createItem i | .updateItem i => i.properties
  | .createVersion _ v | .updateVersion _ v => v.properties
  | _ => ∅

/-- The values that a call of the store brings along are such as items or versions may have. -/
def StoreRequest.Brings (item version : Json → Prop) : StoreRequest → Prop
  | .createItem i | .updateItem i => i.properties.All item
  | .createVersion _ v | .updateVersion _ v => v.properties.All version
  | _ => True

theorem StoreRequest.brings_iff {value : Json → Prop} {r : StoreRequest} :
    r.Brings value value ↔ r.properties.All value := by
  cases r <;> first | exact Iff.rfl | exact iff_of_true trivial .empty

/-- Backends that agree are alike in every direct call, but for the deletion of a version: it fails with a
text that tells which backend it is. -/
theorem StoreRequest.run_agree {σ τ : Type} {C : Comparison σ τ} {a : Backend σ} {b : Backend τ}
    (h : a.Agree C b) (session : Session) {r : StoreRequest}
    (hr : r.Brings C.itemValue C.versionValue)
    (hdelete : ∀ item version, r ≠ .deleteVersion item version) :
    C.Agrees (fun _ => True) (r.run a session) (r.run b session) := by
  cases r with
  | listItems => exact Agree.map (h.listItems session) fun _ _ => trivial
  | getItem item => exact Agree.map (h.getItem session item) fun _ _ => trivial
  | createItem i => exact Agree.map (h.createItem session i hr) fun _ _ => trivial
  | updateItem i => exact Agree.map (h.updateItem session i hr) fun _ _ => trivial
  | deleteItem item => exact Agree.map (h.deleteItem session item) fun _ _ => trivial
  | listVersions item => exact Agree.map (h.listVersions session item) fun _ _ => trivial
  | getVersion item version =>
      exact Agree.map (h.getVersion session item version) fun _ _ => trivial
  | createVersion item v => exact Agree.map (h.createVersion session item v hr) fun _ _ => trivial
  | updateVersion item v => exact Agree.map (h.updateVersion session item v hr) fun _ _ => trivial
  | deleteVersion item version => exact absurd rfl (hdelete item version)
  | publish item version message =>
      exact Agree.map (h.publish session item version message) fun _ _ => trivial
  | sync item version => exact Agree.map (h.sync session item version) fun _ _ => trivial
  | forceSync item version => exact Agree.map (h.forceSync session item version) fun _ _ => trivial
  | clean item version => exact Agree.map (h.clean session item version) fun _ _ => trivial
  | revert item version revision =>
      exact Agree.map (h.revert session item version revision) fun _ _ => trivial
  | listRevisions item version =>
      exact Agree.map (h.listRevisions session item version) fun _ _ => trivial

/-! ### Backends that keep a store -/

namespace Store

/-- What a store shows to a user: the properties of items, and those of the user's copies of versions. -/
structure Shows (itemValue versionValue : Json → Prop) (s : Store) : Prop where
  items : ∀ {tenant id i}, s.item? tenant id = some i → i.properties.All itemValue
  copies : ∀ {tenant item user version c}, (s.shelf tenant item).copy? user version = some c →
    c.content.properties.All versionValue

/-- Listed items are items of the tenant. -/
theorem item?_of_mem_listItems {s : Store} {session : Session} {i : Item}
    (h : i ∈ s.listItems session) : ∃ id, s.item? session.tenant id = some i :=
  Keyed.mem_values.1 ((List.mergeSort_perm _ _).mem_iff.1 h)

/-- A version that is got has the properties of the user's copy. -/
theorem copy?_of_getVersion {s : Store} {session : Session} {item version : String} {v : Version}
    (h : s.getVersion session item version = some v) :
    ∃ c, (s.shelf session.tenant item).copy? session.user version = some c ∧
      v.properties = c.content.properties := by
  obtain ⟨c, hc, rfl⟩ := Option.map_eq_some_iff.1 h
  exact ⟨c, hc, rfl⟩

end Store

/-- A direct call reads the store or changes it, unless it is the deletion of a version. -/
theorem StoreRequest.reading_or_changing {σ : Type} (k : Keeper σ) (fresh : Fresh) (session : Session)
    {r : StoreRequest} (hdelete : ∀ item version, r ≠ .deleteVersion item version) :
    (∃ (α : Type) (g : Store → α) (answer : α → Answer),
      r.run (k.backend fresh) session = answer <$> k.reading g) ∨
    ∃ (α : Type) (change : Change α) (answer : α → Answer),
      r.run (k.backend fresh) session = answer <$> k.changing change := by
  cases r with
  | listItems | getItem item | listVersions item | getVersion item version
  | listRevisions item version => exact .inl ⟨_, _, _, rfl⟩
  | deleteVersion item version => exact absurd rfl (hdelete item version)
  | _ => exact .inr ⟨_, _, _, rfl⟩

/-- **Backends that keep a store agree** if they agree on the readings that cannot tell alike stores apart,
and on the changes that cannot, which are those that a call of the store makes. -/
theorem Keeper.agree {σ τ : Type} {C : Comparison σ τ} {k : Keeper σ} {l : Keeper τ} (fresh : Fresh)
    (hreading : ∀ {α : Type} {g : Store → α} {good : α → Prop},
      (∀ {m s : Store}, m.Alike s → g m = g s) →
      (∀ {s : Store}, s.Shows C.itemValue C.versionValue → good (g s)) →
        C.Agrees good (k.reading g) (l.reading g))
    (hchanging : ∀ {α : Type} {change : Change α} {good : α → Prop} (session : Session)
      (r : StoreRequest) (answer : α → Answer), r.Brings C.itemValue C.versionValue →
      r.run (Memory.backend fresh) session = answer <$> change → Discreet Store.Alike change →
      (∀ {s s' : Store} {a : α}, change s = .ok a s' → good a) →
        C.Agrees good (k.changing change) (l.changing change)) :
    (k.backend fresh).Agree C (l.backend fresh) where
  listItems session := by
    refine hreading (fun h => h.listItems session) fun hs i hi => ?_
    obtain ⟨id, hid⟩ := Store.item?_of_mem_listItems hi
    exact hs.items hid
  getItem session item := hreading (fun h => h.getItem session item) fun hs i hi => hs.items hi
  createItem session i hi := by
    refine hchanging session (.createItem i) .item hi rfl (Store.discreet_createItem _ _ _ _) ?_
    intro s s' created h
    rw [Store.createItem_eq] at h
    cases h
    exact hi
  updateItem session i hi :=
    hchanging session (.updateItem i) _ hi rfl (Store.discreet_updateItem _ _ _) fun _ => trivial
  deleteItem session item :=
    hchanging session (.deleteItem item) _ trivial rfl (Store.discreet_deleteItem _ _)
      fun _ => trivial
  listVersions session item := hreading (fun h => h.listVersions session item) fun _ => trivial
  createVersion session item v hv :=
    hchanging session (.createVersion item v) _ hv rfl
      (Store.discreet_onShelf (Shelf.discreet_create _ _ _ _ _) session item) fun _ => trivial
  updateVersion session item v hv :=
    hchanging session (.updateVersion item v) _ hv rfl
      (Store.discreet_onShelf (Shelf.discreet_update _ _ _ _) session item) fun _ => trivial
  getVersion session item version := by
    refine hreading (fun h => h.getVersion session item version) fun hs v hv => ?_
    obtain ⟨c, hc, hproperties⟩ := Store.copy?_of_getVersion hv
    rw [Comparison.version, hproperties]
    exact hs.copies hc
  publish session item version message :=
    hchanging session (.publish item version message) _ trivial rfl
      (Store.discreet_onShelf (Shelf.discreet_publish _ _ _ _ _ _) session item) fun _ => trivial
  sync session item version :=
    hchanging session (.sync item version) _ trivial rfl
      (Store.discreet_onShelf (Shelf.discreet_sync _ _ _) session item) fun _ => trivial
  forceSync session item version :=
    hchanging session (.forceSync item version) _ trivial rfl
      (Store.discreet_onShelf (Shelf.discreet_forceSync _ _ _) session item) fun _ => trivial
  clean session item version :=
    hchanging session (.clean item version) _ trivial rfl
      (Store.discreet_onShelf (Shelf.discreet_clean _ _) session item) fun _ => trivial
  revert session item version revision :=
    hchanging session (.revert item version revision) _ trivial rfl
      (Store.discreet_onShelf (Shelf.discreet_revert _ _ _ _ _) session item) fun _ => trivial
  listRevisions session item version :=
    hreading (fun h => h.listRevisions session item version) fun _ => trivial

/-! ### Invariants -/

/-- The comparison of a state with itself, as long as it has a property and is not lost. -/
def Comparison.keeping {τ : Type} (I lost : τ → Prop) (excused fair : StoreError → Prop)
    (itemValue versionValue : Json → Prop) : Comparison τ τ where
  related s t := s = t ∧ I t
  lost := lost
  excused := excused
  fair := fair
  itemValue := itemValue
  versionValue := versionValue

theorem Comparison.keeping_agrees {τ α : Type} {I lost : τ → Prop} {excused fair : StoreError → Prop}
    {itemValue versionValue : Json → Prop} {good : α → Prop} {x : EStateM StoreError τ α}
    (hkept : ∀ {t}, I t →
      lost (stateOf (x t)) ∨ (∃ e t', x t = .error e t' ∧ excused e) ∨ I (stateOf (x t)))
    (hlost : ∀ {t}, lost t → lost (stateOf (x t)))
    (hgood : ∀ {t t' a}, lost t ∨ I t → x t = .ok a t' → good a)
    (hfair : ∀ {t t' e}, I t → x t = .error e t' → lost t' ∨ fair e) :
    (Comparison.keeping I lost excused fair itemValue versionValue).Agrees good x x where
  good_of_ok {t t' a} ht h := by
    refine hgood (ht.imp_right ?_) h
    rintro ⟨s, -, hs⟩
    exact hs
  fair_of_error ht h := hfair ht.2 h
  lost_of_lost := hlost
  of_related := by
    rintro s t ⟨rfl, hs⟩
    exact (hkept hs).imp_right fun h => h.imp_right fun h => ⟨rfl, rfl, h⟩

namespace Store

/-- **What every call of the store keeps, the engine keeps**, where calls may rely on the values of the
properties that they bring along, as long as those in the store are of the same kind. -/
theorem serve_keeps_values {I : Store → Prop} {itemValue versionValue : Json → Prop} {f : Fresh}
    (hshows : ∀ {s}, I s → s.Shows itemValue versionValue)
    (h : ∀ s session r, r.Brings itemValue versionValue → I s → I (s.next ⟨f, session, r⟩))
    (naming : Calculator) (session : Session) {r : Request} (hr : r.Brings itemValue versionValue)
    {s : Store} (hs : I s) : I (s.serve naming ⟨f, session, r⟩) := by
  let C : Comparison Store Store :=
    .keeping I (fun _ => False) (fun _ => False) (fun _ => True) itemValue versionValue
  have hbackend : (Memory.backend f).Agree C (Memory.backend f) := by
    refine Keeper.agree f (fun {α g good} _ hgood => ?_) fun {α change good} session r answer hr hrun _ hgood => ?_
    · refine Comparison.keeping_agrees (fun {s} hs => .inr (.inr hs)) id ?_ fun _ _ => .inr trivial
      rintro s s' a (hlost | hs) hok
      · exact hlost.elim
      · cases hok
        exact hgood (hshows hs)
    · refine Comparison.keeping_agrees (fun {s} hs => .inr (.inr ?_)) False.elim
        (fun _ hok => hgood hok) fun _ _ => .inr trivial
      have hnext := h s session r hr hs
      rwa [Store.next, Store.result, hrun, stateOf_map] at hnext
  rcases (r.run_agree hbackend naming session hr).of_related ⟨rfl, hs⟩ with
    hlost | ⟨e, t', -, e', hexcused, -⟩ | ⟨-, -, hkept⟩
  · exact hlost.elim
  · exact hexcused.elim
  · exact hkept

/-- **What every call of the store keeps, the engine keeps.** -/
theorem serve_keeps {I : Store → Prop} {f : Fresh}
    (h : ∀ s session r, I s → I (Store.next s ⟨f, session, r⟩)) (naming : Calculator)
    (session : Session) (r : Request) {s : Store} (hs : I s) :
    I (s.serve naming ⟨f, session, r⟩) := by
  have hany : ∀ t : Keyed Json, t.All fun _ => True := fun _ _ _ _ => trivial
  exact serve_keeps_values (fun _ => ⟨fun _ => hany _, fun _ => hany _⟩)
    (fun s session r _ => h s session r) naming session (Request.brings_iff.2 (hany _)) hs

end Store

end VersionCatalog
