import VersionCatalog.Backend.Memory
import VersionCatalog.Proofs.Calls
import VersionCatalog.Proofs.Places

/-!
# Histories

A history is a list of events: each is a request, the session that makes it, and the ids and the clock
reading that it takes from outside. `Store.after` is the store of the memory backend after a history of
store calls, `Store.afterServing` the one after a history of the engine's calls; failing calls are part
of a history like all others.

Ids are never supplied twice (`FreshIds`): those of the first event are past for all others, and new to
each of them (`FreshIds.tail`).
-/

namespace VersionCatalog

/-! ### Events -/

/-- A request that is made: by whom, and with what from outside. -/
structure Event (ρ : Type) where
  fresh : Fresh
  session : Session
  request : ρ

/-- No id of the one is an id of the same kind of the other. -/
structure Fresh.Apart (f g : Fresh) : Prop where
  item : f.item ≠ g.item
  version : f.version ≠ g.version
  revision : f.revision ≠ g.revision

instance (f g : Fresh) : Decidable (f.Apart g) :=
  decidable_of_iff (f.item ≠ g.item ∧ f.version ≠ g.version ∧ f.revision ≠ g.revision)
    ⟨fun ⟨hi, hv, hr⟩ => ⟨hi, hv, hr⟩, fun h => ⟨h.item, h.version, h.revision⟩⟩

/-- When the first event is past, what it supplies stands to all that later ones supply as it should, if every
earlier one does to every later one. -/
theorem pairwise_tail {ρ : Type} {R : Fresh → Fresh → Prop} {e : Event ρ} {history : List (Event ρ)}
    {past : List Fresh} (h : (e :: history).Pairwise fun c d => R c.fresh d.fresh)
    (hpast : ∀ d ∈ e :: history, ∀ f ∈ past, R f d.fresh) :
    (history.Pairwise fun c d => R c.fresh d.fresh) ∧
      ∀ d ∈ history, ∀ f ∈ past ++ [e.fresh], R f d.fresh := by
  obtain ⟨hlater, htail⟩ := List.pairwise_cons.1 h
  refine ⟨htail, fun d hd f hf => ?_⟩
  rcases List.mem_append.1 hf with hf | hf
  · exact hpast d (List.mem_cons_of_mem _ hd) f hf
  · rw [List.mem_singleton.1 hf]
    exact hlater d hd

/-- No id is supplied twice. -/
def FreshIds {ρ : Type} (history : List (Event ρ)) : Prop :=
  history.Pairwise fun d e => d.fresh.Apart e.fresh

instance {ρ : Type} (history : List (Event ρ)) : Decidable (FreshIds history) :=
  inferInstanceAs (Decidable (history.Pairwise fun d e => d.fresh.Apart e.fresh))

namespace FreshIds

variable {ρ σ : Type} {history more : List (Event ρ)}

theorem left (h : FreshIds (history ++ more)) : FreshIds history :=
  (List.pairwise_append.1 h).1

theorem right (h : FreshIds (history ++ more)) : FreshIds more :=
  (List.pairwise_append.1 h).2.1

/-- The ids of an event are new to what happened before it. -/
theorem apart (h : FreshIds (history ++ more)) {e : Event ρ} (he : e ∈ more) {f : Fresh}
    (hf : f ∈ history.map (·.fresh)) : f.Apart e.fresh := by
  obtain ⟨d, hd, rfl⟩ := List.mem_map.1 hf
  exact (List.pairwise_append.1 h).2.2 d hd e he

/-- When the first event is past, the ids of the others are still fresh, and new to what is past. -/
theorem tail {e : Event ρ} {past : List Fresh} (h : FreshIds (e :: history))
    (hpast : ∀ d ∈ e :: history, ∀ f ∈ past, f.Apart d.fresh) :
    FreshIds history ∧ ∀ d ∈ history, ∀ f ∈ past ++ [e.fresh], f.Apart d.fresh :=
  pairwise_tail (R := Fresh.Apart) h hpast

end FreshIds

namespace Clock

/-- All that the clock shows in a step. -/
def readings (c : Clock) : List Instant :=
  [c.createItem, c.updateItem, c.createVersion, c.updateVersion, c.publish, c.revert]

/-- All readings of a step are before all those of another one. -/
def Before (c d : Clock) : Prop :=
  ∀ t ∈ c.readings, ∀ u ∈ d.readings, t < u

instance (c d : Clock) : Decidable (c.Before d) :=
  inferInstanceAs (Decidable (∀ t ∈ c.readings, ∀ u ∈ d.readings, t < u))

namespace Before

variable {c d : Clock}

theorem createItem (h : c.Before d) : c.createItem < d.createItem :=
  h _ (by simp [readings]) _ (by simp [readings])

theorem createVersion (h : c.Before d) : c.createVersion < d.createVersion :=
  h _ (by simp [readings]) _ (by simp [readings])

theorem publish (h : c.Before d) : c.publish < d.publish :=
  h _ (by simp [readings]) _ (by simp [readings])

end Before

end Clock

/-- The clock is read later at each event. Within an event it may be read in any order. -/
def ClockGrows {ρ : Type} (history : List (Event ρ)) : Prop :=
  history.Pairwise fun d e => d.fresh.clock.Before e.fresh.clock

instance {ρ : Type} (history : List (Event ρ)) : Decidable (ClockGrows history) :=
  inferInstanceAs (Decidable (history.Pairwise fun d e => d.fresh.clock.Before e.fresh.clock))

/-! ### Histories of store calls -/

namespace Store

/-- What the memory backend does for a store call. -/
def result (s : Store) (e : Event StoreRequest) : EStateM.Result StoreError Store Answer :=
  e.request.run (Memory.backend e.fresh) e.session s

/-- The store after a store call. -/
def next (s : Store) (e : Event StoreRequest) : Store :=
  stateOf (s.result e)

/-- The store after a history of store calls. -/
def after (s : Store) (history : List (Event StoreRequest)) : Store :=
  history.foldl next s

@[simp] theorem after_nil (s : Store) : s.after [] = s := rfl

@[simp] theorem after_cons (s : Store) (e : Event StoreRequest) (history) :
    s.after (e :: history) = (s.next e).after history := rfl

/-! ### Histories of the engine's calls -/

/-- What the engine does over the memory backend for a request. -/
def served (naming : Calculator) (s : Store) (e : Event Request) :
    EStateM.Result EngineError Store Answer :=
  e.request.run (Memory.backend e.fresh) naming e.session s

/-- The store after a request to the engine. -/
def serve (naming : Calculator) (s : Store) (e : Event Request) : Store :=
  stateOf (served naming s e)

/-- What the engine answers to a request. -/
def reply (naming : Calculator) (s : Store) (e : Event Request) : Except EngineError Answer :=
  answerOf (served naming s e)

/-- The store after a history of requests to the engine. -/
def afterServing (naming : Calculator) (s : Store) (history : List (Event Request)) : Store :=
  history.foldl (serve naming) s

@[simp] theorem afterServing_nil (naming : Calculator) (s : Store) :
    s.afterServing naming [] = s := rfl

@[simp] theorem afterServing_cons (naming : Calculator) (s : Store) (e : Event Request) (history) :
    s.afterServing naming (e :: history) = (s.serve naming e).afterServing naming history := rfl

/-- Every request of a history has a property in the store that it finds. -/
def Throughout (naming : Calculator) (p : Store → Event Request → Prop) :
    Store → List (Event Request) → Prop
  | _, [] => True
  | s, e :: history => p s e ∧ Throughout naming p (s.serve naming e) history

theorem afterServing_append (naming : Calculator) (s : Store) (history more : List (Event Request)) :
    s.afterServing naming (history ++ more)
      = (s.afterServing naming history).afterServing naming more :=
  List.foldl_append

theorem throughout_append {naming : Calculator} {p : Store → Event Request → Prop} {s : Store}
    {history more : List (Event Request)} : s.Throughout naming p (history ++ more) ↔
      s.Throughout naming p history ∧ (s.afterServing naming history).Throughout naming p more := by
  induction history generalizing s with
  | nil => exact ⟨fun h => ⟨trivial, h⟩, fun h => h.2⟩
  | cons e history ih =>
      change _ ∧ Throughout naming p _ (history ++ more) ↔ _
      rw [ih, ← and_assoc]
      rfl

/-- What every request has in every store. -/
theorem throughout_of_forall {naming : Calculator} {p : Store → Event Request → Prop}
    (h : ∀ s e, p s e) (s : Store) (history : List (Event Request)) :
    s.Throughout naming p history := by
  induction history generalizing s with
  | nil => trivial
  | cons e history ih => exact ⟨h s e, ih _⟩

theorem Throughout.mono {naming : Calculator} {p q : Store → Event Request → Prop} {s : Store}
    {history : List (Event Request)} (h : s.Throughout naming p history)
    (hpq : ∀ {s : Store} {e : Event Request}, p s e → q s e) : s.Throughout naming q history := by
  induction history generalizing s with
  | nil => trivial
  | cons e history ih => exact ⟨hpq h.1, ih h.2⟩

/-- Noon of a day. -/
def noon : Instant :=
  ⟨⟨2024, 5, 17, by omega, by omega, by decide⟩, 43200, 0, by omega, by omega, by omega⟩

end Store

end VersionCatalog
