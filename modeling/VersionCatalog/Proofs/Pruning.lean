import VersionCatalog.Proofs.Places

/-!
# Stores without empty tables

A store may hold tables with nothing in them: a tenant without items, an item without versions, a user
without copies. Here they are taken out (`Store.pruned`). Stores are alike if they are equal then.

## Main results

* `Keyed.pruned_eq_pruned_iff`: tables without their empty values are equal if all look-ups are.
* `Store.alike_iff_pruned_eq`: alike stores are those that are equal without empty tables.
-/

namespace VersionCatalog

/-! ### Tables -/

namespace Keyed

variable {α : Type}

/-- The table of what `f` makes of the values, without those that it makes nothing of. -/
def filterMap (f : α → Option α) (t : Keyed α) : Keyed α where
  entries := t.entries.filterMap fun e => (f e.2).map fun x => (e.1, x)
  increasing := by
    refine t.increasing.filterMap _ fun a b hab c hc d hd => ?_
    obtain ⟨x, -, rfl⟩ := Option.map_eq_some_iff.1 hc
    obtain ⟨y, -, rfl⟩ := Option.map_eq_some_iff.1 hd
    exact hab

theorem get?_filterMap (f : α → Option α) (t : Keyed α) (k : String) :
    (t.filterMap f).get? k = (t.get? k).bind f := by
  apply Option.ext
  intro y
  rw [get?_eq_some_iff, Option.bind_eq_some_iff, filterMap, List.mem_filterMap]
  constructor
  · rintro ⟨⟨k', x⟩, hmem, he⟩
    obtain ⟨y', hy, he⟩ := Option.map_eq_some_iff.1 he
    obtain ⟨rfl, rfl⟩ := Prod.mk.inj he
    exact ⟨x, get?_eq_some_iff.2 hmem, hy⟩
  · rintro ⟨x, hx, hy⟩
    exact ⟨(k, x), get?_eq_some_iff.1 hx, by rw [hy]; rfl⟩

variable [DecidableEq α]

/-- The table with its values pruned by `f`, without those that are empty then. -/
def pruned (f : α → α) (nothing : α) (t : Keyed α) : Keyed α :=
  t.filterMap fun x => if f x = nothing then none else some (f x)

/-- **Tables without their empty values are equal if all look-ups are.** -/
theorem pruned_eq_pruned_iff {f : α → α} {nothing : α} (hf : f nothing = nothing) {t u : Keyed α} :
    t.pruned f nothing = u.pruned f nothing ↔
      ∀ k, f (t.getD k nothing) = f (u.getD k nothing) := by
  have hget : ∀ (t : Keyed α) (k : String), (t.pruned f nothing).get? k
      = if f (t.getD k nothing) = nothing then none else some (f (t.getD k nothing)) := by
    intro t k
    rw [pruned, get?_filterMap, getD_eq]
    cases t.get? k with
    | none => simp [hf]
    | some x => rfl
  constructor
  · intro h k
    have hk : (t.pruned f nothing).get? k = (u.pruned f nothing).get? k := by rw [h]
    rw [hget, hget] at hk
    by_cases ht : f (t.getD k nothing) = nothing <;> by_cases hu : f (u.getD k nothing) = nothing
    · rw [ht, hu]
    · simp [ht, hu] at hk
    · simp [ht, hu] at hk
    · simpa [ht, hu] using hk
  · intro h
    apply ext_get?
    intro k
    rw [hget, hget, h k]

end Keyed

/-! ### Stores -/

/-- The versions of an item without users that have no copies. -/
def Shelf.pruned (s : Shelf) : Shelf :=
  { s with copies := s.copies.pruned id ∅ }

/-- What is stored for a tenant, without items that have no versions. -/
def Tenant.pruned (t : Tenant) : Tenant :=
  { t with shelves := t.shelves.pruned Shelf.pruned Shelf.empty }

/-- The store without empty tables. -/
def Store.pruned (s : Store) : Store :=
  ⟨s.tenants.pruned Tenant.pruned Tenant.empty⟩

theorem Shelf.alike_iff_pruned_eq {a b : Shelf} : a.Alike b ↔ a.pruned = b.pruned := by
  rw [Shelf.pruned, Shelf.pruned, Shelf.mk.injEq, Keyed.pruned_eq_pruned_iff rfl]
  exact ⟨fun h => ⟨h.shared, h.copies⟩, fun h => ⟨h.1, h.2⟩⟩

/-- **Alike stores are those that are equal without empty tables.** -/
theorem Store.alike_iff_pruned_eq {s t : Store} : s.Alike t ↔ s.pruned = t.pruned := by
  have htenant : ∀ a b : Tenant, a.pruned = b.pruned ↔ a.items = b.items ∧ ∀ item,
      (a.shelves.getD item Shelf.empty).Alike (b.shelves.getD item Shelf.empty) := by
    intro a b
    simp only [Tenant.pruned, Tenant.mk.injEq, Shelf.alike_iff_pruned_eq,
      Keyed.pruned_eq_pruned_iff (show Shelf.empty.pruned = Shelf.empty from rfl)]
  rw [Store.pruned, Store.pruned, Store.mk.injEq, Keyed.pruned_eq_pruned_iff rfl]
  simp only [htenant]
  exact ⟨fun h name => ⟨h.items name, h.shelves name⟩,
    fun h => ⟨fun name => (h name).1, fun name => (h name).2⟩⟩

end VersionCatalog
