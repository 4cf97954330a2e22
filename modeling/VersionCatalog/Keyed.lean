/-!
# Keyed tables

A `Keyed α` holds at most one value per text key, in the order of the keys. The order is part of
the type, so two tables with the same look-ups are equal (`Keyed.ext_get?`): a table says nothing
about the history of its entries.
-/

namespace VersionCatalog

/-- A table from text keys to values, listed in strictly increasing order of the keys. -/
structure Keyed (α : Type) where
  /-- The keys with their values, in order. -/
  entries : List (String × α)
  /-- Every key is smaller than all keys after it. -/
  increasing : entries.Pairwise (fun a b => a.1 < b.1) := by simp
  deriving DecidableEq

namespace Keyed

variable {α β : Type}

/-! ### Entry lists -/

/-- Puts a value into an ordered list of entries, in place of the one that its key had. -/
def insertEntry (k : String) (x : α) : List (String × α) → List (String × α)
  | [] => [(k, x)]
  | (k', y) :: rest =>
    if k < k' then (k, x) :: (k', y) :: rest
    else if k = k' then (k, x) :: rest
    else (k', y) :: insertEntry k x rest

theorem mem_insertEntry {k : String} {x : α} {e : String × α} {l : List (String × α)}
    (h : e ∈ insertEntry k x l) : e = (k, x) ∨ e ∈ l := by
  induction l with
  | nil => simpa [insertEntry] using h
  | cons hd tl ih =>
    rw [insertEntry] at h
    split at h
    · simpa using h
    · split at h
      · rcases List.mem_cons.1 h with h | h
        · exact .inl h
        · exact .inr (List.mem_cons_of_mem _ h)
      · rcases List.mem_cons.1 h with h | h
        · exact .inr (h ▸ List.mem_cons_self)
        · exact (ih h).imp_right (List.mem_cons_of_mem _)

/-- Of two different keys one is smaller. -/
theorem lt_of_not_lt_of_ne {a b : String} (h : ¬ a < b) (hne : a ≠ b) : b < a := by
  rcases String.le_total a b with hab | hba
  · exact absurd (String.le_antisymm hab (String.not_lt.1 h)) hne
  · exact Decidable.byContradiction fun hn => hne (String.le_antisymm (String.not_lt.1 hn) hba)

theorem pairwise_insertEntry (k : String) (x : α) {l : List (String × α)}
    (h : l.Pairwise (fun a b => a.1 < b.1)) :
    (insertEntry k x l).Pairwise (fun a b => a.1 < b.1) := by
  induction l with
  | nil => simp [insertEntry]
  | cons hd tl ih =>
    obtain ⟨k', y⟩ := hd
    rw [List.pairwise_cons] at h
    rw [insertEntry]
    split
    · rename_i hlt
      refine List.pairwise_cons.2 ⟨fun e he => ?_, List.pairwise_cons.2 h⟩
      rcases List.mem_cons.1 he with rfl | he
      · exact hlt
      · exact String.lt_trans hlt (h.1 e he)
    · split
      · rename_i heq
        subst heq
        exact List.pairwise_cons.2 h
      · rename_i hlt hne
        refine List.pairwise_cons.2 ⟨fun e he => ?_, ih h.2⟩
        rcases mem_insertEntry he with rfl | he
        · exact lt_of_not_lt_of_ne hlt hne
        · exact h.1 e he

/-! ### Tables -/

/-- The table without entries. -/
def empty : Keyed α := ⟨[], .nil⟩

instance : EmptyCollection (Keyed α) := ⟨empty⟩

instance : Inhabited (Keyed α) := ⟨empty⟩

/-- The value that a key has, if any. -/
def get? (t : Keyed α) (k : String) : Option α :=
  t.entries.lookup k

/-- Whether a key has a value. -/
def contains (t : Keyed α) (k : String) : Bool :=
  (t.get? k).isSome

/-- The value that a key has, or the given one. -/
def getD (t : Keyed α) (k : String) (default : α) : α :=
  (t.get? k).getD default

/-- Gives a key a value, in place of the one it had. -/
def insert (t : Keyed α) (k : String) (x : α) : Keyed α :=
  ⟨insertEntry k x t.entries, pairwise_insertEntry k x t.increasing⟩

/-- Takes a key's value away. -/
def erase (t : Keyed α) (k : String) : Keyed α :=
  ⟨t.entries.filter (fun e => e.1 ≠ k), t.increasing.filter _⟩

/-- The values in the order of their keys. -/
def values (t : Keyed α) : List α :=
  t.entries.map (·.2)

/-- Whether there is no entry. -/
def isEmpty (t : Keyed α) : Bool :=
  t.entries.isEmpty

/-- The table of a list of entries; the last entry of a key counts. -/
def ofList (l : List (String × α)) : Keyed α :=
  l.foldl (fun t e => t.insert e.1 e.2) empty

/-- The entries of the second table laid over those of the first. -/
def overlay (t u : Keyed α) : Keyed α :=
  u.entries.foldl (fun t e => t.insert e.1 e.2) t

/-! ### Look-ups -/

@[simp] theorem get?_empty (k : String) : (empty : Keyed α).get? k = none := rfl

theorem lookup_insertEntry_self (k : String) (x : α) (l : List (String × α)) :
    (insertEntry k x l).lookup k = some x := by
  induction l with
  | nil => simp [insertEntry]
  | cons hd tl ih =>
    obtain ⟨k', y⟩ := hd
    rw [insertEntry]
    split
    · simp
    · split
      · simp
      · rename_i hne
        rw [List.lookup_cons, beq_eq_false_iff_ne.2 hne]
        exact ih

theorem lookup_insertEntry_of_ne {k k' : String} (h : k' ≠ k) (x : α) (l : List (String × α)) :
    (insertEntry k x l).lookup k' = l.lookup k' := by
  induction l with
  | nil => simp [insertEntry, List.lookup_cons, beq_eq_false_iff_ne.2 h]
  | cons hd tl ih =>
    obtain ⟨j, y⟩ := hd
    rw [insertEntry]
    split
    · rw [List.lookup_cons, beq_eq_false_iff_ne.2 h]
    · split
      · rename_i heq
        subst heq
        simp [List.lookup_cons, beq_eq_false_iff_ne.2 h]
      · rw [List.lookup_cons, List.lookup_cons, ih]

@[simp] theorem get?_insert_self (t : Keyed α) (k : String) (x : α) :
    (t.insert k x).get? k = some x :=
  lookup_insertEntry_self k x t.entries

theorem get?_insert_of_ne {k k' : String} (h : k' ≠ k) (t : Keyed α) (x : α) :
    (t.insert k x).get? k' = t.get? k' :=
  lookup_insertEntry_of_ne h x t.entries

theorem get?_insert (t : Keyed α) (k k' : String) (x : α) :
    (t.insert k x).get? k' = if k' = k then some x else t.get? k' := by
  split
  · rename_i h
    rw [h, get?_insert_self]
  · rename_i h
    exact get?_insert_of_ne h t x

theorem lookup_filter_ne {κ : Type} [BEq κ] [LawfulBEq κ] [DecidableEq κ] (k k' : κ)
    (l : List (κ × α)) :
    (l.filter (fun e => e.1 ≠ k)).lookup k' = if k' = k then none else l.lookup k' := by
  induction l with
  | nil => simp
  | cons hd tl ih =>
    obtain ⟨j, y⟩ := hd
    by_cases hj : j = k
    · subst hj
      rw [List.filter_cons_of_neg (by simp), ih, List.lookup_cons]
      by_cases hk : k' = j
      · simp [hk]
      · simp [hk, beq_eq_false_iff_ne.2 hk]
    · rw [List.filter_cons_of_pos (by simpa using hj), List.lookup_cons, List.lookup_cons, ih]
      by_cases hk : k' = j
      · subst hk
        simp [hj]
      · simp [beq_eq_false_iff_ne.2 hk]

theorem get?_erase (t : Keyed α) (k k' : String) :
    (t.erase k).get? k' = if k' = k then none else t.get? k' :=
  lookup_filter_ne k k' t.entries

@[simp] theorem get?_erase_self (t : Keyed α) (k : String) : (t.erase k).get? k = none := by
  simp [get?_erase]

/-- In a list in key order a key's value is the one it is listed with. -/
theorem lookup_eq_some_iff {l : List (String × α)} (h : l.Pairwise (fun a b => a.1 < b.1))
    {k : String} {x : α} : l.lookup k = some x ↔ (k, x) ∈ l := by
  induction l with
  | nil => simp
  | cons hd tl ih =>
    obtain ⟨j, y⟩ := hd
    rw [List.pairwise_cons] at h
    rw [List.lookup_cons]
    by_cases hk : k = j
    · subst hk
      have hnot : (k, x) ∉ tl := fun hm => String.lt_irrefl k (h.1 (k, x) hm)
      simp [hnot, eq_comm]
    · simp [beq_eq_false_iff_ne.2 hk, ih h.2, hk]

theorem get?_eq_some_iff {t : Keyed α} {k : String} {x : α} :
    t.get? k = some x ↔ (k, x) ∈ t.entries :=
  lookup_eq_some_iff t.increasing

/-- Two lists in key order with the same entries are the same list. -/
theorem eq_of_mem_iff {l m : List (String × α)} (hl : l.Pairwise (fun a b => a.1 < b.1))
    (hm : m.Pairwise (fun a b => a.1 < b.1)) (h : ∀ e, e ∈ l ↔ e ∈ m) : l = m := by
  induction l generalizing m with
  | nil =>
    cases m with
    | nil => rfl
    | cons e m => exact absurd ((h e).2 List.mem_cons_self) (by simp)
  | cons e l ih =>
    cases m with
    | nil => exact absurd ((h e).1 List.mem_cons_self) (by simp)
    | cons f m =>
      rw [List.pairwise_cons] at hl hm
      have hef : e = f := by
        rcases List.mem_cons.1 ((h e).1 List.mem_cons_self) with h1 | h1
        · exact h1
        · rcases List.mem_cons.1 ((h f).2 List.mem_cons_self) with h2 | h2
          · exact h2.symm
          · exact absurd (String.lt_trans (hl.1 f h2) (hm.1 e h1)) (String.lt_irrefl _)
      subst hef
      have htail : ∀ x, x ∈ l ↔ x ∈ m := by
        intro x
        have hx := h x
        simp only [List.mem_cons] at hx
        constructor
        · intro hxl
          rcases hx.1 (.inr hxl) with rfl | hxm
          · exact absurd (hl.1 x hxl) (String.lt_irrefl _)
          · exact hxm
        · intro hxm
          rcases hx.2 (.inr hxm) with rfl | hxl
          · exact absurd (hm.1 x hxm) (String.lt_irrefl _)
          · exact hxl
      rw [ih hl.2 hm.2 htail]

/-- Tables with the same look-ups are equal. -/
theorem ext_get? {t u : Keyed α} (h : ∀ k, t.get? k = u.get? k) : t = u := by
  have hmem : ∀ e, e ∈ t.entries ↔ e ∈ u.entries := by
    intro ⟨k, x⟩
    rw [← get?_eq_some_iff, ← get?_eq_some_iff, h k]
  have := eq_of_mem_iff t.increasing u.increasing hmem
  cases t
  cases u
  simpa using this

end Keyed

end VersionCatalog
