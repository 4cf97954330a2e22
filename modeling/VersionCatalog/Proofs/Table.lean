import VersionCatalog.Keyed

/-!
# Laws of keyed tables

What a table holds after an insertion or a removal, said by look-ups and by counts. Since a table is
determined by its look-ups (`Keyed.ext_get?`), most equations between tables are read off from
`Keyed.get?_insert` and `Keyed.get?_erase`.

## Main results

* `Keyed.mem_values`: the values are what the look-ups find.
* `Keyed.countP_values_insert`: an insertion exchanges at most one value for another.
* `Keyed.ofList_entries`: a table is rebuilt from its own entries.
* `Keyed.ofList_eq_of_perm`: a table is the same in whatever order its entries are put into it.
* `Keyed.get?_map`, `Keyed.map_ofList`: a function applied to each value.
-/

namespace VersionCatalog.Keyed

variable {α : Type}

/-! ### Look-ups -/

@[simp] theorem get?_emptyCollection (k : String) : (∅ : Keyed α).get? k = none := rfl

theorem getD_eq (t : Keyed α) (k : String) (d : α) : t.getD k d = (t.get? k).getD d := rfl

theorem getD_insert (t : Keyed α) (k k' : String) (x d : α) :
    (t.insert k x).getD k' d = if k' = k then x else t.getD k' d := by
  rw [getD_eq, get?_insert]
  split <;> rfl

theorem getD_erase (t : Keyed α) (k k' : String) (d : α) :
    (t.erase k).getD k' d = if k' = k then d else t.getD k' d := by
  rw [getD_eq, get?_erase]
  split <;> rfl

/-- Of two values inserted under one key the later one remains. -/
@[simp] theorem insert_insert (t : Keyed α) (k : String) (x y : α) :
    (t.insert k x).insert k y = t.insert k y := by
  apply ext_get?
  intro k'
  rw [get?_insert, get?_insert, get?_insert]
  split <;> rfl

/-- What is inserted under a key does not depend on what was there before. -/
@[simp] theorem insert_erase (t : Keyed α) (k : String) (x : α) :
    (t.erase k).insert k x = t.insert k x := by
  apply ext_get?
  intro k'
  rw [get?_insert, get?_insert, get?_erase]
  split <;> rfl

/-- Inserting what is there already changes nothing. -/
theorem insert_eq_self {t : Keyed α} {k : String} {x : α} (h : t.get? k = some x) :
    t.insert k x = t := by
  apply ext_get?
  intro k'
  rw [get?_insert]
  split
  · rename_i hk
    rw [hk, h]
  · rfl

/-! ### Values -/

/-- The values of a table are what its look-ups find. -/
theorem mem_values {t : Keyed α} {x : α} : x ∈ t.values ↔ ∃ k, t.get? k = some x := by
  simp only [values, List.mem_map, Prod.exists, get?_eq_some_iff]
  constructor
  · rintro ⟨k, y, hmem, rfl⟩
    exact ⟨k, hmem⟩
  · rintro ⟨k, hmem⟩
    exact ⟨k, x, hmem, rfl⟩

/-- A table without entries finds nothing, and only such a table. -/
theorem isEmpty_iff {t : Keyed α} : t.isEmpty = true ↔ ∀ k, t.get? k = none := by
  constructor
  · intro h k
    rw [get?, List.isEmpty_iff.1 h, List.lookup_nil]
  · intro h
    rw [isEmpty, List.isEmpty_iff]
    cases hl : t.entries with
    | nil => rfl
    | cons e l =>
      have hfound : t.get? e.1 = some e.2 := get?_eq_some_iff.2 (hl ▸ List.mem_cons_self)
      rw [h e.1] at hfound
      exact absurd hfound (by simp)

/-! ### Counts -/

/-- The entries of a list in key order that an insertion keeps, and the ones it exchanges. -/
theorem countP_insertEntry (p : α → Bool) (k : String) (x : α) {l : List (String × α)}
    (h : l.Pairwise (fun a b => a.1 < b.1)) :
    ((insertEntry k x l).map (·.2)).countP p + (l.lookup k).toList.countP p
      = (l.map (·.2)).countP p + [x].countP p := by
  induction l with
  | nil => simp [insertEntry]
  | cons hd tl ih =>
    obtain ⟨k', y⟩ := hd
    rw [List.pairwise_cons] at h
    rw [insertEntry]
    by_cases hlt : k < k'
    · -- the key stands before all others, so it was not there
      have hne : k ≠ k' := fun he => String.lt_irrefl k (he ▸ hlt)
      have habsent : tl.lookup k = none := by
        rw [Option.eq_none_iff_forall_ne_some]
        intro z hz
        have hmem := (lookup_eq_some_iff h.2).1 hz
        exact String.lt_irrefl k (String.lt_trans hlt (h.1 _ hmem))
      simp only [hlt, if_true, List.lookup_cons, beq_eq_false_iff_ne.2 hne, habsent,
        List.map_cons, List.countP_cons, Option.toList_none, List.countP_nil]
      omega
    · by_cases heq : k = k'
      · subst heq
        simp only [hlt, if_false, if_true, List.lookup_cons, beq_self_eq_true, List.map_cons,
          List.countP_cons, Option.toList_some, List.countP_nil]
        omega
      · have htail := ih h.2
        simp only [hlt, heq, if_false, List.lookup_cons, beq_eq_false_iff_ne.2 heq, List.map_cons,
          List.countP_cons] at htail ⊢
        omega

/-- An insertion exchanges the value that the key had, if it had one, for the new one. -/
theorem countP_values_insert (p : α → Bool) (t : Keyed α) (k : String) (x : α) :
    (t.insert k x).values.countP p + (t.get? k).toList.countP p
      = t.values.countP p + [x].countP p :=
  countP_insertEntry p k x t.increasing

/-! ### Rebuilding -/

theorem ext_entries {t u : Keyed α} (h : t.entries = u.entries) : t = u := by
  cases t
  cases u
  simpa using h

/-- An entry whose key is greater than all others is put at the end. -/
theorem insertEntry_of_lt {k : String} {x : α} {l : List (String × α)} (h : ∀ e ∈ l, e.1 < k) :
    insertEntry k x l = l ++ [(k, x)] := by
  induction l with
  | nil => rfl
  | cons e l ih =>
      obtain ⟨he, hl⟩ := List.forall_mem_cons.1 h
      have hnot : ¬ k < e.1 := fun hlt => String.lt_irrefl k (String.lt_trans hlt he)
      have hne : k ≠ e.1 := fun heq => String.lt_irrefl k (heq ▸ he)
      rw [insertEntry, if_neg hnot, if_neg hne, ih hl, List.cons_append]

/-- A table is rebuilt from its own entries. -/
theorem ofList_entries (t : Keyed α) : ofList t.entries = t := by
  have hfold : ∀ (l : List (String × α)) (u : Keyed α),
      (u.entries ++ l).Pairwise (fun a b => a.1 < b.1) →
        (l.foldl (fun t e => t.insert e.1 e.2) u).entries = u.entries ++ l := by
    intro l
    induction l with
    | nil =>
        intro u _
        simp
    | cons e l ih =>
        intro u h
        have hlast : ∀ d ∈ u.entries, d.1 < e.1 :=
          fun d hd => (List.pairwise_append.1 h).2.2 d hd e List.mem_cons_self
        have hinsert : (u.insert e.1 e.2).entries = u.entries ++ [e] := insertEntry_of_lt hlast
        rw [List.foldl_cons, ih _ (by rw [hinsert, List.append_assoc]; exact h), hinsert,
          List.append_assoc]
        rfl
  exact ext_entries (hfold t.entries empty t.increasing)

/-- What is laid over the empty table is all that there is. -/
@[simp] theorem empty_overlay (t : Keyed α) : (∅ : Keyed α).overlay t = t :=
  ofList_entries t

/-- Nothing is in a table but entries of the list that it is made of. -/
theorem mem_of_mem_ofList {l : List (String × α)} {e : String × α} (h : e ∈ (ofList l).entries) :
    e ∈ l := by
  have hfold : ∀ (l : List (String × α)) (u : Keyed α),
      e ∈ (l.foldl (fun t e => t.insert e.1 e.2) u).entries → e ∈ u.entries ∨ e ∈ l := by
    intro l
    induction l with
    | nil => exact fun u h => .inl h
    | cons d l ih =>
        intro u h
        rcases ih _ h with h | h
        · rcases mem_insertEntry h with rfl | h
          · exact .inr List.mem_cons_self
          · exact .inl h
        · exact .inr (List.mem_cons_of_mem d h)
  exact (hfold l empty h).resolve_left List.not_mem_nil

/-- No key is in a table twice. -/
theorem nodup_keys (t : Keyed α) : (t.entries.map (·.1)).Nodup :=
  List.pairwise_map.2 (t.increasing.imp fun {a b} hlt (heq : a.1 = b.1) =>
    String.lt_irrefl b.1 (heq ▸ hlt))

/-- Values that tell their keys are there once each. -/
theorem nodup_values {t : Keyed α} (h : ∀ {k l x}, t.get? k = some x → t.get? l = some x → k = l) :
    t.values.Nodup := by
  rw [List.Nodup, values, List.pairwise_map]
  refine t.increasing.imp_of_mem fun {a b} ha hb hlt hsame => String.ne_of_lt hlt ?_
  exact h (get?_eq_some_iff.2 ha) (hsame ▸ get?_eq_some_iff.2 hb)

/-- An entry with a new key is put beside the others. -/
theorem insertEntry_perm {k : String} {x : α} {l : List (String × α)} (h : k ∉ l.map (·.1)) :
    (insertEntry k x l).Perm ((k, x) :: l) := by
  induction l with
  | nil => exact .refl _
  | cons e l ih =>
      obtain ⟨he, hl⟩ := not_or.1 (mt List.mem_cons.2 h)
      rw [insertEntry, if_neg he]
      split
      · exact .refl _
      · exact ((ih hl).cons e).trans (.swap ..)

/-- A table has all entries of the list that it is made of, if no key is there twice. -/
theorem entries_ofList_perm {l : List (String × α)} (h : (l.map (·.1)).Nodup) :
    (ofList l).entries.Perm l := by
  have hfold : ∀ (l : List (String × α)) (u : Keyed α), ((u.entries ++ l).map (·.1)).Nodup →
      (l.foldl (fun t e => t.insert e.1 e.2) u).entries.Perm (u.entries ++ l) := by
    intro l
    induction l with
    | nil =>
        intro u _
        simp
    | cons e l ih =>
        intro u h
        have hmiddle : (u.entries ++ e :: l).Perm (e :: (u.entries ++ l)) := List.perm_middle
        have hcons := ((hmiddle.map (·.1)).nodup_iff).1 h
        have hnew : e.1 ∉ u.entries.map (·.1) := fun hmem =>
          (List.nodup_cons.1 hcons).1 (by
            rw [List.map_append]
            exact List.mem_append_left _ hmem)
        have hinsert : (u.insert e.1 e.2).entries.Perm (e :: u.entries) := insertEntry_perm hnew
        have hall : ((u.insert e.1 e.2).entries ++ l).Perm (u.entries ++ e :: l) :=
          (hinsert.append_right l).trans hmiddle.symm
        exact (ih _ (((hall.map (·.1)).nodup_iff).2 h)).trans hall
  exact hfold l empty h

/-- In which order entries of different keys are put into a table makes no difference. -/
theorem ofList_eq_of_perm {l m : List (String × α)} (hperm : l.Perm m) (h : (l.map (·.1)).Nodup) :
    ofList l = ofList m := by
  have hm : (m.map (·.1)).Nodup := ((hperm.map (·.1)).nodup_iff).1 h
  have hentries : (ofList l).entries.Perm (ofList m).entries :=
    (entries_ofList_perm h).trans (hperm.trans (entries_ofList_perm hm).symm)
  exact ext_entries (eq_of_mem_iff (ofList l).increasing (ofList m).increasing fun e => hentries.mem_iff)

/-! ### Properties of all values -/

/-- What a table holds has a property. -/
def All (p : α → Prop) (t : Keyed α) : Prop :=
  ∀ k x, t.get? k = some x → p x

namespace All

variable {p : α → Prop} {t u : Keyed α}

theorem empty : All p (∅ : Keyed α) := fun _ _ h => by simp at h

theorem insert (ht : t.All p) {k : String} {x : α} (hx : p x) : (t.insert k x).All p := by
  intro k' y hy
  rw [get?_insert] at hy
  split at hy
  · obtain rfl := Option.some.inj hy
    exact hx
  · exact ht k' y hy

theorem overlay (ht : t.All p) (hu : u.All p) : (t.overlay u).All p := by
  have hentries : ∀ e ∈ u.entries, p e.2 := fun e he => hu e.1 e.2 (get?_eq_some_iff.2 he)
  rw [Keyed.overlay]
  generalize u.entries = l at hentries
  induction l generalizing t with
  | nil => exact ht
  | cons e l ih =>
      obtain ⟨he, hl⟩ := List.forall_mem_cons.1 hentries
      exact ih (ht.insert he) hl

end All

/-! ### Maps -/

section

variable {β : Type} (f : α → β)

/-- The table with a function applied to each value. -/
def map (t : Keyed α) : Keyed β where
  entries := t.entries.map fun e => (e.1, f e.2)
  increasing := List.pairwise_map.2 t.increasing

theorem lookup_map (l : List (String × α)) (k : String) :
    (l.map fun e => (e.1, f e.2)).lookup k = (l.lookup k).map f := by
  induction l with
  | nil => rfl
  | cons e l ih =>
      rw [List.map_cons, List.lookup_cons, List.lookup_cons, ih]
      cases k == e.1 <;> rfl

@[simp] theorem get?_map (t : Keyed α) (k : String) : (t.map f).get? k = (t.get? k).map f :=
  lookup_map f t.entries k

theorem map_insert (t : Keyed α) (k : String) (x : α) :
    (t.insert k x).map f = (t.map f).insert k (f x) := by
  apply ext_get?
  intro k'
  rw [get?_map, get?_insert, get?_insert, get?_map]
  split <;> rfl

theorem map_ofList (l : List (String × α)) :
    (ofList l).map f = ofList (l.map fun e => (e.1, f e.2)) := by
  have hfold : ∀ (l : List (String × α)) (t : Keyed α),
      (l.foldl (fun t e => t.insert e.1 e.2) t).map f
        = (l.map fun e => (e.1, f e.2)).foldl (fun t e => t.insert e.1 e.2) (t.map f) := by
    intro l
    induction l with
    | nil => exact fun t => rfl
    | cons e l ih =>
        intro t
        rw [List.foldl_cons, List.map_cons, List.foldl_cons, ih, map_insert]
  exact hfold l empty

end

theorem All.map {β : Type} {f : α → β} {p : α → Prop} {q : β → Prop} {t : Keyed α} (h : t.All p)
    (hf : ∀ x, p x → q (f x)) : (t.map f).All q := by
  intro k y hy
  rw [get?_map] at hy
  obtain ⟨x, hx, rfl⟩ := Option.map_eq_some_iff.1 hy
  exact hf x (h k x hx)

/-- A table whose values a function leaves alone is left alone. -/
theorem map_eq_self {f : α → α} {t : Keyed α} (h : t.All fun x => f x = x) : t.map f = t := by
  apply ext_get?
  intro k
  rw [get?_map]
  cases hx : t.get? k with
  | none => rfl
  | some x => rw [Option.map_some, h k x hx]

end VersionCatalog.Keyed
