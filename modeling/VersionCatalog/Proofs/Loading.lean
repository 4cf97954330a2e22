import VersionCatalog.Proofs.Parsing

/-!
# Stores that are loaded

A store that is loaded from a text is one that can be saved and loaded again, whoever wrote the text: its
values can be kept, and no value is too deep for the place where it stands. Each typed reader is shown to
yield parts of that kind from documents of a depth (`Yields`); a reader of a record, a list or a table goes
one level down.

## Main results

* `Json.yields_value`: a value of a property that is read is one that a document can keep.
* `Store.fits_and_shallow_of_parse?`: a store that is loaded can be saved and loaded again.
-/

namespace VersionCatalog

open Json (maxDepth)

/-- What is read from documents that are at most `n` deep has a property. -/
def Yields {α : Type} (read : Json → Option α) (n : Nat) (P : α → Prop) : Prop :=
  ∀ j x, j.Bounded n → read j = some x → P x

/-! ### Lists, tables and records -/

section

variable {α : Type} {read : Json → Option α} {n : Nat} {P : α → Prop}

theorem Yields.list (h : Yields read n P) : Yields (Json.list? read) (n + 1) (∀ x ∈ ·, P x) := by
  intro j xs hj hxs x hx
  cases j with
  | list items =>
      obtain ⟨item, hitem, hread⟩ := mem_of_mapM hxs hx
      exact h item x (Json.bounded_list_iff.1 hj item hitem) hread
  | _ => cases hxs

theorem Yields.keyed (h : Yields read n P) : Yields (Json.keyed? read) (n + 1) (Keyed.All P) := by
  intro j t hj ht k x hx
  cases j with
  | record fields =>
      obtain ⟨entries, hentries, ht⟩ := Option.bind_eq_some_iff.1 ht
      cases ht
      have hmem := Keyed.mem_of_mem_ofList (Keyed.get?_eq_some_iff.1 hx)
      obtain ⟨⟨name, item⟩, hitem, hread⟩ := mem_of_mapM hentries hmem
      obtain ⟨y, hread, heq⟩ := Option.map_eq_some_iff.1 hread
      cases heq
      exact h item x (Json.bounded_record_iff.1 hj _ hitem) hread
  | _ => cases ht

/-- The fields of a record that is being read are at most `n` deep. -/
def Json.Fields.Bounded (n : Nat) (fs : Json.Fields) : Prop :=
  ∀ name j, fs.found.lookup name = some j → j.Bounded n

/-- What a list of pairs has under a name is in the list. -/
theorem mem_of_lookup {l : List (String × α)} {name : String} {x : α}
    (h : l.lookup name = some x) : (name, x) ∈ l := by
  induction l with
  | nil => cases h
  | cons e l ih =>
      obtain ⟨k, y⟩ := e
      rw [List.lookup_cons] at h
      split at h
      · rename_i heq
        cases h
        rw [eq_of_beq heq]
        exact List.mem_cons_self
      · exact List.mem_cons_of_mem _ (ih h)

/-- The fields of a record are one level down. -/
theorem Json.bounded_fields? {names : List String} {j : Json} {fs : Json.Fields}
    (hj : j.Bounded (n + 1)) (h : j.fields? names = some fs) : fs.Bounded n := by
  intro name x hx
  have hmem := mem_of_lookup hx
  cases j with
  | record fields =>
      unfold fields? at h
      dsimp only at h
      split at h
      · cases h
        exact Json.bounded_record_iff.1 hj _ (List.mem_filter.1 hmem).1
      · cases h
  | list items =>
      unfold fields? at h
      dsimp only at h
      split at h
      · cases h
        exact Json.bounded_list_iff.1 hj x (List.of_mem_zip hmem).2
      · cases h
  | _ => cases h

variable {fs : Json.Fields} {name : String} {x default : α}

theorem Yields.required (h : Yields read n P) (hfs : fs.Bounded n)
    (hx : fs.required name read = some x) : P x := by
  obtain ⟨j, hj, hread⟩ := Option.bind_eq_some_iff.1 hx
  exact h j x (hfs name j hj) hread

theorem Yields.withDefault (h : Yields read n P) (hfs : fs.Bounded n) (hdefault : P default)
    (hx : fs.withDefault name read default = some x) : P x := by
  unfold Json.Fields.withDefault at hx
  split at hx
  · cases hx
    exact hdefault
  · rename_i j hj
    exact h j x (hfs name j hj) hx

end

/-! ### The parts of a store -/

section

variable {n : Nat}

/-- A value that a document can keep, at most `n` deep. -/
def Json.IsValueTo (n : Nat) (v : Json) : Prop :=
  v.IsValue ∧ v.depth ≤ n

/-- What is read as the value of a property is one that a document can keep. -/
theorem Json.yields_value : Yields Json.value? n (Json.IsValueTo n) := by
  intro j v hj hv
  unfold value? at hv
  split at hv
  · rename_i hread
    cases hv
    exact isValue_canonical j hread hj
  · cases hv

theorem Content.yields_ofJson :
    Yields ofJson? (n + 2) fun c => c.properties.All (Json.IsValueTo n) := by
  intro j c hj hc
  simp only [ofJson?, Option.bind_eq_bind, Option.pure_def, Option.bind_eq_some_iff] at hc
  obtain ⟨fs, hfs, id, -, base, -, name, -, status, -, description, -, created, -, modified, -,
    properties, hproperties, heq⟩ := hc
  cases heq
  exact Json.yields_value.keyed.required (Json.bounded_fields? hj hfs) hproperties

theorem Entry.yields_ofJson :
    Yields ofJson? (n + 3) fun e => e.content.properties.All (Json.IsValueTo n) := by
  intro j e hj he
  simp only [ofJson?, Option.bind_eq_bind, Option.pure_def, Option.bind_eq_some_iff] at he
  obtain ⟨fs, hfs, revision, -, content, hcontent, heq⟩ := he
  cases heq
  exact Content.yields_ofJson.required (Json.bounded_fields? hj hfs) hcontent

theorem SharedCopy.yields_ofJson :
    Yields ofJson? (n + 5) fun s =>
      ∀ e ∈ s.entries, e.content.properties.All (Json.IsValueTo n) := by
  intro j s hj hs
  simp only [ofJson?, Option.bind_eq_bind, Option.pure_def, Option.bind_eq_some_iff] at hs
  obtain ⟨fs, hfs, entries, hentries, heq⟩ := hs
  cases heq
  exact Entry.yields_ofJson.list.required (Json.bounded_fields? hj hfs) hentries

theorem WorkingCopy.yields_ofJson :
    Yields ofJson? (n + 3) fun c => c.content.properties.All (Json.IsValueTo n) := by
  intro j c hj hc
  simp only [ofJson?, Option.bind_eq_bind, Option.pure_def, Option.bind_eq_some_iff] at hc
  obtain ⟨fs, hfs, content, hcontent, synced, -, dirty, -, merging, -, heq⟩ := hc
  cases heq
  exact Content.yields_ofJson.required (Json.bounded_fields? hj hfs) hcontent

/-- The versions of an item have values that a document can keep, those that were published at most `n` deep
and those of users' copies at most one level more. -/
structure Shelf.WithinTo (n : Nat) (s : Shelf) : Prop where
  entries : ∀ version, ∀ e ∈ s.entries version, e.content.properties.All (Json.IsValueTo n)
  copies : ∀ user version c, s.copy? user version = some c →
    c.content.properties.All (Json.IsValueTo (n + 1))

theorem Shelf.withinTo_empty : empty.WithinTo n where
  entries _ _ he := by simp at he
  copies _ _ _ hc := by simp at hc

/-- Published values stand one level deeper than those of users' copies. -/
theorem Shelf.yields_ofJson : Yields ofJson? (n + 7) (WithinTo n) := by
  intro j s hj hs
  simp only [ofJson?, Option.bind_eq_bind, Option.pure_def, Option.bind_eq_some_iff] at hs
  obtain ⟨fs, hfs, shared, hshared, copies, hcopies, heq⟩ := hs
  cases heq
  have hfs := Json.bounded_fields? hj hfs
  exact ⟨forall_entries_iff.2 (SharedCopy.yields_ofJson.keyed.withDefault hfs .empty hshared),
    forall_copies_iff.2 (WorkingCopy.yields_ofJson.keyed.keyed.withDefault hfs .empty hcopies)⟩

theorem Item.yields_ofJson :
    Yields ofJson? (n + 2) fun i => i.properties.All (Json.IsValueTo n) := by
  intro j i hj hi
  simp only [ofJson?, Option.bind_eq_bind, Option.pure_def, Option.bind_eq_some_iff] at hi
  obtain ⟨fs, hfs, id, -, type, -, name, -, owner, -, description, -, status, -, created, -,
    modified, -, properties, hproperties, tally, -, heq⟩ := hi
  cases heq
  exact Json.yields_value.keyed.withDefault (Json.bounded_fields? hj hfs) .empty hproperties

theorem Tenant.yields_ofJson :
    Yields ofJson? (n + 9) fun t =>
      (t.items.All fun i => i.properties.All (Json.IsValueTo (n + 5))) ∧
        t.shelves.All (Shelf.WithinTo n) := by
  intro j t hj ht
  simp only [ofJson?, Option.bind_eq_bind, Option.pure_def, Option.bind_eq_some_iff] at ht
  obtain ⟨fs, hfs, items, hitems, shelves, hshelves, heq⟩ := ht
  cases heq
  have hfs := Json.bounded_fields? hj hfs
  exact ⟨Item.yields_ofJson.keyed.withDefault hfs .empty hitems,
    Shelf.yields_ofJson.keyed.withDefault hfs .empty hshelves⟩

end

/-! ### The store -/

namespace Store

/-- **A store that is loaded is one that can be saved and loaded again**: its values can be kept, and none
is too deep for its place. -/
theorem fits_and_shallow_of_parse? {text : String} {s : Store} (h : parse? text = some s) :
    s.Fits ∧ s.Shallow := by
  obtain ⟨j, hj, hs⟩ := Option.bind_eq_some_iff.1 h
  simp only [ofJson?, Option.bind_eq_bind, Option.pure_def, Option.bind_eq_some_iff] at hs
  obtain ⟨fs, hfs, tenants, htenants, heq⟩ := hs
  cases heq
  have hbounded : j.Bounded (116 + 9 + 1 + 1) := Json.bounded_of_parse? hj
  have htables := Tenant.yields_ofJson.keyed.withDefault (Json.bounded_fields? hbounded hfs) .empty
    htenants
  have hitems := forall_items_iff.2 fun name t ht => (htables name t ht).1
  have hshelves := (forall_shelves_iff Shelf.withinTo_empty).2 fun name t ht => (htables name t ht).2
  constructor
  · exact
      { items := fun t id i hi k v hv => (hitems t id i hi k v hv).1
        shelves := fun t i =>
          ⟨fun version e he k v hv => ((hshelves t i).entries version e he k v hv).1,
            fun user version c hc k v hv => ((hshelves t i).copies user version c hc k v hv).1⟩ }
  · exact
      { items := fun t id i hi k v hv => (hitems t id i hi k v hv).2
        entries := fun t i version e he k v hv =>
          ((hshelves t i).entries version e he k v hv).2
        copies := fun t i user version c hc k v hv =>
          ((hshelves t i).copies user version c hc k v hv).2 }

end Store

end VersionCatalog
