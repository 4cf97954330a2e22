import VersionCatalog.Proofs.Documents

/-!
# How deep a store's document is

The values of properties are all that can make a store's document deep. They stand at three depths in it:
inside six other records and lists if they belong to an item, inside ten if they belong to a user's copy,
and inside eleven if they were published. So a document is not too deep exactly if each value leaves that
much of the greatest depth (`Store.Shallow`).

## Main results

* `Store.depth_toJson_le_iff`: the document of a store is not too deep exactly if the store is shallow.
-/

namespace VersionCatalog

/-! ### Lists, records and tables -/

namespace Json

variable {n : Nat}

theorem depthItems_le_iff {xs : List Json} : depthItems xs ≤ n ↔ ∀ x ∈ xs, x.depth ≤ n := by
  induction xs with
  | nil => simp [depthItems]
  | cons x xs ih => rw [depthItems, Nat.max_le, ih, List.forall_mem_cons]

theorem depthFields_le_iff {fields : List (String × Json)} :
    depthFields fields ≤ n ↔ ∀ e ∈ fields, e.2.depth ≤ n := by
  induction fields with
  | nil => simp [depthFields]
  | cons e fields ih => rw [depthFields, Nat.max_le, ih, List.forall_mem_cons]

theorem depth_list_le_iff {xs : List Json} : (list xs).depth ≤ n + 1 ↔ ∀ x ∈ xs, x.depth ≤ n := by
  rw [depth, Nat.add_le_add_iff_right, depthItems_le_iff]

theorem depth_record_le_iff {fields : List (String × Json)} :
    (record fields).depth ≤ n + 1 ↔ ∀ e ∈ fields, e.2.depth ≤ n := by
  rw [depth, Nat.add_le_add_iff_right, depthFields_le_iff]

end Json

namespace Keyed

variable {n : Nat}

theorem depth_toJson_le_iff {α : Type} {write : α → Json} {t : Keyed α} :
    (t.toJson write).depth ≤ n + 1 ↔ t.All fun x => (write x).depth ≤ n := by
  rw [toJson, Json.depth_record_le_iff, List.forall_mem_map]
  exact ⟨fun h k x hx => h _ (get?_eq_some_iff.1 hx), fun h e he => h e.1 e.2 (get?_eq_some_iff.2 he)⟩

theorem depth_record_le_iff {t : Keyed Json} :
    (Json.record t.entries).depth ≤ n + 1 ↔ t.All fun v => v.depth ≤ n := by
  rw [Json.depth_record_le_iff]
  exact ⟨fun h k x hx => h _ (get?_eq_some_iff.1 hx), fun h e he => h e.1 e.2 (get?_eq_some_iff.2 he)⟩

end Keyed

/-! ### The parts of a store -/

section

variable {n : Nat}

theorem Content.depth_toJson_le_iff {c : Content} :
    c.toJson.depth ≤ n + 2 ↔ c.properties.All fun v => v.depth ≤ n := by
  rw [toJson, Json.depth_record_le_iff]
  simp [jsonFields, Json.depth, ← Keyed.depth_record_le_iff]

@[simp] theorem Revision.depth_toJson (r : Revision) : r.toJson.depth = 1 := by
  simp [toJson, Json.depth, Json.depthFields]

theorem Entry.depth_toJson_le_iff {e : Entry} :
    e.toJson.depth ≤ n + 3 ↔ e.content.properties.All fun v => v.depth ≤ n := by
  rw [toJson, Json.depth_record_le_iff]
  simp [Content.depth_toJson_le_iff]

theorem SharedCopy.depth_toJson_le_iff {s : SharedCopy} :
    s.toJson.depth ≤ n + 5 ↔
      ∀ e ∈ s.entries, e.content.properties.All fun v => v.depth ≤ n := by
  rw [toJson, Json.depth_record_le_iff, List.forall_mem_singleton, Json.depth_list_le_iff,
    List.forall_mem_map]
  simp only [Entry.depth_toJson_le_iff]

theorem WorkingCopy.depth_toJson_le_iff {c : WorkingCopy} :
    c.toJson.depth ≤ n + 3 ↔ c.content.properties.All fun v => v.depth ≤ n := by
  rw [toJson, Json.depth_record_le_iff]
  simp [Json.depth, Content.depth_toJson_le_iff]

/-- Published values stand one level deeper than those of users' copies. -/
theorem Shelf.depth_toJson_le_iff {s : Shelf} :
    s.toJson.depth ≤ n + 7 ↔
      (∀ version, ∀ e ∈ s.entries version, e.content.properties.All fun v => v.depth ≤ n) ∧
        ∀ user version c, s.copy? user version = some c →
          c.content.properties.All fun v => v.depth ≤ n + 1 := by
  rw [toJson, Json.depth_record_le_iff, List.forall_mem_cons, List.forall_mem_singleton,
    Keyed.depth_toJson_le_iff, Keyed.depth_toJson_le_iff, forall_entries_iff, forall_copies_iff]
  simp only [SharedCopy.depth_toJson_le_iff, Keyed.depth_toJson_le_iff,
    WorkingCopy.depth_toJson_le_iff]

theorem Tally.depth_toJson_le (t : Tally) : t.toJson.depth ≤ 1 := by
  obtain ⟨draft, certified⟩ := t
  cases draft <;> cases certified <;> simp [toJson, get?, Json.depth, Json.depthFields]

theorem Item.depth_toJson_le_iff {i : Item} :
    i.toJson.depth ≤ n + 2 ↔ i.properties.All fun v => v.depth ≤ n := by
  have htally : i.tally.toJson.depth ≤ n + 1 :=
    Nat.le_trans i.tally.depth_toJson_le (Nat.le_add_left 1 n)
  rw [toJson, Json.depth_record_le_iff]
  simp [Json.depth, ← Keyed.depth_record_le_iff, htally]

theorem Tenant.depth_toJson_le_iff {t : Tenant} :
    t.toJson.depth ≤ n + 9 ↔
      (t.items.All fun i => i.properties.All fun v => v.depth ≤ n + 5) ∧
        t.shelves.All fun s => s.toJson.depth ≤ n + 7 := by
  rw [toJson, Json.depth_record_le_iff, List.forall_mem_cons, List.forall_mem_singleton,
    Keyed.depth_toJson_le_iff, Keyed.depth_toJson_le_iff]
  simp only [Item.depth_toJson_le_iff]

end

/-! ### The store -/

/-- No value in a store is too deep for the place where it stands in the store's document. -/
structure Store.Shallow (s : Store) : Prop where
  items : ∀ tenant id i, s.item? tenant id = some i → i.properties.All fun v => v.depth ≤ 121
  entries : ∀ tenant item version, ∀ e ∈ (s.shelf tenant item).entries version,
    e.content.properties.All fun v => v.depth ≤ 116
  copies : ∀ tenant item user version c, (s.shelf tenant item).copy? user version = some c →
    c.content.properties.All fun v => v.depth ≤ 117

/-- **A store's document is not too deep exactly if its values are not**, each for its place. -/
theorem Store.depth_toJson_le_iff {s : Store} : s.toJson.depth ≤ Json.maxDepth ↔ s.Shallow := by
  have hempty : Shelf.empty.toJson.depth ≤ 116 + 7 := by decide
  have hsplit : s.toJson.depth ≤ Json.maxDepth ↔
      (s.tenants.All fun t => t.items.All fun i => i.properties.All fun v => v.depth ≤ 121) ∧
        s.tenants.All fun t => t.shelves.All fun shelf => shelf.toJson.depth ≤ 116 + 7 := by
    change s.toJson.depth ≤ 116 + 9 + 1 + 1 ↔ _
    rw [toJson, Json.depth_record_le_iff, List.forall_mem_singleton, Keyed.depth_toJson_le_iff]
    simp only [Tenant.depth_toJson_le_iff]
    exact ⟨fun h => ⟨fun k t ht => (h k t ht).1, fun k t ht => (h k t ht).2⟩,
      fun h k t ht => ⟨h.1 k t ht, h.2 k t ht⟩⟩
  rw [hsplit, ← forall_items_iff, ← forall_shelves_iff hempty]
  simp only [Shelf.depth_toJson_le_iff]
  constructor
  · rintro ⟨hitems, hshelves⟩
    exact ⟨hitems, fun t i => (hshelves t i).1, fun t i => (hshelves t i).2⟩
  · intro h
    exact ⟨h.items, fun t i => ⟨h.entries t i, h.copies t i⟩⟩

end VersionCatalog
