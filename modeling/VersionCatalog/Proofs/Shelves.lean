import VersionCatalog.Proofs.Places

/-!
# What a shelf holds

The versions of one item are seen through three look-ups: all that was published of a version
(`Shelf.entries`), the latest of it (`Shelf.head?`), and a user's copy (`Shelf.copy?`). Every rule
changes a shelf by putting a copy, dropping one, or appending a publication, and what these do to the
look-ups is said here. The name checks are restated through the look-ups, so nothing after this module
depends on how the tables are walked through.
-/

namespace VersionCatalog.Shelf

variable {s s' : Shelf} {user version name : String}

/-! ### The look-ups -/

theorem copy?_eq (s : Shelf) (user version : String) :
    s.copy? user version = (s.copies.getD user ∅).get? version := by
  rw [copy?, Keyed.getD_eq]
  cases s.copies.get? user <;> rfl

/-- The head is the last publication. -/
theorem head?_eq (s : Shelf) (version : String) :
    s.head? version = (s.entries version).getLast? := by
  rw [head?, entries]
  cases s.shared.get? version <;> rfl

theorem mem_entries_of_head? {e : Entry} (h : s.head? version = some e) :
    e ∈ s.entries version := by
  rw [head?_eq] at h
  exact List.mem_of_getLast? h

theorem entries_eq_nil_of_head? (h : s.head? version = none) : s.entries version = [] := by
  rw [head?_eq] at h
  exact List.getLast?_eq_none_iff.1 h

@[simp] theorem entries_empty (version : String) : empty.entries version = [] := rfl

@[simp] theorem head?_empty (version : String) : empty.head? version = none := rfl

@[simp] theorem copy?_empty (user version : String) : empty.copy? user version = none := rfl

theorem mem_heads {e : Entry} : e ∈ s.heads ↔ ∃ version, s.head? version = some e := by
  simp only [heads, List.mem_filterMap, Keyed.mem_values, head?, Option.bind_eq_some_iff]
  constructor
  · rintro ⟨shared, ⟨version, hshared⟩, he⟩
    exact ⟨version, shared, hshared, he⟩
  · rintro ⟨version, shared, hshared, he⟩
    exact ⟨shared, ⟨version, hshared⟩, he⟩

/-- What is listed is the content of a head, without a word on anybody's copy. -/
theorem mem_list {x : Version} :
    x ∈ s.list ↔ ∃ version e, s.head? version = some e ∧ x = ⟨e.content, none⟩ := by
  simp only [list, List.mem_map, List.mem_mergeSort, mem_heads]
  constructor
  · rintro ⟨_, ⟨e, ⟨version, he⟩, rfl⟩, rfl⟩
    exact ⟨version, e, he, rfl⟩
  · rintro ⟨version, e, he, rfl⟩
    exact ⟨e.content, ⟨e, ⟨version, he⟩, rfl⟩, rfl⟩

/-- An up-to-date copy does not merge, and it was made from the head, if there is one. -/
theorem syncState_eq_upToDate {c : WorkingCopy} {head : Option Entry} :
    c.syncState head = .upToDate ↔ c.merging = false ∧ c.synced = head.map (·.revision.id) := by
  rw [WorkingCopy.syncState]
  cases c.merging with
  | true => simp
  | false =>
      simp only [Bool.false_eq_true, if_false, true_and]
      split
      · rename_i h
        simp [h]
      · rename_i h
        simpa using fun heq => h heq.symm

/-! ### Putting a copy -/

theorem copy?_putCopy (s : Shelf) (user version u v : String) (c : WorkingCopy) :
    (s.putCopy user version c).copy? u v
      = if u = user ∧ v = version then some c else s.copy? u v := by
  rw [copy?_eq, copy?_eq, putCopy, Keyed.getD_insert]
  by_cases hu : u = user
  · subst hu
    simp [Keyed.get?_insert]
  · simp [hu]

@[simp] theorem copy?_putCopy_self (s : Shelf) (user version : String) (c : WorkingCopy) :
    (s.putCopy user version c).copy? user version = some c := by
  rw [copy?_putCopy, if_pos ⟨rfl, rfl⟩]

@[simp] theorem entries_putCopy (s : Shelf) (user version v : String) (c : WorkingCopy) :
    (s.putCopy user version c).entries v = s.entries v := rfl

@[simp] theorem head?_putCopy (s : Shelf) (user version v : String) (c : WorkingCopy) :
    (s.putCopy user version c).head? v = s.head? v := rfl

/-- Putting back the copy that is there changes nothing. -/
theorem putCopy_eq_self {c : WorkingCopy} (h : s.copy? user version = some c) :
    s.putCopy user version c = s := by
  obtain ⟨copies, hcopies, hc⟩ := Option.bind_eq_some_iff.1 h
  rw [putCopy, Keyed.getD_eq, hcopies, Option.getD_some, Keyed.insert_eq_self hc,
    Keyed.insert_eq_self hcopies]

/-- The copy that was just made of a head is shown as the head. -/
theorem get?_putCopy_head {e : Entry} (he : s.head? version = some e) :
    (s.putCopy user version (.ofEntry e)).get? user version
      = some ⟨e.content, some ⟨.upToDate, false⟩⟩ := by
  have hsync : (WorkingCopy.ofEntry e).syncState (some e) = .upToDate :=
    syncState_eq_upToDate.2 ⟨rfl, rfl⟩
  rw [get?, copy?_putCopy_self, Option.map_some, head?_putCopy, he]
  simp only [hsync, if_true]
  rfl

/-! ### Appending a publication -/

@[simp] theorem copy?_append (s : Shelf) (version u v : String) (e : Entry) :
    (s.append version e).copy? u v = s.copy? u v := rfl

theorem entries_append (s : Shelf) (version v : String) (e : Entry) :
    (s.append version e).entries v
      = if v = version then s.entries v ++ [e] else s.entries v := by
  rw [entries, entries, append]
  simp only [Keyed.get?_insert]
  split
  · rename_i h
    rw [h]
    rfl
  · rfl

theorem head?_append (s : Shelf) (version v : String) (e : Entry) :
    (s.append version e).head? v = if v = version then some e else s.head? v := by
  rw [head?_eq, head?_eq, entries_append]
  split
  · rw [List.getLast?_concat]
  · rfl

/-! ### Dropping a copy -/

/-- The shelf without a user's copy of a version; a user without copies has no table of them. -/
def dropCopy (s : Shelf) (user version : String) : Shelf :=
  match s.copies.get? user with
  | none => s
  | some copies =>
    { s with
      copies := if (copies.erase version).isEmpty then s.copies.erase user
        else s.copies.insert user (copies.erase version) }

theorem clean_eq (s : Shelf) (user version : String) :
    clean user version s = .ok () (s.dropCopy user version) := by
  rw [clean, dropCopy]
  cases s.copies.get? user <;> rfl

@[simp] theorem shared_dropCopy (s : Shelf) (user version : String) :
    (s.dropCopy user version).shared = s.shared := by
  rw [dropCopy]
  cases s.copies.get? user <;> rfl

@[simp] theorem entries_dropCopy (s : Shelf) (user version v : String) :
    (s.dropCopy user version).entries v = s.entries v := by
  rw [entries, shared_dropCopy, entries]

@[simp] theorem head?_dropCopy (s : Shelf) (user version v : String) :
    (s.dropCopy user version).head? v = s.head? v := by
  rw [head?, shared_dropCopy, head?]

@[simp] theorem heads_dropCopy (s : Shelf) (user version : String) :
    (s.dropCopy user version).heads = s.heads := by
  rw [heads, shared_dropCopy, heads]

/-- The copies of a user, as they are found after one of them is dropped. -/
theorem getD_copies_dropCopy (s : Shelf) (user version u : String) :
    (s.dropCopy user version).copies.getD u ∅
      = if u = user then (s.copies.getD user ∅).erase version else s.copies.getD u ∅ := by
  rw [dropCopy]
  cases h : s.copies.get? user with
  | none =>
      dsimp only
      split
      · rename_i hu
        rw [hu, Keyed.getD_eq, h]
        exact Keyed.ext_get? fun k => by simp [Keyed.get?_erase]
      · rfl
  | some copies =>
      simp only [Keyed.getD_eq s.copies user, h, Option.getD_some]
      split
      · rename_i hempty
        rw [Keyed.getD_erase]
        split
        · exact Keyed.ext_get? fun k => (Keyed.isEmpty_iff.1 hempty k).symm
        · rfl
      · rw [Keyed.getD_insert]

theorem copy?_dropCopy (s : Shelf) (user version u v : String) :
    (s.dropCopy user version).copy? u v
      = if u = user ∧ v = version then none else s.copy? u v := by
  rw [copy?_eq, copy?_eq, getD_copies_dropCopy]
  by_cases hu : u = user
  · subst hu
    simp [Keyed.get?_erase]
  · simp [hu]

/-- A copy that is put does not depend on the one that was dropped before. -/
theorem putCopy_dropCopy (s : Shelf) (user version : String) (c : WorkingCopy) :
    (s.dropCopy user version).putCopy user version c = s.putCopy user version c := by
  rw [putCopy, getD_copies_dropCopy, if_pos rfl, Keyed.insert_erase, dropCopy, putCopy]
  cases s.copies.get? user with
  | none => rfl
  | some copies =>
      dsimp only
      split
      · rw [Keyed.insert_erase]
      · rw [Keyed.insert_insert]

/-! ### Alike shelves -/

theorem Alike.copy? (h : s.Alike s') (user version : String) :
    s.copy? user version = s'.copy? user version := by
  rw [copy?_eq, copy?_eq, h.copies]

theorem Alike.entries (h : s.Alike s') (version : String) :
    s.entries version = s'.entries version := by
  rw [Shelf.entries, Shelf.entries, h.shared]

theorem Alike.head? (h : s.Alike s') (version : String) : s.head? version = s'.head? version := by
  rw [Shelf.head?, Shelf.head?, h.shared]

theorem Alike.heads (h : s.Alike s') : s.heads = s'.heads := by
  rw [Shelf.heads, Shelf.heads, h.shared]

/-- A user's table of copies that is put where none or the same was is no difference. -/
theorem alike_insert_copies (s : Shelf) (user : String) :
    s.Alike { s with copies := s.copies.insert user (s.copies.getD user ∅) } where
  shared := rfl
  copies u := by
    rw [Keyed.getD_insert]
    split
    · rename_i h
      rw [h]
    · rfl

/-! ### The name checks -/

/-- A name is used if a head or anybody's copy has it. -/
theorem usesName_iff : s.usesName name = true ↔
    (∃ version e, s.head? version = some e ∧ e.content.name = name) ∨
      ∃ user version c, s.copy? user version = some c ∧ c.content.name = name := by
  simp only [usesName, Bool.or_eq_true, List.any_eq_true, beq_iff_eq, mem_heads, Keyed.mem_values]
  constructor
  · rintro (⟨e, ⟨version, he⟩, hname⟩ | ⟨copies, ⟨user, hcopies⟩, c, ⟨version, hc⟩, hname⟩)
    · exact .inl ⟨version, e, he, hname⟩
    · exact .inr ⟨user, version, c, by rw [copy?, hcopies]; exact hc, hname⟩
  · rintro (⟨version, e, he, hname⟩ | ⟨user, version, c, hc, hname⟩)
    · exact .inl ⟨e, ⟨version, he⟩, hname⟩
    · obtain ⟨copies, hcopies, hget⟩ := Option.bind_eq_some_iff.1 hc
      exact .inr ⟨copies, ⟨user, hcopies⟩, c, ⟨version, hget⟩, hname⟩

/-- Another version is shared under a name if its head has it. -/
theorem sharesName_iff : s.sharesName version name = true ↔
    ∃ v e, v ≠ version ∧ s.head? v = some e ∧ e.content.name = name := by
  simp only [sharesName, List.any_eq_true, Bool.and_eq_true, bne_iff_ne, Option.any_eq_true,
    beq_iff_eq, Prod.exists, ← Keyed.get?_eq_some_iff, head?, Option.bind_eq_some_iff]
  constructor
  · rintro ⟨v, shared, hshared, hne, e, he, hname⟩
    exact ⟨v, e, hne, ⟨shared, hshared, he⟩, hname⟩
  · rintro ⟨v, e, hne, ⟨shared, hshared, he⟩, hname⟩
    exact ⟨v, shared, hshared, hne, e, he, hname⟩

end VersionCatalog.Shelf
