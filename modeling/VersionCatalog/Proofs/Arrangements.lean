import VersionCatalog.Proofs.Loading

/-!
# Documents that are arranged otherwise

The fields of a record are read by their names, so it does not matter in which order they stand: a reader
makes the same of a document as of its canonical form, where they stand in the order of their names
(`Json.ReadsCanonical`). Only a record that has a name twice is another matter, as its canonical form has the
name once; a document without such records is unambiguous.

## Main results

* `Json.canonical_record_of_nodup`: the canonical form of a record without repeated names.
* `Json.ReadsCanonical.keyed?`, `Json.ReadsCanonical.record`: a reader of a whole from readers of its parts.
* `Store.readsCanonical_ofJson?`: the order of the fields makes no difference to what is read of a store.
-/

namespace VersionCatalog

/-! ### Lists in another order -/

section

variable {α β : Type} {l m : List α}

/-- What is read of a list depends on nothing but what is read of its members. -/
theorem mapM_congr {g h : α → Option β} (hsame : ∀ x ∈ l, g x = h x) : l.mapM g = l.mapM h := by
  induction l with
  | nil => rfl
  | cons x l ih =>
      obtain ⟨hx, hl⟩ := List.forall_mem_cons.1 hsame
      rw [List.mapM_cons, List.mapM_cons, hx, ih hl]

/-- From a list in another order the same is read in another order, or nothing from either. -/
theorem mapM_perm (g : α → Option β) (h : l.Perm m) : (l.mapM g = none ∧ m.mapM g = none) ∨
    ∃ ys zs, l.mapM g = some ys ∧ m.mapM g = some zs ∧ ys.Perm zs := by
  induction h with
  | nil => exact .inr ⟨[], [], rfl, rfl, .nil⟩
  | cons x _ ih =>
      rw [List.mapM_cons, List.mapM_cons]
      cases g x with
      | none => exact .inl ⟨rfl, rfl⟩
      | some y =>
          rcases ih with ⟨hl, hm⟩ | ⟨ys, zs, hl, hm, hperm⟩
          · exact .inl ⟨by rw [hl]; rfl, by rw [hm]; rfl⟩
          · exact .inr ⟨y :: ys, y :: zs, by rw [hl]; rfl, by rw [hm]; rfl, hperm.cons y⟩
  | swap x y l =>
      simp only [List.mapM_cons]
      cases g x with
      | none => cases g y <;> exact .inl ⟨rfl, rfl⟩
      | some x' =>
          cases g y with
          | none => exact .inl ⟨rfl, rfl⟩
          | some y' =>
              cases l.mapM g with
              | none => exact .inl ⟨rfl, rfl⟩
              | some rest => exact .inr ⟨_, _, rfl, rfl, .swap x' y' rest⟩
  | trans _ _ ih ih' =>
      rcases ih with ⟨hl, hm⟩ | ⟨ys, zs, hl, hm, hperm⟩
      · rcases ih' with ⟨-, hk⟩ | ⟨ys, zs, hm', -, -⟩
        · exact .inl ⟨hl, hk⟩
        · cases hm.symm.trans hm'
      · rcases ih' with ⟨hm', -⟩ | ⟨ys', zs', hm', hk, hperm'⟩
        · cases hm.symm.trans hm'
        · obtain rfl := Option.some.inj (hm.symm.trans hm')
          exact .inr ⟨ys, zs', hl, hk, hperm.trans hperm'⟩

/-- Steps of which any two may change places come to the same in another order. -/
theorem foldlM_perm {f : β → α → Option β} (h : l.Perm m)
    (hcomm : l.Pairwise fun x y => ∀ b, (f b x).bind (f · y) = (f b y).bind (f · x)) (b : β) :
    l.foldlM f b = m.foldlM f b := by
  have hsymm : ∀ {x y}, (∀ b, (f b x).bind (f · y) = (f b y).bind (f · x)) →
      ∀ b, (f b y).bind (f · x) = (f b x).bind (f · y) := fun h b => (h b).symm
  induction h generalizing b with
  | nil => rfl
  | cons x _ ih =>
      rw [List.foldlM_cons, List.foldlM_cons]
      exact bind_congr fun b' => ih (List.pairwise_cons.1 hcomm).2 b'
  | swap x y l =>
      have hswap := (List.pairwise_cons.1 hcomm).1 x List.mem_cons_self b
      simp only [List.foldlM_cons, Option.bind_eq_bind, ← Option.bind_assoc, hswap]
  | trans hl _ ih ih' =>
      exact (ih hcomm b).trans (ih' ((hl.pairwise_iff hsymm).1 hcomm) b)

variable {ls ms : List (String × α)} {k : String} {x : α}

/-- In a list of pairs without repeated names, a look-up finds what is there. -/
theorem lookup_eq_some_iff (h : (ls.map (·.1)).Nodup) : ls.lookup k = some x ↔ (k, x) ∈ ls := by
  refine ⟨mem_of_lookup, fun hmem => ?_⟩
  induction ls with
  | nil => cases hmem
  | cons e ls ih =>
      obtain ⟨hnew, hrest⟩ := List.nodup_cons.1 h
      rcases List.mem_cons.1 hmem with rfl | hmem
      · exact List.lookup_cons_self
      · have hne : (k == e.1) = false := by
          rw [beq_eq_false_iff_ne]
          rintro rfl
          exact hnew (List.mem_map_of_mem (f := (·.1)) hmem)
        rw [List.lookup_cons, hne]
        exact ih hrest hmem

theorem lookup_perm (h : ls.Perm ms) (hnodup : (ls.map (·.1)).Nodup) (k : String) :
    ls.lookup k = ms.lookup k := by
  have hnodup' : (ms.map (·.1)).Nodup := ((h.map (·.1)).nodup_iff).1 hnodup
  ext x
  rw [lookup_eq_some_iff hnodup, lookup_eq_some_iff hnodup', h.mem_iff]

/-- What is read of a list of named things has their names. -/
theorem names_of_mapM {read : α → Option β} {ys : List (String × β)}
    (h : ls.mapM (fun e => (read e.2).map fun x => (e.1, x)) = some ys) :
    ys.map (·.1) = ls.map (·.1) := by
  induction ls generalizing ys with
  | nil =>
      cases h
      rfl
  | cons e ls ih =>
      rw [List.mapM_cons] at h
      obtain ⟨y, hy, h⟩ := Option.bind_eq_some_iff.1 h
      obtain ⟨x, -, rfl⟩ := Option.map_eq_some_iff.1 hy
      obtain ⟨rest, hrest, h⟩ := Option.bind_eq_some_iff.1 h
      cases h
      rw [List.map_cons, List.map_cons, ih hrest]

end

namespace Json

/-! ### Unambiguous documents -/

mutual

/-- Whether no record in a document has a name twice. -/
def isUnambiguous : Json → Bool
  | .list items => unambiguousItems items
  | .record fields => decide (fields.map (·.1)).Nodup && unambiguousFields fields
  | _ => true

/-- Whether no record in a list's items has a name twice. -/
def unambiguousItems : List Json → Bool
  | [] => true
  | x :: xs => isUnambiguous x && unambiguousItems xs

/-- Whether no record in a record's values has a name twice. -/
def unambiguousFields : List (String × Json) → Bool
  | [] => true
  | (_, x) :: xs => isUnambiguous x && unambiguousFields xs

end

variable {xs : List Json} {fields : List (String × Json)}

theorem isUnambiguous_list_iff :
    (list xs).isUnambiguous = true ↔ ∀ x ∈ xs, x.isUnambiguous = true := by
  rw [isUnambiguous]
  induction xs with
  | nil => simp [unambiguousItems]
  | cons x xs ih => simp [unambiguousItems, ih]

theorem isUnambiguous_record_iff : (record fields).isUnambiguous = true ↔
    (fields.map (·.1)).Nodup ∧ ∀ e ∈ fields, e.2.isUnambiguous = true := by
  have hfields : unambiguousFields fields = true ↔ ∀ e ∈ fields, e.2.isUnambiguous = true := by
    induction fields with
    | nil => simp [unambiguousFields]
    | cons e fields ih => simp [unambiguousFields, ih]
  rw [isUnambiguous, Bool.and_eq_true, decide_eq_true_iff, hfields]

/-! ### Canonical forms -/

theorem names_canonicalField : (fields.map canonicalField).map (·.1) = fields.map (·.1) := by
  rw [List.map_map]
  rfl

/-- In the canonical form of a record without repeated names each field stands once, with the canonical form
of its value. -/
theorem canonical_record_of_nodup (h : (fields.map (·.1)).Nodup) :
    ∃ sorted : List (String × Json), (record fields).canonical = record sorted ∧
      sorted.Perm (fields.map canonicalField) ∧ (sorted.map (·.1)).Nodup := by
  have hnames : ((fields.map canonicalField).map (·.1)).Nodup := by
    rw [names_canonicalField]
    exact h
  have hperm := Keyed.entries_ofList_perm hnames
  exact ⟨_, canonical_record, hperm, ((hperm.map (·.1)).nodup_iff).2 hnames⟩

/-- The values in a canonical form are canonical forms. -/
theorem forall_canonical_record {P : Json → Prop} (h : ∀ e ∈ fields, P e.2.canonical) :
    ∀ e ∈ (Keyed.ofList (fields.map canonicalField)).entries, P e.2 := by
  intro e he
  obtain ⟨d, hd, rfl⟩ := List.mem_map.1 (Keyed.mem_of_mem_ofList he)
  exact h d hd

/-- A canonical form is unambiguous. -/
theorem isUnambiguous_canonical (j : Json) : j.canonical.isUnambiguous = true := by
  induction j using induction with
  | list items ih =>
      rw [canonical_list, isUnambiguous_list_iff]
      simpa using ih
  | record fields ih =>
      rw [canonical_record, isUnambiguous_record_iff]
      exact ⟨Keyed.nodup_keys _, forall_canonical_record (P := (·.isUnambiguous = true)) ih⟩
  | _ => rfl

/-- A canonical form is its own. -/
theorem canonical_canonical (j : Json) : j.canonical.canonical = j.canonical := by
  induction j using induction with
  | list items ih =>
      rw [canonical_list, canonical, canonicalItems_eq_self]
      simpa using ih
  | record fields ih =>
      have hfields := forall_canonical_record (P := fun x => x.canonical = x) ih
      rw [canonical_record, canonical, canonicalFields_eq_self hfields, Keyed.ofList_entries]
  | _ => rfl

/-- The canonical form of an unambiguous document is as readable as that is. -/
theorem isReadable_canonical {j : Json} (h : j.isUnambiguous = true) :
    j.canonical.isReadable = j.isReadable := by
  induction j using induction with
  | list items ih =>
      have hitems := isUnambiguous_list_iff.1 h
      rw [canonical_list, isReadable, isReadable, Bool.eq_iff_iff, readableItems_iff, readableItems_iff,
        List.forall_mem_map]
      exact forall₂_congr fun x hx => by rw [ih x hx (hitems x hx)]
  | record fields ih =>
      obtain ⟨hnodup, hfields⟩ := isUnambiguous_record_iff.1 h
      obtain ⟨sorted, hsorted, hperm, -⟩ := canonical_record_of_nodup hnodup
      rw [hsorted, isReadable, isReadable, Bool.eq_iff_iff, readableFields_iff, readableFields_iff]
      simp only [hperm.mem_iff, List.forall_mem_map]
      exact forall₂_congr fun e he => by rw [canonicalField, ih e he (hfields e he)]
  | _ => rfl

/-! ### Readers -/

variable {α : Type} {read : Json → Option α}

/-- A reader makes the same of an unambiguous document as of its canonical form. -/
def ReadsCanonical (read : Json → Option α) : Prop :=
  ∀ j, j.isUnambiguous = true → read j.canonical = read j

namespace ReadsCanonical

theorem text? : ReadsCanonical Json.text? := by
  intro j _
  cases j with
  | _ => rfl

theorem bool? : ReadsCanonical Json.bool? := by
  intro j _
  cases j with
  | _ => rfl

theorem value? : ReadsCanonical Json.value? := by
  intro j h
  rw [Json.value?, Json.value?, isReadable_canonical h, canonical_canonical]

theorem optional? (hread : ReadsCanonical read) : ReadsCanonical (Json.optional? read) := by
  intro j h
  cases j with
  | null => rfl
  | _ => exact congrArg (Option.map some) (hread _ h)

theorem list? (hread : ReadsCanonical read) : ReadsCanonical (Json.list? read) := by
  intro j h
  cases j with
  | list items =>
      have hitems := isUnambiguous_list_iff.1 h
      rw [canonical_list, Json.list?, Json.list?, List.mapM_map]
      exact mapM_congr fun x hx => hread x (hitems x hx)
  | _ => rfl

theorem word?_of_two (known : String → Option α) (e e' : String × Json)
    (fields : List (String × Json)) : Json.word? known (record (e :: e' :: fields)) = none := by
  obtain ⟨k, x⟩ := e
  cases x <;> rfl

/-- A word may also be written as the name of a record's only field. -/
theorem word? (known : String → Option α) : ReadsCanonical (Json.word? known) := by
  intro j h
  cases j with
  | record fields =>
      obtain ⟨hnodup, -⟩ := isUnambiguous_record_iff.1 h
      obtain ⟨sorted, hsorted, hperm, -⟩ := canonical_record_of_nodup hnodup
      rw [hsorted]
      cases fields with
      | nil =>
          rw [List.Perm.eq_nil hperm]
      | cons e rest =>
          cases rest with
          | nil =>
              rw [List.perm_singleton.1 hperm]
              obtain ⟨k, x⟩ := e
              cases x <;> rfl
          | cons e' rest =>
              have hlength : sorted.length = rest.length + 2 := by
                rw [hperm.length_eq, List.length_map, List.length_cons, List.length_cons]
              obtain ⟨d, d', tail, rfl⟩ : ∃ d d' tail, sorted = d :: d' :: tail := by
                match sorted, hlength with
                | d :: d' :: tail, _ => exact ⟨d, d', tail, rfl⟩
              rw [word?_of_two, word?_of_two]
  | _ => rfl

theorem keyed? (hread : ReadsCanonical read) : ReadsCanonical (Json.keyed? read) := by
  intro j h
  cases j with
  | record fields =>
      obtain ⟨hnodup, hfields⟩ := isUnambiguous_record_iff.1 h
      obtain ⟨sorted, hsorted, hperm, hnodup'⟩ := canonical_record_of_nodup hnodup
      let entry (e : String × Json) : Option (String × α) := (read e.2).map fun x => (e.1, x)
      have hvalues : (fields.map canonicalField).mapM entry = fields.mapM entry := by
        rw [List.mapM_map]
        exact mapM_congr fun e he => by
          simp only [Function.comp, entry, canonicalField, hread e.2 (hfields e he)]
      rw [hsorted]
      change (sorted.mapM entry >>= fun entries => some (Keyed.ofList entries))
        = (fields.mapM entry >>= fun entries => some (Keyed.ofList entries))
      rw [← hvalues]
      rcases mapM_perm entry hperm with ⟨hl, hm⟩ | ⟨ys, zs, hl, hm, hperm⟩
      · rw [hl, hm]
      · have hys : (ys.map (·.1)).Nodup := by
          rw [names_of_mapM hl]
          exact hnodup'
        rw [hl, hm, Option.bind_eq_bind, Option.bind_some, Option.bind_some,
          Keyed.ofList_eq_of_perm hperm hys]
  | _ => rfl

end ReadsCanonical

/-! ### Records -/

/-- The known fields of a record, and those of its canonical form. -/
structure Fields.Rearranged (fs fs' : Fields) : Prop where
  isList : fs'.isList = fs.isList
  lookup : ∀ name, fs'.found.lookup name = (fs.found.lookup name).map canonical
  unambiguous : ∀ name j, fs.found.lookup name = some j → j.isUnambiguous = true

namespace Fields.Rearranged

variable {fs fs' : Fields} (h : fs.Rearranged fs') (hread : ReadsCanonical read) (name : String)

include h hread

theorem required : fs'.required name read = fs.required name read := by
  rw [Fields.required, Fields.required, h.lookup]
  cases hj : fs.found.lookup name with
  | none => rfl
  | some j => exact hread j (h.unambiguous name j hj)

theorem withDefault (default : α) :
    fs'.withDefault name read default = fs.withDefault name read default := by
  rw [Fields.withDefault, Fields.withDefault, h.lookup]
  cases hj : fs.found.lookup name with
  | none => rfl
  | some j => exact hread j (h.unambiguous name j hj)

theorem optional : fs'.optional name read = fs.optional name read := by
  rw [Fields.optional, Fields.optional, h.lookup, h.isList]
  cases hj : fs.found.lookup name with
  | none => rfl
  | some j => exact hread.optional? j (h.unambiguous name j hj)

end Fields.Rearranged

/-- The known fields of a canonical form are those of the document, if any are read. -/
theorem fields?_canonical {j : Json} (h : j.isUnambiguous = true) (names : List String) :
    (j.fields? names = none ∧ j.canonical.fields? names = none) ∨
      ∃ fs fs', j.fields? names = some fs ∧ j.canonical.fields? names = some fs' ∧
        fs.Rearranged fs' := by
  cases j with
  | record fields =>
      obtain ⟨hnodup, hfields⟩ := isUnambiguous_record_iff.1 h
      obtain ⟨sorted, hsorted, hperm, hnodup'⟩ := canonical_record_of_nodup hnodup
      let known (e : String × Json) : Bool := names.contains e.1
      have hknown : ((fields.filter known).map (·.1)).Nodup :=
        hnodup.sublist (List.filter_sublist.map _)
      have hknown' : ((sorted.filter known).map (·.1)).Nodup :=
        hnodup'.sublist (List.filter_sublist.map _)
      have hfilter : (fields.map canonicalField).filter known
          = (fields.filter known).map canonicalField := List.filter_map
      refine .inr ⟨⟨false, fields.filter known⟩, ⟨false, sorted.filter known⟩, ?_, ?_, rfl,
        fun name => ?_, fun name j hj => ?_⟩
      · rw [fields?]
        exact if_pos hknown
      · rw [hsorted, fields?]
        exact if_pos hknown'
      · have hlookup := lookup_perm (hperm.filter known) hknown' name
        rw [hlookup, hfilter]
        exact Keyed.lookup_map canonical _ name
      · exact hfields (name, j) (List.mem_filter.1 (mem_of_lookup hj)).1
  | list items =>
      have hitems := isUnambiguous_list_iff.1 h
      rw [canonical_list, fields?, fields?, List.length_map]
      split
      · refine .inr ⟨_, _, rfl, rfl, rfl, fun name => ?_, fun name j hj => ?_⟩
        · rw [List.zip_map_right]
          exact Keyed.lookup_map canonical _ name
        · exact hitems j (List.of_mem_zip (mem_of_lookup hj)).2
      · exact .inl ⟨rfl, rfl⟩
  | _ => exact .inl ⟨rfl, rfl⟩

/-- **A record is read from its canonical form** if its fields are. -/
theorem ReadsCanonical.record {names : List String} {body : Fields → Option α}
    (hbody : ∀ fs fs' : Fields, fs.Rearranged fs' → body fs' = body fs) :
    ReadsCanonical fun j => j.fields? names >>= body := by
  intro j h
  rcases fields?_canonical h names with ⟨hnone, hnone'⟩ | ⟨fs, fs', hfs, hfs', hsame⟩
  · simp only [hnone, hnone']
  · simp only [hfs, hfs']
    exact hbody fs fs' hsame

end Json

/-! ### The parts of a store -/

open Json (ReadsCanonical)

theorem Instant.readsCanonical_ofJson? : ReadsCanonical ofJson? := by
  intro j _
  cases j with
  | _ => rfl

theorem Content.readsCanonical_ofJson? : ReadsCanonical ofJson? :=
  .record fun _ _ h => by
    simp only [h.required .text?, h.optional .text?, h.required (.word? _),
      h.optional Instant.readsCanonical_ofJson?, h.required (ReadsCanonical.keyed? .value?)]

theorem Revision.readsCanonical_ofJson? : ReadsCanonical ofJson? :=
  .record fun _ _ h => by
    simp only [h.required .text?, h.required Instant.readsCanonical_ofJson?]

theorem Entry.readsCanonical_ofJson? : ReadsCanonical ofJson? :=
  .record fun _ _ h => by
    simp only [h.required Revision.readsCanonical_ofJson?, h.required Content.readsCanonical_ofJson?]

theorem SharedCopy.readsCanonical_ofJson? : ReadsCanonical ofJson? :=
  .record fun _ _ h => by
    simp only [h.required Entry.readsCanonical_ofJson?.list?]

theorem WorkingCopy.readsCanonical_ofJson? : ReadsCanonical ofJson? :=
  .record fun _ _ h => by
    simp only [h.required Content.readsCanonical_ofJson?, h.optional .text?, h.required .bool?]

theorem Shelf.readsCanonical_ofJson? : ReadsCanonical ofJson? :=
  .record fun _ _ h => by
    simp only [h.withDefault SharedCopy.readsCanonical_ofJson?.keyed?,
      h.withDefault WorkingCopy.readsCanonical_ofJson?.keyed?.keyed?]

/-- The entries of two statuses may be replaced in either order. -/
theorem Tally.set_comm {a b : VersionStatus} (h : a ≠ b) (t : Tally) (n m : Option UInt32) :
    (t.set a n).set b m = (t.set b m).set a n := by
  cases a <;> cases b <;> first | rfl | exact absurd rfl h

theorem VersionStatus.name_of_ofName? {k : String} {status : VersionStatus}
    (h : ofName? k = some status) : k = status.name := by
  unfold ofName? at h
  split at h <;> cases h <;> rfl

/-- Counts an entry of a tally's document. -/
def Tally.counting (t : Tally) (e : String × Json) : Option Tally := do
  let s ← VersionStatus.ofName? e.1
  let n ← e.2.natUpTo? 4294967295
  return t.set s (some (.ofNat n))

/-- Entries under different names are of different statuses, so either may be counted first. -/
theorem Tally.counting_comm {d e : String × Json} (h : d.1 ≠ e.1) (t : Tally) :
    (t.counting d).bind (·.counting e) = (t.counting e).bind (·.counting d) := by
  cases hd : VersionStatus.ofName? d.1 with
  | none => cases t.counting e <;> simp [counting, hd]
  | some a =>
      cases he : VersionStatus.ofName? e.1 with
      | none => cases t.counting d <;> simp [counting, he]
      | some b =>
          have hne : a ≠ b := by
            rintro rfl
            exact h ((VersionStatus.name_of_ofName? hd).trans (VersionStatus.name_of_ofName? he).symm)
          cases hn : d.2.natUpTo? 4294967295 with
          | none => cases t.counting e <;> simp [counting, hn]
          | some n =>
              cases hm : e.2.natUpTo? 4294967295 with
              | none => cases t.counting d <;> simp [counting, hm]
              | some m => simp [counting, hd, he, hn, hm, Tally.set_comm hne]

theorem Tally.readsCanonical_ofJson? : ReadsCanonical ofJson? := by
  intro j h
  cases j with
  | record fields =>
      obtain ⟨hnodup, hfields⟩ := Json.isUnambiguous_record_iff.1 h
      obtain ⟨sorted, hsorted, hperm, hnodup'⟩ := Json.canonical_record_of_nodup hnodup
      have hcomm : sorted.Pairwise fun d e => ∀ t : Tally,
          (t.counting d).bind (·.counting e) = (t.counting e).bind (·.counting d) :=
        (List.pairwise_map.1 hnodup').imp counting_comm
      have hvalue : ∀ (t : Tally) (e : String × Json),
          t.counting (Json.canonicalField e) = t.counting e := by
        rintro t ⟨k, x⟩
        cases x <;> rfl
      rw [hsorted]
      change sorted.foldlM counting ∅ = fields.foldlM counting ∅
      rw [foldlM_perm hperm hcomm, List.foldlM_map]
      simp only [hvalue]
  | _ => rfl

theorem Item.readsCanonical_ofJson? : ReadsCanonical ofJson? :=
  .record fun _ _ h => by
    simp only [h.required .text?, h.withDefault .text?, h.withDefault (.word? _),
      h.optional Instant.readsCanonical_ofJson?, h.withDefault (ReadsCanonical.keyed? .value?),
      h.withDefault Tally.readsCanonical_ofJson?]

theorem Tenant.readsCanonical_ofJson? : ReadsCanonical ofJson? :=
  .record fun _ _ h => by
    simp only [h.withDefault Item.readsCanonical_ofJson?.keyed?,
      h.withDefault Shelf.readsCanonical_ofJson?.keyed?]

/-- **What is read of a store does not depend on the order of the fields.** -/
theorem Store.readsCanonical_ofJson? : ReadsCanonical ofJson? :=
  .record fun _ _ h => by
    simp only [h.withDefault Tenant.readsCanonical_ofJson?.keyed?]

end VersionCatalog
