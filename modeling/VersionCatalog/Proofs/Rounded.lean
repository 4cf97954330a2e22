import VersionCatalog.Proofs.Decimals
import VersionCatalog.Proofs.Depths
import VersionCatalog.Proofs.Values

/-!
# Stores whose numbers are rounded

A number of double precision may be written with digits that are read as another number next to it. So a
store is read back from its text with its numbers rounded (`Store.rounded`), and with nothing else changed.
It is read back as it was exactly if each of its values is (`Json.IsSteady`), as all values are whose numbers
are whole or have few digits (`Json.isExact`).

## Main results

* `Json.canonical_rounded`: rounding and canonical forms do not interfere.
* `Store.toJson_rounded`: the document of a store is rounded by rounding the store.
* `Store.parse?_toText`: what is read back from a store's text.
* `Store.Within.rounded_eq_self`: a store of steady values is read back as it was.
-/

namespace VersionCatalog

open Json (maxDepth)

/-! ### Documents -/

namespace Json

/-- What is shown for a list from its items, and for a record from its values, is true of all documents that
are made of those for which it is shown. -/
@[elab_as_elim]
theorem induction {P : Json → Prop} (null : P null) (bool : ∀ b, P (bool b)) (int : ∀ n, P (int n))
    (real : ∀ d, P (real d)) (text : ∀ s, P (text s)) (unreadable : P unreadable)
    (list : ∀ items, (∀ x ∈ items, P x) → P (list items))
    (record : ∀ fields, (∀ e ∈ fields, P e.2) → P (record fields)) (j : Json) : P j :=
  @Json.rec P (fun items => ∀ x ∈ items, P x) (fun fields => ∀ e ∈ fields, P e.2) (fun e => P e.2)
    null bool int real text list record unreadable
    (fun _ hx => absurd hx List.not_mem_nil)
    (fun _ _ hx hxs => List.forall_mem_cons.2 ⟨hx, hxs⟩)
    (fun _ he => absurd he List.not_mem_nil)
    (fun _ _ he hes => List.forall_mem_cons.2 ⟨he, hes⟩) (fun _ _ hx => hx) j

variable {xs : List Json} {fields : List (String × Json)}

theorem readableItems_iff : readableItems xs = true ↔ ∀ x ∈ xs, x.isReadable = true := by
  induction xs with
  | nil => simp [readableItems]
  | cons x xs ih => simp [readableItems, ih]

theorem readableFields_iff : readableFields fields = true ↔ ∀ e ∈ fields, e.2.isReadable = true := by
  induction fields with
  | nil => simp [readableFields]
  | cons e fields ih => simp [readableFields, ih]

/-- A field with the canonical form of its value. -/
def canonicalField (e : String × Json) : String × Json :=
  (e.1, e.2.canonical)

theorem canonical_list : (list xs).canonical = list (xs.map canonical) := by
  rw [canonical]
  congr 1
  induction xs with
  | nil => rfl
  | cons x xs ih => rw [canonicalItems, ih, List.map_cons]

theorem canonical_record :
    (record fields).canonical = record (Keyed.ofList (fields.map canonicalField)).entries := by
  have hfields : canonicalFields fields = fields.map canonicalField := by
    induction fields with
    | nil => rfl
    | cons e fields ih =>
        rw [canonicalFields, ih]
        rfl
  rw [canonical, hfields]

/-! ### Rounded documents -/

@[simp] theorem rounded_list : (list xs).rounded = list (xs.map rounded) := by
  rw [rounded]
  congr 1
  induction xs with
  | nil => rfl
  | cons x xs ih => rw [roundedItems, ih, List.map_cons]

@[simp] theorem rounded_record :
    (record fields).rounded = record (fields.map fun e => (e.1, e.2.rounded)) := by
  rw [rounded]
  congr 1
  induction fields with
  | nil => rfl
  | cons e fields ih =>
      rw [roundedFields, ih]
      rfl

@[simp] theorem rounded_text (s : String) : (text s).rounded = text s := rfl

@[simp] theorem rounded_bool (b : Bool) : (bool b).rounded = bool b := rfl

@[simp] theorem rounded_int (n : Int) : (int n).rounded = int n := rfl

@[simp] theorem rounded_textOrNull (s : Option String) : (textOrNull s).rounded = textOrNull s := by
  cases s <;> rfl

/-- A number of double precision stays one. -/
theorem exists_rounded_real (d : Double) : ∃ e, (real d).rounded = real e :=
  exists_ofNumeral_numeral d

@[simp] theorem depth_rounded (j : Json) : j.rounded.depth = j.depth := by
  induction j using induction with
  | real d =>
      obtain ⟨e, he⟩ := exists_rounded_real d
      rw [he]
      rfl
  | list items ih =>
      rw [rounded_list, depth, depth]
      congr 1
      induction items with
      | nil => rfl
      | cons x items ihs =>
          obtain ⟨hx, hitems⟩ := List.forall_mem_cons.1 ih
          rw [List.map_cons, depthItems, depthItems, hx, ihs hitems]
  | record fields ih =>
      rw [rounded_record, depth, depth]
      congr 1
      induction fields with
      | nil => rfl
      | cons e fields ihs =>
          obtain ⟨he, hfields⟩ := List.forall_mem_cons.1 ih
          rw [List.map_cons, depthFields, depthFields, he, ihs hfields]
  | _ => rfl

theorem isReadable_rounded (j : Json) : j.rounded.isReadable = j.isReadable := by
  induction j using induction with
  | real d =>
      obtain ⟨e, he⟩ := exists_rounded_real d
      rw [he]
      rfl
  | list items ih =>
      rw [rounded_list, isReadable, isReadable, Bool.eq_iff_iff, readableItems_iff, readableItems_iff,
        List.forall_mem_map]
      exact forall₂_congr fun x hx => by rw [ih x hx]
  | record fields ih =>
      rw [rounded_record, isReadable, isReadable, Bool.eq_iff_iff, readableFields_iff,
        readableFields_iff, List.forall_mem_map]
      exact forall₂_congr fun e he => by rw [ih e he]
  | _ => rfl

theorem fits_rounded {j : Json} (h : j.fits = true) : j.rounded.fits = true := by
  induction j using induction with
  | real d =>
      obtain ⟨e, he⟩ := exists_rounded_real d
      rw [he]
      rfl
  | list items ih =>
      have hitems := fitsItems_iff.1 h
      rw [rounded_list, fits, fitsItems_iff, List.forall_mem_map]
      exact fun x hx => ih x hx (hitems x hx)
  | record fields ih =>
      have hfields := fitsFields_iff.1 h
      rw [rounded_record, fits, fitsFields_iff, List.forall_mem_map]
      exact fun e he => ih e he (hfields e he)
  | _ => exact h

/-- **Rounding and canonical forms do not interfere.** -/
theorem canonical_rounded (j : Json) : j.rounded.canonical = j.canonical.rounded := by
  induction j using induction with
  | real d =>
      obtain ⟨e, he⟩ := exists_rounded_real d
      have hself : (real d).canonical = real d := rfl
      rw [hself, he]
      rfl
  | list items ih =>
      rw [rounded_list, canonical_list, canonical_list, rounded_list, List.map_map, List.map_map]
      exact congrArg list (List.map_congr_left ih)
  | record fields ih =>
      have hfields : (fields.map fun e => (e.1, e.2.rounded)).map canonicalField
          = (fields.map canonicalField).map fun e => (e.1, e.2.rounded) := by
        rw [List.map_map, List.map_map]
        exact List.map_congr_left fun e he => congrArg (Prod.mk e.1) (ih e he)
      rw [rounded_record, canonical_record, canonical_record, rounded_record, hfields,
        ← Keyed.map_ofList]
      rfl
  | _ => rfl

theorem IsValue.rounded {v : Json} (h : v.IsValue) : v.rounded.IsValue where
  readable := (isReadable_rounded v).trans h.readable
  canonical := by rw [canonical_rounded, h.canonical]
  fits := fits_rounded h.fits

/-- A value that is read back as it was written. -/
structure IsSteady (v : Json) : Prop extends v.IsValue where
  steady : v.rounded = v

end Json

namespace Json

mutual

/-- Whether each number in a document is whole or has few digits. -/
def isExact : Json → Bool
  | .real d => isShort d
  | .list items => exactItems items
  | .record fields => exactFields fields
  | _ => true

/-- The same of the items of a list. -/
def exactItems : List Json → Bool
  | [] => true
  | x :: xs => isExact x && exactItems xs

/-- The same of the values of a record. -/
def exactFields : List (String × Json) → Bool
  | [] => true
  | (_, x) :: xs => isExact x && exactFields xs

end

theorem exactItems_iff {xs : List Json} : exactItems xs = true ↔ ∀ x ∈ xs, x.isExact = true := by
  induction xs with
  | nil => simp [exactItems]
  | cons x xs ih => simp [exactItems, ih]

theorem exactFields_iff {fields : List (String × Json)} :
    exactFields fields = true ↔ ∀ e ∈ fields, e.2.isExact = true := by
  induction fields with
  | nil => simp [exactFields]
  | cons e fields ih => simp [exactFields, ih]

/-- Whole numbers, and numbers of few digits, are read back as they were written. -/
theorem rounded_of_isExact {j : Json} (h : j.isExact = true) : j.rounded = j := by
  induction j using induction with
  | real d => exact ofNumeral_numeral_of_isShort h
  | list items ih =>
      have hitems := exactItems_iff.1 h
      rw [rounded_list, List.map_congr_left fun x hx => ih x hx (hitems x hx), List.map_id']
  | record fields ih =>
      have hfields := exactFields_iff.1 h
      have hsame : ∀ e ∈ fields, (e.1, e.2.rounded) = e := fun e he =>
        congrArg (Prod.mk e.1) (ih e he (hfields e he))
      rw [rounded_record, List.map_congr_left hsame, List.map_id']
  | _ => rfl

example : (parse? "[2.5, 0.1, 1e-7, 1234567.125, 3e9]").any isExact = true := by decide +kernel

example : (parse? "5e32").any isExact = false := by decide +kernel

end Json

/-! ### The parts of a store -/

@[simp] theorem Instant.rounded_toJson (t : Option Instant) :
    (Instant.toJson t).rounded = Instant.toJson t :=
  Json.rounded_textOrNull _

theorem Keyed.rounded_toJson {α : Type} {write : α → Json} {f : α → α}
    (h : ∀ x, (write x).rounded = write (f x)) (t : Keyed α) :
    (t.toJson write).rounded = (t.map f).toJson write := by
  rw [Keyed.toJson, Json.rounded_record, Keyed.toJson, Keyed.map, List.map_map, List.map_map]
  exact congrArg Json.record (List.map_congr_left fun e _ => congrArg (Prod.mk e.1) (h e.2))

/-- A content with its numbers as they are read back. -/
def Content.rounded (c : Content) : Content :=
  { c with properties := c.properties.map Json.rounded }

theorem Content.toJson_rounded (c : Content) : c.toJson.rounded = c.rounded.toJson := by
  simp [toJson, jsonFields, rounded, Keyed.map]

/-- A publication with its numbers as they are read back. -/
def Entry.rounded (e : Entry) : Entry :=
  { e with content := e.content.rounded }

theorem Entry.toJson_rounded (e : Entry) : e.toJson.rounded = e.rounded.toJson := by
  simp [toJson, rounded, Revision.toJson, Content.toJson_rounded]

/-- A shared copy with its numbers as they are read back. -/
def SharedCopy.rounded (s : SharedCopy) : SharedCopy :=
  { s with entries := s.entries.map Entry.rounded }

theorem SharedCopy.toJson_rounded (s : SharedCopy) : s.toJson.rounded = s.rounded.toJson := by
  simp [toJson, rounded, Function.comp_def, Entry.toJson_rounded]

/-- A user's copy with its numbers as they are read back. -/
def WorkingCopy.rounded (c : WorkingCopy) : WorkingCopy :=
  { c with content := c.content.rounded }

theorem WorkingCopy.toJson_rounded (c : WorkingCopy) : c.toJson.rounded = c.rounded.toJson := by
  simp [toJson, rounded, Content.toJson_rounded]

/-- The versions of an item with their numbers as they are read back. -/
def Shelf.rounded (s : Shelf) : Shelf where
  shared := s.shared.map SharedCopy.rounded
  copies := s.copies.map (Keyed.map WorkingCopy.rounded)

theorem Shelf.toJson_rounded (s : Shelf) : s.toJson.rounded = s.rounded.toJson := by
  have hcopies := Keyed.rounded_toJson (Keyed.rounded_toJson WorkingCopy.toJson_rounded) s.copies
  simp [toJson, rounded, Keyed.rounded_toJson SharedCopy.toJson_rounded, hcopies]

/-- An item with its numbers as they are read back. -/
def Item.rounded (i : Item) : Item :=
  { i with properties := i.properties.map Json.rounded }

theorem Tally.toJson_rounded (t : Tally) : t.toJson.rounded = t.toJson := by
  obtain ⟨draft, certified⟩ := t
  cases draft <;> cases certified <;> simp [toJson, get?]

theorem Item.toJson_rounded (i : Item) : i.toJson.rounded = i.rounded.toJson := by
  simp [toJson, rounded, Tally.toJson_rounded, Keyed.map]

/-- What is stored for a tenant with its numbers as they are read back. -/
def Tenant.rounded (t : Tenant) : Tenant where
  items := t.items.map Item.rounded
  shelves := t.shelves.map Shelf.rounded

theorem Tenant.toJson_rounded (t : Tenant) : t.toJson.rounded = t.rounded.toJson := by
  simp [toJson, rounded, Keyed.rounded_toJson Item.toJson_rounded,
    Keyed.rounded_toJson Shelf.toJson_rounded]

namespace Store

/-- A store with its numbers as they are read back. -/
def rounded (s : Store) : Store :=
  ⟨s.tenants.map Tenant.rounded⟩

/-- **The document of a store is rounded by rounding the store.** -/
theorem toJson_rounded (s : Store) : s.toJson.rounded = s.rounded.toJson := by
  simp [toJson, rounded, Keyed.rounded_toJson Tenant.toJson_rounded]

@[simp] theorem depth_toJson_rounded (s : Store) : s.rounded.toJson.depth = s.toJson.depth := by
  rw [← toJson_rounded, Json.depth_rounded]

end Store

/-! ### What a rounded store holds -/

namespace Shelf

theorem entries_rounded (s : Shelf) (version : String) :
    s.rounded.entries version = (s.entries version).map Entry.rounded := by
  rw [entries, entries, rounded, Keyed.get?_map]
  cases s.shared.get? version <;> rfl

theorem copy?_rounded (s : Shelf) (user version : String) :
    s.rounded.copy? user version = (s.copy? user version).map WorkingCopy.rounded := by
  rw [copy?, copy?, rounded, Keyed.get?_map]
  cases s.copies.get? user with
  | none => rfl
  | some copies => exact Keyed.get?_map _ _ _

theorem Within.rounded {q : Json → Prop} {s : Shelf} (h : s.Within q)
    (hq : ∀ v, q v → q v.rounded) : s.rounded.Within q where
  entries version e he := by
    rw [entries_rounded] at he
    obtain ⟨stored, hstored, rfl⟩ := List.mem_map.1 he
    exact (h.entries version stored hstored).map hq
  copies user version c hc := by
    rw [copy?_rounded] at hc
    obtain ⟨stored, hstored, rfl⟩ := Option.map_eq_some_iff.1 hc
    exact (h.copies user version stored hstored).map hq

end Shelf

namespace Store

variable {s : Store} {p q : Json → Prop}

theorem item?_rounded (s : Store) (tenant id : String) :
    s.rounded.item? tenant id = (s.item? tenant id).map Item.rounded := by
  rw [item?, item?, Store.tenant, Store.tenant, Keyed.getD_eq, Keyed.getD_eq, rounded,
    Keyed.get?_map]
  cases s.tenants.get? tenant with
  | none => rfl
  | some t => exact Keyed.get?_map _ _ _

theorem shelf_rounded (s : Store) (tenant item : String) :
    s.rounded.shelf tenant item = (s.shelf tenant item).rounded := by
  rw [Store.shelf, Store.shelf, Store.tenant, Store.tenant, Keyed.getD_eq, Keyed.getD_eq, rounded,
    Keyed.get?_map]
  cases s.tenants.get? tenant with
  | none => rfl
  | some t =>
      change ((t.shelves.map Shelf.rounded).get? item).getD .empty = _
      rw [Keyed.get?_map]
      cases ht : t.shelves.get? item with
      | none =>
          simp only [ht, Option.getD_some]
          rfl
      | some shelf =>
          simp only [ht, Option.getD_some]
          rfl

/-- Where a user's copy is found before, one is found after. -/
theorem isSome_getVersion_rounded (s : Store) (session : Session) (item version : String) :
    (s.rounded.getVersion session item version).isSome
      = (s.getVersion session item version).isSome := by
  rw [getVersion, getVersion, Shelf.get?, Shelf.get?, Option.isSome_map, Option.isSome_map,
    shelf_rounded, Shelf.copy?_rounded, Option.isSome_map]

theorem Within.rounded (h : s.Within p q) (hp : ∀ v, p v → p v.rounded)
    (hq : ∀ v, q v → q v.rounded) : s.rounded.Within p q where
  items tenant id i hi := by
    rw [item?_rounded] at hi
    obtain ⟨stored, hstored, rfl⟩ := Option.map_eq_some_iff.1 hi
    exact (h.items tenant id stored hstored).map hp
  shelves tenant item := shelf_rounded s tenant item ▸ (h.shelves tenant item).rounded hq

theorem Fits.rounded (h : s.Fits) : s.rounded.Fits :=
  within_isValue.1 ((within_isValue.2 h).rounded (fun _ => .rounded) fun _ => .rounded)

end Store

/-! ### What is read back -/

namespace Store

variable {s : Store}

/-- **A store is read back from its text with its numbers rounded**, if its document is not too deep; else
nothing is. -/
theorem parse?_toText (h : s.Fits) : parse? s.toText = upTo s.toJson.depth s.rounded := by
  rw [parse?, toText, Json.parse?_toTextIn _ h.fits_toJson, Option.bind_some, toJson_rounded,
    h.rounded.roundTrips 0 (Nat.zero_le _), Nat.zero_add, depth_toJson_rounded]

end Store

/-! ### Steady values -/

theorem Keyed.All.map_rounded_eq_self {t : Keyed Json} (h : t.All Json.IsSteady) :
    t.map Json.rounded = t :=
  map_eq_self fun k v hv => (h k v hv).steady

theorem Content.rounded_eq_self {c : Content} (h : c.properties.All Json.IsSteady) :
    c.rounded = c := by
  rw [rounded, h.map_rounded_eq_self]

theorem SharedCopy.rounded_eq_self {s : SharedCopy}
    (h : ∀ e ∈ s.entries, e.content.properties.All Json.IsSteady) : s.rounded = s := by
  have hentries : s.entries.map Entry.rounded = s.entries := by
    rw [List.map_congr_left fun e he => ?_, List.map_id]
    rw [Entry.rounded, Content.rounded_eq_self (h e he)]
    rfl
  rw [rounded, hentries]

theorem WorkingCopy.rounded_eq_self {c : WorkingCopy}
    (h : c.content.properties.All Json.IsSteady) : c.rounded = c := by
  rw [rounded, Content.rounded_eq_self h]

theorem Shelf.Within.rounded_eq_self {s : Shelf} (h : s.Within Json.IsSteady) : s.rounded = s := by
  have hshared : s.shared.map SharedCopy.rounded = s.shared :=
    Keyed.map_eq_self fun version shared hshared =>
      SharedCopy.rounded_eq_self (forall_entries_iff.1 h.entries version shared hshared)
  have hcopies : s.copies.map (Keyed.map WorkingCopy.rounded) = s.copies :=
    Keyed.map_eq_self fun user copies hcopies => Keyed.map_eq_self fun version c hc =>
      WorkingCopy.rounded_eq_self (forall_copies_iff.1 h.copies user copies hcopies version c hc)
  rw [Shelf.rounded, hshared, hcopies]

theorem Item.rounded_eq_self {i : Item} (h : i.properties.All Json.IsSteady) : i.rounded = i := by
  rw [rounded, h.map_rounded_eq_self]

/-- **A store of steady values is read back as it was.** -/
theorem Store.Within.rounded_eq_self {s : Store} (h : s.Within Json.IsSteady Json.IsSteady) :
    s.rounded = s := by
  have htenants : s.tenants.map Tenant.rounded = s.tenants := by
    refine Keyed.map_eq_self fun name t ht => ?_
    have hitems : t.items.map Item.rounded = t.items :=
      Keyed.map_eq_self fun id i hi => Item.rounded_eq_self (forall_items_iff.1 h.items name t ht id i hi)
    have hshelves : t.shelves.map Shelf.rounded = t.shelves :=
      Keyed.map_eq_self fun item shelf hshelf =>
        ((forall_shelves_iff Shelf.within_empty).1 h.shelves name t ht item shelf hshelf).rounded_eq_self
    change t.rounded = t
    rw [Tenant.rounded, hitems, hshelves]
  rw [Store.rounded, htenants]

/-- A store of whole numbers and numbers of few digits is steady. -/
theorem Store.Fits.isSteady_of_isExact {s : Store} (h : s.Fits)
    (hexact : s.Within (·.isExact = true) (·.isExact = true)) :
    s.Within Json.IsSteady Json.IsSteady where
  items tenant id i hi k v hv :=
    ⟨h.items tenant id i hi k v hv, Json.rounded_of_isExact (hexact.items tenant id i hi k v hv)⟩
  shelves tenant item :=
    { entries := fun version e he k v hv =>
        ⟨(h.shelves tenant item).entries version e he k v hv,
          Json.rounded_of_isExact ((hexact.shelves tenant item).entries version e he k v hv)⟩
      copies := fun user version c hc k v hv =>
        ⟨(h.shelves tenant item).copies user version c hc k v hv,
          Json.rounded_of_isExact ((hexact.shelves tenant item).copies user version c hc k v hv)⟩ }

theorem Keyed.All.isSteady_of_map {t : Keyed Json} (h : t.All Json.IsValue)
    (hsame : t.map Json.rounded = t) : t.All Json.IsSteady := by
  intro k v hv
  have hget := get?_map Json.rounded t k
  rw [hsame, hv, Option.map_some] at hget
  exact ⟨h k v hv, (Option.some.inj hget).symm⟩

theorem Content.Fits.isSteady_of_rounded {c : Content} (h : c.Fits) (hsame : c.rounded = c) :
    c.properties.All Json.IsSteady :=
  Keyed.All.isSteady_of_map h (congrArg properties hsame)

theorem Shelf.Fits.within_of_rounded {s : Shelf} (h : s.Fits) (hsame : s.rounded = s) :
    s.Within Json.IsSteady where
  entries version e he := by
    have hentries := entries_rounded s version
    rw [hsame, ← List.map_id (s.entries version), List.map_map] at hentries
    have he' := List.map_inj_left.1 hentries e he
    exact (h.entries version e he).isSteady_of_rounded (congrArg Entry.content he').symm
  copies user version c hc := by
    have hget := copy?_rounded s user version
    rw [hsame, hc, Option.map_some] at hget
    have hc' := congrArg WorkingCopy.content (Option.some.inj hget)
    exact (h.copies user version c hc).isSteady_of_rounded hc'.symm

/-- **No other store is read back as it was.** -/
theorem Store.Fits.rounded_eq_self_iff {s : Store} (h : s.Fits) :
    s.rounded = s ↔ s.Within Json.IsSteady Json.IsSteady := by
  refine ⟨fun hsame => ⟨fun tenant id i hi => ?_, fun tenant item => ?_⟩, fun hs => hs.rounded_eq_self⟩
  · have hget := item?_rounded s tenant id
    rw [hsame, hi, Option.map_some] at hget
    have hproperties := congrArg Item.properties (Option.some.inj hget)
    exact Keyed.All.isSteady_of_map (h.items tenant id i hi) hproperties.symm
  · have hshelf := shelf_rounded s tenant item
    rw [hsame] at hshelf
    exact (h.shelves tenant item).within_of_rounded hshelf.symm

end VersionCatalog
