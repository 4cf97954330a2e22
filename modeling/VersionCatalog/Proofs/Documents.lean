import VersionCatalog.Proofs.Instants
import VersionCatalog.Proofs.Rereading
import VersionCatalog.Proofs.Shelves
import VersionCatalog.Store.Document

/-!
# Documents that are read back

A store's document is read back as the same store, and so is every part of it. Deep property values are
the only thing that may stand in the way: a part whose document comes to stand too deep is not read at all
(`RoundTrips`).

## Main results

* `RoundTrips.record`, `RoundTrips.list`, `RoundTrips.keyed`: how a whole is read back from its parts.
* `Store.Fits.roundTrips`: a store is read back from its document, if that is not too deep.
-/

namespace VersionCatalog

open Json (maxDepth reread rereadItems rereadFields)

/-! ### Values -/

/-- What may be the value of a property. A reader of documents makes nothing else of one: the value is
readable, in canonical form, and its numbers are in range. -/
structure Json.IsValue (j : Json) : Prop where
  readable : j.isReadable = true
  canonical : j.canonical = j
  fits : j.fits = true

/-- What is there if it stands at most `maxDepth` deep. -/
def upTo {α : Type} (depth : Nat) (x : α) : Option α :=
  if depth ≤ maxDepth then some x else none

section

variable {α β : Type} {depth : Nat}

theorem upTo_of_le (h : depth ≤ maxDepth) (x : α) : upTo depth x = some x := if_pos h

theorem upTo_of_lt (h : maxDepth < depth) (x : α) : upTo depth x = none := if_neg (by omega)

@[simp] theorem map_upTo (f : α → β) (x : α) : (upTo depth x).map f = upTo depth (f x) := by
  rw [upTo, upTo]
  split <;> rfl

@[simp] theorem upTo_bind_some (f : α → β) (x : α) :
    ((upTo depth x).bind fun x => some (f x)) = upTo depth (f x) := by
  rw [upTo, upTo]
  split <;> rfl

/-- Of two things the deeper one decides. -/
@[simp] theorem upTo_bind_upTo (depth' : Nat) (f : α → β) (x : α) :
    ((upTo depth x).bind fun x => upTo depth' (f x)) = upTo (max depth depth') (f x) := by
  by_cases h : depth ≤ maxDepth
  · rw [upTo_of_le h, Option.bind_some, upTo, upTo]
    simp only [Nat.max_le, h, true_and]
  · rw [upTo_of_lt (by omega), upTo_of_lt (by omega)]
    rfl

end

/-- The document that `write` makes of something is read as the same again, unless it stands too deep in
others; then it is not read. -/
def RoundTrips {α : Type} (read : Json → Option α) (write : α → Json) (x : α) : Prop :=
  ∀ n ≤ maxDepth, read (reread n (write x)) = upTo (n + (write x).depth) x

/-- A value of a property is read back. -/
theorem Json.IsValue.roundTrips {v : Json} (h : v.IsValue) : RoundTrips Json.value? id v := by
  intro n hn
  change Json.value? (reread n v) = upTo (n + v.depth) v
  by_cases hdepth : n + v.depth ≤ maxDepth
  · rw [upTo_of_le hdepth, Json.reread_eq_self v h.readable hdepth, Json.value?,
      if_pos h.readable, h.canonical]
  · rw [upTo_of_lt (by omega), Json.value?, Json.isReadable_reread_of_lt v hn (by omega)]
    rfl

/-- A record is read back if it is from what comes back of its fields. -/
theorem RoundTrips.record {α : Type} {read : Json → Option α} {write : α → Json} {x : α}
    {fields : List (String × Json)} (hwrite : write x = .record fields)
    (hnone : read .unreadable = none)
    (hfields : ∀ n ≤ maxDepth,
      read (.record (rereadFields n fields)) = upTo (n + Json.depthFields fields) x) :
    RoundTrips read write x := by
  intro n hn
  rw [hwrite, reread, Json.depth]
  by_cases hlt : n < maxDepth
  · rw [if_pos hlt, hfields (n + 1) hlt, Nat.add_assoc, Nat.add_comm 1]
  · rw [if_neg hlt, hnone, upTo_of_lt (by omega)]

/-! ### Records -/

namespace Json

/-- All fields of a record are known if its names are the known ones. -/
theorem fields?_record {names : List String} {fields : List (String × Json)}
    (hnames : fields.map (·.1) = names) (hnodup : names.Nodup) :
    fields? names (.record fields) = some ⟨false, fields⟩ := by
  have hknown : (fields.filter fun e => names.contains e.1) = fields := by
    rw [List.filter_eq_self]
    rintro ⟨k, x⟩ hmem
    rw [List.contains_iff_mem, ← hnames]
    exact List.mem_map_of_mem hmem
  unfold fields?
  simp only [hknown, hnames, hnodup, if_true]

theorem names_rereadFields (n : Nat) (fields : List (String × Json)) :
    (rereadFields n fields).map (·.1) = fields.map (·.1) := by
  induction fields with
  | nil => rfl
  | cons e fields ih =>
      obtain ⟨k, x⟩ := e
      rw [rereadFields, List.map_cons, List.map_cons, ih]

@[simp] theorem text?_reread (n : Nat) (s : String) : text? (reread n (.text s)) = some s := by
  rw [reread]
  rfl

@[simp] theorem bool?_reread (n : Nat) (b : Bool) : bool? (reread n (.bool b)) = some b := by
  rw [reread]
  rfl

@[simp] theorem word?_reread {α : Type} (read : String → Option α) (n : Nat) (s : String) :
    word? read (reread n (.text s)) = read s := by
  rw [reread]
  rfl

@[simp] theorem optional?_text?_reread (n : Nat) (s : Option String) :
    optional? text? (reread n (textOrNull s)) = some s := by
  cases s with
  | none =>
      rw [textOrNull, reread]
      rfl
  | some s =>
      rw [textOrNull, reread]
      rfl

@[simp] theorem depth_textOrNull (s : Option String) : (textOrNull s).depth = 0 := by
  cases s <;> rfl

end Json

@[simp] theorem Instant.ofJson?_reread (n : Nat) (t : Instant) :
    Instant.ofJson? (reread n (.text t.toText)) = some t := by
  rw [reread]
  exact Instant.parse?_toText t

@[simp] theorem Instant.optional?_reread (n : Nat) (t : Option Instant) :
    Json.optional? Instant.ofJson? (reread n (Instant.toJson t)) = some t := by
  cases t with
  | none =>
      rw [Instant.toJson, Option.map_none, Json.textOrNull, reread]
      rfl
  | some t =>
      rw [Instant.toJson, Option.map_some, Json.textOrNull, reread]
      exact congrArg (Option.map some) (Instant.parse?_toText t)

@[simp] theorem Instant.depth_toJson (t : Option Instant) : (Instant.toJson t).depth = 0 :=
  Json.depth_textOrNull _

/-! ### Tables and lists -/

namespace RoundTrips

variable {α : Type} {read : Json → Option α} {write : α → Json}

theorem items {xs : List α} (h : ∀ x ∈ xs, RoundTrips read write x) {n : Nat} (hn : n ≤ maxDepth) :
    (rereadItems n (xs.map write)).mapM read = upTo (n + Json.depthItems (xs.map write)) xs := by
  induction xs with
  | nil => rw [List.map_nil, Json.depthItems, Nat.add_zero, upTo_of_le hn]; rfl
  | cons x xs ih =>
      obtain ⟨hx, hxs⟩ := List.forall_mem_cons.1 h
      rw [List.map_cons, rereadItems, List.mapM_cons, hx n hn, ih hxs, Json.depthItems]
      simp only [Option.bind_eq_bind, Option.pure_def, upTo_bind_some, upTo_bind_upTo,
        Nat.add_max_add_left]

theorem fields {l : List (String × α)} (h : ∀ e ∈ l, RoundTrips read write e.2) {n : Nat}
    (hn : n ≤ maxDepth) :
    (rereadFields n (l.map fun (k, x) => (k, write x))).mapM
        (fun (k, j) => (read j).map fun x => (k, x))
      = upTo (n + Json.depthFields (l.map fun (k, x) => (k, write x))) l := by
  induction l with
  | nil => rw [List.map_nil, Json.depthFields, Nat.add_zero, upTo_of_le hn]; rfl
  | cons e l ih =>
      obtain ⟨k, x⟩ := e
      obtain ⟨hx, hl⟩ := List.forall_mem_cons.1 h
      have hx : read (reread n (write x)) = upTo (n + (write x).depth) x := hx n hn
      rw [List.map_cons, rereadFields, List.mapM_cons, ih hl, Json.depthFields]
      simp only [hx, map_upTo, Option.bind_eq_bind, Option.pure_def, upTo_bind_some,
        upTo_bind_upTo, Nat.add_max_add_left]

/-- A list is read back if its items are. -/
theorem list {xs : List α} (h : ∀ x ∈ xs, RoundTrips read write x) :
    RoundTrips (Json.list? read) (fun xs => .list (xs.map write)) xs := by
  intro n hn
  rw [reread, Json.depth]
  by_cases hlt : n < maxDepth
  · rw [if_pos hlt, Json.list?, items h (n := n + 1) hlt, Nat.add_assoc, Nat.add_comm 1]
  · rw [if_neg hlt, upTo_of_lt (by omega)]
    rfl

/-- A table is read back if its values are. -/
theorem keyed {t : Keyed α} (h : t.All (RoundTrips read write)) :
    RoundTrips (Json.keyed? read) (Keyed.toJson write) t := by
  refine record rfl rfl fun n hn => ?_
  have hentries : ∀ e ∈ t.entries, RoundTrips read write e.2 :=
    fun e he => h e.1 e.2 (Keyed.get?_eq_some_iff.2 he)
  rw [Json.keyed?, fields hentries hn]
  simp only [Option.bind_eq_bind, Option.pure_def, upTo_bind_some, Keyed.ofList_entries]

end RoundTrips

/-- Property values are read back. -/
theorem Keyed.All.roundTrips {t : Keyed Json} (h : t.All Json.IsValue) :
    RoundTrips (Json.keyed? Json.value?) (fun t => .record t.entries) t := by
  have hwrite : (fun t : Keyed Json => Json.record t.entries) = Keyed.toJson id := by
    funext t
    simp [Keyed.toJson]
  rw [hwrite]
  exact .keyed fun k x hx => (h k x hx).roundTrips

/-! ### Places and tables

What is true of all places of a store is true of all entries of its tables. -/

theorem Shelf.forall_entries_iff {s : Shelf} {P : Entry → Prop} :
    (∀ version, ∀ e ∈ s.entries version, P e) ↔
      s.shared.All fun shared => ∀ e ∈ shared.entries, P e := by
  constructor
  · intro h version shared hshared e he
    exact h version e (by rw [entries, hshared]; exact he)
  · intro h version e he
    rw [entries] at he
    cases hshared : s.shared.get? version with
    | none => simp [hshared] at he
    | some shared =>
        rw [hshared] at he
        exact h version shared hshared e he

theorem Shelf.forall_copies_iff {s : Shelf} {P : WorkingCopy → Prop} :
    (∀ user version c, s.copy? user version = some c → P c) ↔ s.copies.All (Keyed.All P) := by
  constructor
  · intro h user copies hcopies version c hc
    exact h user version c (by rw [copy?, hcopies]; exact hc)
  · intro h user version c hc
    obtain ⟨copies, hcopies, hc⟩ := Option.bind_eq_some_iff.1 hc
    exact h user copies hcopies version c hc

theorem Store.forall_items_iff {s : Store} {P : Item → Prop} :
    (∀ tenant id i, s.item? tenant id = some i → P i) ↔ s.tenants.All fun t => t.items.All P := by
  constructor
  · intro h tenant t ht id i hi
    refine h tenant id i ?_
    rw [item?, Store.tenant, Keyed.getD_eq, ht]
    exact hi
  · intro h tenant id i hi
    rw [item?, Store.tenant, Keyed.getD_eq] at hi
    cases ht : s.tenants.get? tenant with
    | none => simp [ht, Tenant.empty] at hi
    | some t =>
        rw [ht] at hi
        exact h tenant t ht id i hi

theorem Store.forall_shelves_iff {s : Store} {P : Shelf → Prop} (hempty : P .empty) :
    (∀ tenant item, P (s.shelf tenant item)) ↔ s.tenants.All fun t => t.shelves.All P := by
  constructor
  · intro h tenant t ht item shelf hshelf
    have hplace : s.shelf tenant item = shelf := by
      rw [Store.shelf, Store.tenant, Keyed.getD_eq, ht]
      exact congrArg (·.getD Shelf.empty) hshelf
    exact hplace ▸ h tenant item
  · intro h tenant item
    rw [Store.shelf, Store.tenant, Keyed.getD_eq]
    cases ht : s.tenants.get? tenant with
    | none => exact hempty
    | some t =>
        cases hshelf : t.shelves.get? item with
        | none => simpa [hshelf] using hempty
        | some shelf => simpa [hshelf] using h tenant t ht item shelf hshelf

/-! ### The parts of a store -/

/-- Properties of a content have values that a document can keep. -/
def Content.Fits (c : Content) : Prop :=
  c.properties.All Json.IsValue

theorem Content.Fits.roundTrips {c : Content} (h : c.Fits) :
    RoundTrips Content.ofJson? Content.toJson c := by
  refine .record rfl rfl fun n hn => ?_
  have hproperties : Json.keyed? Json.value? (reread n (.record c.properties.entries)) = _ :=
    Keyed.All.roundTrips h n hn
  rw [ofJson?, Json.fields?_record (by rw [Json.names_rereadFields]; rfl) (by decide)]
  simp [jsonFields, rereadFields, Json.Fields.required, Json.Fields.optional, hproperties,
    Json.depthFields, Json.depth, List.lookup_cons]

/-- A record of a publication is read back. -/
theorem Revision.roundTrips (r : Revision) : RoundTrips Revision.ofJson? Revision.toJson r := by
  refine .record rfl rfl fun n hn => ?_
  rw [ofJson?, Json.fields?_record (by rw [Json.names_rereadFields]; rfl) (by decide)]
  simp [rereadFields, Json.Fields.required, Json.depthFields, Json.depth, List.lookup_cons,
    upTo_of_le hn]

theorem Entry.roundTrips {e : Entry} (h : e.content.Fits) :
    RoundTrips Entry.ofJson? Entry.toJson e := by
  refine .record rfl rfl fun n hn => ?_
  rw [ofJson?, Json.fields?_record (by rw [Json.names_rereadFields]; rfl) (by decide)]
  simp [rereadFields, Json.Fields.required, Json.depthFields, List.lookup_cons,
    e.revision.roundTrips n hn, h.roundTrips n hn]

theorem SharedCopy.roundTrips {s : SharedCopy} (h : ∀ e ∈ s.entries, e.content.Fits) :
    RoundTrips SharedCopy.ofJson? SharedCopy.toJson s := by
  refine .record rfl rfl fun n hn => ?_
  have hentries : Json.list? Entry.ofJson? (reread n (.list (s.entries.map Entry.toJson))) = _ :=
    RoundTrips.list (fun e he => Entry.roundTrips (h e he)) n hn
  rw [ofJson?, Json.fields?_record (by rw [Json.names_rereadFields]; rfl) (by decide)]
  simp [rereadFields, Json.Fields.required, Json.depthFields, hentries]

theorem WorkingCopy.roundTrips {c : WorkingCopy} (h : c.content.Fits) :
    RoundTrips WorkingCopy.ofJson? WorkingCopy.toJson c := by
  refine .record rfl rfl fun n hn => ?_
  rw [ofJson?, Json.fields?_record (by rw [Json.names_rereadFields]; rfl) (by decide)]
  simp [rereadFields, Json.Fields.required, Json.Fields.optional, Json.depthFields, Json.depth,
    List.lookup_cons, h.roundTrips n hn]

/-- The versions of an item have properties that a document can keep. -/
structure Shelf.Fits (s : Shelf) : Prop where
  entries : ∀ version, ∀ e ∈ s.entries version, e.content.Fits
  copies : ∀ user version c, s.copy? user version = some c → c.content.Fits

theorem Shelf.fits_empty : empty.Fits where
  entries _ _ he := by simp at he
  copies _ _ _ hc := by simp at hc

theorem Shelf.Fits.shared {s : Shelf} (h : s.Fits) :
    s.shared.All fun shared => ∀ e ∈ shared.entries, e.content.Fits :=
  forall_entries_iff.1 h.entries

theorem Shelf.Fits.copy {s : Shelf} (h : s.Fits) :
    s.copies.All (Keyed.All fun c => c.content.Fits) :=
  forall_copies_iff.1 h.copies

theorem Shelf.Fits.roundTrips {s : Shelf} (h : s.Fits) :
    RoundTrips Shelf.ofJson? Shelf.toJson s := by
  refine .record rfl rfl fun n hn => ?_
  have hshared : RoundTrips (Json.keyed? SharedCopy.ofJson?) (Keyed.toJson SharedCopy.toJson)
      s.shared :=
    .keyed fun version shared hshared => SharedCopy.roundTrips (h.shared version shared hshared)
  have hcopies : RoundTrips (Json.keyed? (Json.keyed? WorkingCopy.ofJson?))
      (Keyed.toJson (Keyed.toJson WorkingCopy.toJson)) s.copies :=
    .keyed fun user copies hcopies => .keyed fun version c hc =>
      WorkingCopy.roundTrips (h.copy user copies hcopies version c hc)
  rw [ofJson?, Json.fields?_record (by rw [Json.names_rereadFields]; rfl) (by decide)]
  simp [rereadFields, Json.Fields.withDefault, Json.depthFields, List.lookup_cons,
    hshared n hn, hcopies n hn]

/-- A count is a word of 32 bits, which is in range. -/
@[simp] theorem Tally.natUpTo?_reread (n : Nat) (k : UInt32) :
    Json.natUpTo? 4294967295 (reread n (.int k.toNat)) = some k.toNat := by
  have hlt := k.toNat_lt
  rw [reread, Json.natUpTo?, if_pos (by omega), Int.toNat_natCast]

/-- A tally is read back. -/
theorem Tally.roundTrips (t : Tally) : RoundTrips Tally.ofJson? Tally.toJson t := by
  refine .record rfl rfl fun n hn => ?_
  obtain ⟨draft, certified⟩ := t
  cases draft <;> cases certified <;>
    simp [ofJson?, Tally.get?, Tally.set, rereadFields, Json.depthFields, Json.depth,
      upTo_of_le hn, VersionStatus.ofName?_name, EmptyCollection.emptyCollection, Tally.empty]

/-- Properties of an item have values that a document can keep. -/
def Item.Fits (i : Item) : Prop :=
  i.properties.All Json.IsValue

theorem Item.Fits.roundTrips {i : Item} (h : i.Fits) :
    RoundTrips Item.ofJson? Item.toJson i := by
  refine .record rfl rfl fun n hn => ?_
  have hproperties : Json.keyed? Json.value? (reread n (.record i.properties.entries)) = _ :=
    Keyed.All.roundTrips h n hn
  rw [ofJson?, Json.fields?_record (by rw [Json.names_rereadFields]; rfl) (by decide)]
  simp [rereadFields, Json.Fields.required, Json.Fields.optional, Json.Fields.withDefault,
    hproperties, i.tally.roundTrips n hn, Json.depthFields, Json.depth, List.lookup_cons]

/-- All properties in a store have values that a document can keep. -/
structure Store.Fits (s : Store) : Prop where
  items : ∀ tenant id i, s.item? tenant id = some i → i.Fits
  shelves : ∀ tenant item, (s.shelf tenant item).Fits

theorem Store.fits_empty : Store.empty.Fits where
  items _ _ _ hi := by simp at hi
  shelves _ _ := Shelf.fits_empty

namespace Store.Fits

variable {s : Store} {name : String} {t : Tenant}

theorem item (h : s.Fits) (ht : s.tenants.get? name = some t) : t.items.All Item.Fits :=
  forall_items_iff.1 h.items name t ht

theorem shelf (h : s.Fits) (ht : s.tenants.get? name = some t) : t.shelves.All Shelf.Fits :=
  (forall_shelves_iff Shelf.fits_empty).1 h.shelves name t ht

theorem roundTrips_tenant (h : s.Fits) (ht : s.tenants.get? name = some t) :
    RoundTrips Tenant.ofJson? Tenant.toJson t := by
  refine .record rfl rfl fun n hn => ?_
  have hitems : RoundTrips (Json.keyed? Item.ofJson?) (Keyed.toJson Item.toJson) t.items :=
    .keyed fun id i hi => (h.item ht id i hi).roundTrips
  have hshelves : RoundTrips (Json.keyed? Shelf.ofJson?) (Keyed.toJson Shelf.toJson) t.shelves :=
    .keyed fun item shelf hshelf => (h.shelf ht item shelf hshelf).roundTrips
  rw [Tenant.ofJson?, Json.fields?_record (by rw [Json.names_rereadFields]; rfl) (by decide)]
  simp [rereadFields, Json.Fields.withDefault, Json.depthFields, List.lookup_cons,
    hitems n hn, hshelves n hn]

theorem roundTrips (h : s.Fits) : RoundTrips Store.ofJson? Store.toJson s := by
  refine .record rfl rfl fun n hn => ?_
  have htenants : RoundTrips (Json.keyed? Tenant.ofJson?) (Keyed.toJson Tenant.toJson) s.tenants :=
    .keyed fun name t ht => h.roundTrips_tenant ht
  rw [Store.ofJson?, Json.fields?_record (by rw [Json.names_rereadFields]; rfl) (by decide)]
  simp [rereadFields, Json.Fields.withDefault, Json.depthFields, htenants n hn]

end Store.Fits

/-! ### The numbers in a store's document -/

namespace Json

theorem fitsItems_iff {xs : List Json} : fitsItems xs = true ↔ ∀ x ∈ xs, x.fits = true := by
  induction xs with
  | nil => simp [fitsItems]
  | cons x xs ih => simp [fitsItems, ih]

theorem fitsFields_iff {fields : List (String × Json)} :
    fitsFields fields = true ↔ ∀ e ∈ fields, e.2.fits = true := by
  induction fields with
  | nil => simp [fitsFields]
  | cons e fields ih => simp [fitsFields, ih]

@[simp] theorem fits_record_nil : (record []).fits = true := rfl

@[simp] theorem fits_record_cons (k : String) (x : Json) (fields : List (String × Json)) :
    (record ((k, x) :: fields)).fits = (x.fits && (record fields).fits) := rfl

@[simp] theorem fits_text (s : String) : (text s).fits = true := rfl

@[simp] theorem fits_bool (b : Bool) : (bool b).fits = true := rfl

@[simp] theorem fits_textOrNull (s : Option String) : (textOrNull s).fits = true := by
  cases s <;> rfl

end Json

theorem Keyed.All.fits_toJson {α : Type} {write : α → Json} {t : Keyed α}
    (h : t.All fun x => (write x).fits = true) : (t.toJson write).fits = true := by
  rw [Keyed.toJson, Json.fits, Json.fitsFields_iff]
  simp only [List.mem_map]
  rintro e ⟨⟨k, x⟩, hmem, rfl⟩
  exact h k x (Keyed.get?_eq_some_iff.2 hmem)

theorem Keyed.All.fits_record {t : Keyed Json} (h : t.All Json.IsValue) :
    (Json.record t.entries).fits = true := by
  rw [Json.fits, Json.fitsFields_iff]
  exact fun e he => (h e.1 e.2 (Keyed.get?_eq_some_iff.2 he)).fits

@[simp] theorem Instant.fits_toJson (t : Option Instant) : (Instant.toJson t).fits = true :=
  Json.fits_textOrNull _

theorem Content.Fits.fits_toJson {c : Content} (h : c.Fits) : c.toJson.fits = true := by
  simp [Content.toJson, Content.jsonFields, Keyed.All.fits_record h]

theorem Entry.fits_toJson {e : Entry} (h : e.content.Fits) : e.toJson.fits = true := by
  simp [Entry.toJson, Revision.toJson, h.fits_toJson]

theorem SharedCopy.fits_toJson {s : SharedCopy} (h : ∀ e ∈ s.entries, e.content.Fits) :
    s.toJson.fits = true := by
  have hentries : ∀ j ∈ s.entries.map Entry.toJson, j.fits = true := by
    simp only [List.mem_map]
    rintro j ⟨e, he, rfl⟩
    exact Entry.fits_toJson (h e he)
  rw [SharedCopy.toJson, Json.fits_record_cons, Json.fits, Json.fitsItems_iff.2 hentries]
  rfl

theorem WorkingCopy.fits_toJson {c : WorkingCopy} (h : c.content.Fits) :
    c.toJson.fits = true := by
  simp [WorkingCopy.toJson, h.fits_toJson]

theorem Shelf.Fits.fits_toJson {s : Shelf} (h : s.Fits) : s.toJson.fits = true := by
  have hshared : (s.shared.toJson SharedCopy.toJson).fits = true :=
    Keyed.All.fits_toJson fun version shared hshared =>
      SharedCopy.fits_toJson (h.shared version shared hshared)
  have hcopies : (s.copies.toJson (Keyed.toJson WorkingCopy.toJson)).fits = true :=
    Keyed.All.fits_toJson fun user copies hcopies => Keyed.All.fits_toJson fun version c hc =>
      WorkingCopy.fits_toJson (h.copy user copies hcopies version c hc)
  simp [Shelf.toJson, hshared, hcopies]

theorem Tally.fits_toJson (t : Tally) : t.toJson.fits = true := by
  have hword : ∀ k : UInt32, (Json.int k.toNat).fits = true := by
    intro k
    have hlt := k.toNat_lt
    simp [Json.fits, fitsWord]
    omega
  obtain ⟨draft, certified⟩ := t
  cases draft <;> cases certified <;> simp [Tally.toJson, Tally.get?, hword]

theorem Item.Fits.fits_toJson {i : Item} (h : i.Fits) : i.toJson.fits = true := by
  simp [Item.toJson, Keyed.All.fits_record h, i.tally.fits_toJson]

theorem Store.Fits.fits_toJson {s : Store} (h : s.Fits) : s.toJson.fits = true := by
  have htenants : (s.tenants.toJson Tenant.toJson).fits = true := by
    refine Keyed.All.fits_toJson fun name t ht => ?_
    have hitems : (t.items.toJson Item.toJson).fits = true :=
      Keyed.All.fits_toJson fun id i hi => (h.item ht id i hi).fits_toJson
    have hshelves : (t.shelves.toJson Shelf.toJson).fits = true :=
      Keyed.All.fits_toJson fun item shelf hshelf => (h.shelf ht item shelf hshelf).fits_toJson
    simp [Tenant.toJson, hitems, hshelves]
  simp [Store.toJson, htenants]

end VersionCatalog
