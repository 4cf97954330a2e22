import VersionCatalog.Proofs.Arrangements
import VersionCatalog.Proofs.Legibility

/-!
# The format of a store

What is written of a store is read back as the same store, but for its numbers of double precision, also if
its document is laid out otherwise and if the fields of its records and the entries of its tables stand in
another order. This is so because the documents that are written are readable and unambiguous
(`Json.IsClear`), and such a document is read as its canonical form is.

## Main results

* `Store.Fits.isClear_toJson`: what is written of a store is readable and unambiguous.
* `Store.text_round_trips`: what is written of a store is read back.
-/

namespace VersionCatalog

open Json (maxDepth)

/-! ### Documents that are written -/

namespace Json

/-- A document that is readable and unambiguous. -/
structure IsClear (j : Json) : Prop where
  readable : j.isReadable = true
  unambiguous : j.isUnambiguous = true

variable {xs : List Json} {fields : List (String × Json)}

theorem isClear_list_iff : (list xs).IsClear ↔ ∀ x ∈ xs, x.IsClear := by
  constructor
  · rintro ⟨hread, h⟩ x hx
    rw [isReadable, readableItems_iff] at hread
    exact ⟨hread x hx, isUnambiguous_list_iff.1 h x hx⟩
  · intro h
    refine ⟨?_, isUnambiguous_list_iff.2 fun x hx => (h x hx).unambiguous⟩
    rw [isReadable, readableItems_iff]
    exact fun x hx => (h x hx).readable

theorem isClear_record_iff :
    (record fields).IsClear ↔ (fields.map (·.1)).Nodup ∧ ∀ e ∈ fields, e.2.IsClear := by
  constructor
  · rintro ⟨hread, h⟩
    rw [isReadable, readableFields_iff] at hread
    obtain ⟨hnodup, h⟩ := isUnambiguous_record_iff.1 h
    exact ⟨hnodup, fun e he => ⟨hread e he, h e he⟩⟩
  · rintro ⟨hnodup, h⟩
    refine ⟨?_, isUnambiguous_record_iff.2 ⟨hnodup, fun e he => (h e he).unambiguous⟩⟩
    rw [isReadable, readableFields_iff]
    exact fun e he => (h e he).readable

@[simp] theorem isClear_text (s : String) : (text s).IsClear := ⟨rfl, rfl⟩

@[simp] theorem isClear_bool (b : Bool) : (bool b).IsClear := ⟨rfl, rfl⟩

@[simp] theorem isClear_int (n : Int) : (int n).IsClear := ⟨rfl, rfl⟩

@[simp] theorem isClear_textOrNull (s : Option String) : (textOrNull s).IsClear := by
  cases s <;> exact ⟨rfl, rfl⟩

theorem IsValue.isClear {v : Json} (h : v.IsValue) : v.IsClear where
  readable := h.readable
  unambiguous := by
    rw [← h.canonical]
    exact isUnambiguous_canonical v

end Json

@[simp] theorem Instant.isClear_toJson (t : Option Instant) : (Instant.toJson t).IsClear :=
  Json.isClear_textOrNull _

namespace Keyed.All

variable {α : Type}

theorem isClear_toJson {write : α → Json} {t : Keyed α}
    (h : t.All fun x => (write x).IsClear) : (t.toJson write).IsClear := by
  refine Json.isClear_record_iff.2 ⟨?_, ?_⟩
  · rw [List.map_map]
    exact t.nodup_keys
  · rw [List.forall_mem_map]
    exact fun e he => h e.1 e.2 (Keyed.get?_eq_some_iff.2 he)

theorem isClear_record {t : Keyed Json} (h : t.All Json.IsValue) :
    (Json.record t.entries).IsClear :=
  Json.isClear_record_iff.2 ⟨t.nodup_keys, fun e he =>
    (h e.1 e.2 (Keyed.get?_eq_some_iff.2 he)).isClear⟩

end Keyed.All

theorem Content.Fits.isClear_toJson {c : Content} (h : c.Fits) :
    c.toJson.IsClear := by
  simp [Content.toJson, Content.jsonFields, Json.isClear_record_iff,
    Keyed.All.isClear_record h]

theorem Entry.isClear_toJson {e : Entry} (h : e.content.Fits) :
    e.toJson.IsClear := by
  simp [Entry.toJson, Revision.toJson, Json.isClear_record_iff, h.isClear_toJson]

theorem SharedCopy.isClear_toJson {s : SharedCopy} (h : ∀ e ∈ s.entries, e.content.Fits) :
    s.toJson.IsClear := by
  have hentries : (Json.list (s.entries.map Entry.toJson)).IsClear := by
    rw [Json.isClear_list_iff, List.forall_mem_map]
    exact fun e he => Entry.isClear_toJson (h e he)
  simp [SharedCopy.toJson, Json.isClear_record_iff, hentries]

theorem WorkingCopy.isClear_toJson {c : WorkingCopy} (h : c.content.Fits) :
    c.toJson.IsClear := by
  simp [WorkingCopy.toJson, Json.isClear_record_iff, h.isClear_toJson]

theorem Shelf.Fits.isClear_toJson {s : Shelf} (h : s.Fits) : s.toJson.IsClear := by
  have hshared : (s.shared.toJson SharedCopy.toJson).IsClear :=
    Keyed.All.isClear_toJson fun version shared hshared =>
      SharedCopy.isClear_toJson (h.shared version shared hshared)
  have hcopies : (s.copies.toJson (Keyed.toJson WorkingCopy.toJson)).IsClear :=
    Keyed.All.isClear_toJson fun user copies hcopies =>
      Keyed.All.isClear_toJson fun version c hc =>
        WorkingCopy.isClear_toJson (h.copy user copies hcopies version c hc)
  simp [Shelf.toJson, Json.isClear_record_iff, hshared, hcopies]

theorem Tally.isClear_toJson (t : Tally) : t.toJson.IsClear := by
  obtain ⟨draft, certified⟩ := t
  cases draft <;> cases certified <;>
    simp [Tally.toJson, Tally.get?, VersionStatus.name, Json.isClear_record_iff]

theorem Item.Fits.isClear_toJson {i : Item} (h : i.Fits) : i.toJson.IsClear := by
  simp [Item.toJson, Json.isClear_record_iff, Keyed.All.isClear_record h,
    i.tally.isClear_toJson]

/-- **What is written of a store is readable and unambiguous.** -/
theorem Store.Fits.isClear_toJson {s : Store} (h : s.Fits) :
    s.toJson.IsClear := by
  have htenants : (s.tenants.toJson Tenant.toJson).IsClear := by
    refine Keyed.All.isClear_toJson fun name t ht => ?_
    have hitems : (t.items.toJson Item.toJson).IsClear :=
      Keyed.All.isClear_toJson fun id i hi => (h.item ht id i hi).isClear_toJson
    have hshelves : (t.shelves.toJson Shelf.toJson).IsClear :=
      Keyed.All.isClear_toJson fun item shelf hshelf =>
        (h.shelf ht item shelf hshelf).isClear_toJson
    simp [Tenant.toJson, Json.isClear_record_iff, hitems, hshelves]
  simp [Store.toJson, Json.isClear_record_iff, htenants]

namespace Store

/-- A text has the document of a store in it, in whatever layout, and with the fields of each record and the
entries of each table in whatever order. -/
def IsWrittenIn (s : Store) (text : String) : Prop :=
  ∃ j, Json.parse? text = some j ∧ j.isUnambiguous = true ∧ j.canonical = s.toJson.canonical

variable {s : Store}

/-- What is written of a store is read back, in whatever layout and order it was written. -/
theorem parse?_of_isWrittenIn (hfits : s.Fits) (hdepth : s.toJson.depth ≤ maxDepth) {text : String}
    (h : s.IsWrittenIn text) : parse? text = some s := by
  obtain ⟨j, hj, hunambiguous, hcanonical⟩ := h
  have hclear := hfits.isClear_toJson
  have hself : ofJson? s.toJson = some s := by
    have hread := hfits.roundTrips 0 (Nat.zero_le _)
    rwa [Nat.zero_add, upTo_of_le hdepth,
      Json.reread_eq_self _ hclear.readable (by omega)] at hread
  calc parse? text = ofJson? j := by rw [parse?, hj, Option.bind_some]
    _ = ofJson? s.toJson.canonical := by rw [← hcanonical, readsCanonical_ofJson? j hunambiguous]
    _ = ofJson? s.toJson := readsCanonical_ofJson? _ hclear.unambiguous
    _ = some s := hself

/-- How a store comes back from the texts that it is written in. -/
structure ReadsBack (s : Store) : Prop where
  /-- Its numbers are rounded. -/
  rounded : parse? s.toText = some s.rounded
  /-- It comes back as it was exactly if each of its values does. -/
  same_iff : parse? s.toText = some s ↔ s.Within Json.IsSteady Json.IsSteady
  /-- So it does if its numbers are whole or have few digits. -/
  exact : s.Within (·.isExact = true) (·.isExact = true) → parse? s.toText = some s
  /-- Layout and order make no difference. -/
  arranged : ∀ text, s.IsWrittenIn text → parse? text = some s

/-- **The format of a store loses nothing but the last digits of numbers.** A store whose property values a
document can keep, and whose document is not too deep, is read back from its text with its numbers rounded;
so it comes back just as it was if each of its numbers is whole or has few digits, and in general exactly if
none of its values is changed when it is written and read. It is the same with what is read of any text. And a
store is read from every text that it is written in, in whatever layout and order. -/
theorem text_round_trips (s : Store) :
    (s.Fits → s.toJson.depth ≤ maxDepth → s.ReadsBack) ∧
      ∀ text : String, parse? text = some s → s.ReadsBack := by
  have hkept : s.Fits → s.toJson.depth ≤ maxDepth → s.ReadsBack := by
    intro hfits hdepth
    have hrounded : parse? s.toText = some s.rounded := by rw [parse?_toText hfits, upTo_of_le hdepth]
    have hsame : parse? s.toText = some s ↔ s.Within Json.IsSteady Json.IsSteady := by
      rw [hrounded, Option.some.injEq, hfits.rounded_eq_self_iff]
    refine ⟨hrounded, hsame, fun hexact => hsame.2 ?_, fun text h => parse?_of_isWrittenIn hfits hdepth h⟩
    exact hfits.isSteady_of_isExact hexact
  refine ⟨hkept, fun text h => ?_⟩
  obtain ⟨hfits, hshallow⟩ := fits_and_shallow_of_parse? h
  exact hkept hfits (depth_toJson_le_iff.2 hshallow)

/-- The last moment of a year, in its leap second. -/
def leapSecond : Instant :=
  ⟨⟨2016, 12, 31, by omega, by omega, by decide⟩, 86399, 1999999999, by omega, by omega, by omega⟩

/-- An item is made that counts no draft, with a property of lists in one another; then a version of it that is
not published, and what another tenant does makes nothing but empty tables. -/
def oddHistory : List (Event Operation) :=
  [⟨⟨"i1", "", "", leapSecond⟩, ⟨"alice", "acme"⟩,
      .store (.createItem { Item.blank.setProperty "p" (Json.nested 3) with tally := ⟨some 0, none⟩ })⟩,
    ⟨⟨"", "v1", "", noon⟩, ⟨"alice", "acme"⟩, .store (.createVersion "i1" Version.blank)⟩,
    ⟨⟨"", "", "", noon⟩, ⟨"bob", "acme"⟩, .store (.sync "i1" "v2")⟩,
    ⟨⟨"", "", "", noon⟩, ⟨"bob", "other"⟩, .store (.sync "i1" "v1")⟩]

/-- A document with an unknown field, in which a tenant's tables are missing. -/
def sparseText : String :=
  "\x7b\"tenants\": \x7b\"acme\": \x7b\"extra\": [1.5]\x7d\x7d\x7d"

/-- The same with the tables, in the other order than they are written in. -/
def fullText : String :=
  "\x7b \"tenants\" : \x7b \"acme\" : \x7b \"versions\" : \x7b\x7d, \"items\" : \x7b\x7d \x7d \x7d \x7d"

/-- An item with a number of double precision. -/
def numberText : String :=
  "\x7b\"tenants\": \x7b\"acme\": \x7b\"items\": \x7b\"i1\": \x7b" ++
    "\"id\": \"i1\", \"type\": \"vsp\", \"name\": \"n\", \"properties\": \x7b\"p\": 5e32\x7d" ++
    "\x7d\x7d\x7d\x7d\x7d"

/-- The store that is left has a count of zero, a time of nanoseconds in a leap second, a copy that was never
published, and empty tables, and all of it comes back. A text that says less than is written, and one that
is arranged otherwise, both stand for the tenant without items. And the number 5e32 is written with digits that
are read as another number. -/
theorem odd_store_round_trips :
    let s := Platform.memory.after .empty oddHistory
    let t := empty.putTenant "acme" .empty
    (parse? s.toText = some s ∧ parse? t.toText = some t ∧ parse? fullText = some t) ∧
      ∃ u, parse? numberText = some u ∧ parse? u.toText ≠ some u := by
  intro s t
  have hhistory : ∀ {value : Json → Prop}, value (Json.nested 3) →
      ∀ e ∈ oddHistory, e.request.properties.All value := by
    intro value hvalue e he
    have hitem : (Item.blank.setProperty "p" (Json.nested 3)).properties.All value :=
      .insert .empty hvalue
    simp only [oddHistory, List.mem_cons, List.not_mem_nil, or_false] at he
    rcases he with rfl | rfl | rfl | rfl
    · exact hitem
    · exact .empty
    · exact .empty
    · exact .empty
  have hfits : s.Fits := Platform.fits_after (hhistory (Json.isValue_nested 3)) fits_empty
  have hvalues : ∀ e ∈ oddHistory, e.request.properties.All (·.isExact = true) := hhistory rfl
  have hexact : s.Within (·.isExact = true) (·.isExact = true) :=
    Platform.within_after hvalues within_empty
  have hdepth : s.toJson.depth ≤ maxDepth := by decide +kernel
  have hsparse : parse? sparseText = some t := by decide +kernel
  have hfull : t.IsWrittenIn fullText :=
    ⟨.record [("tenants", .record [("acme", .record [("versions", .record []), ("items", .record [])])])],
      by decide +kernel, by decide +kernel, by decide +kernel⟩
  have hsteady : t.rounded = t := by decide +kernel
  have hagain := (text_round_trips t).2 sparseText hsparse
  have hnumber : (parse? numberText).any (fun u => u.rounded ≠ u) = true := by decide +kernel
  obtain ⟨u, hu, hchanged⟩ := (Option.any_eq_true _ _).1 hnumber
  refine ⟨⟨((text_round_trips s).1 hfits hdepth).exact hexact, ?_, hagain.arranged fullText hfull⟩, u, hu, ?_⟩
  · rw [hagain.rounded, hsteady]
  · rw [((text_round_trips u).2 numberText hu).rounded]
    simpa using hchanged

end Store

end VersionCatalog
