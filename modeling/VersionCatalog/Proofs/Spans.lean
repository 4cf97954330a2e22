import Mathlib.Algebra.GroupWithZero.Nat
import Mathlib.Data.List.Forall2
import VersionCatalog.Proofs.Instants
import VersionCatalog.Span

/-!
# Spans that are read back

The human form of a span is read as exactly this span. The reader goes from part to part, and each part adds
what its number of units comes to (`Span.worth`) to the sum of those before it; nothing on the way is greater than
the span itself, so no word overflows even where the span is the longest one. The parts together come to the
whole span, however the months and years fall.

## Main results

* `Span.sum?_parts`: the written parts are added up one after another.
* `Span.foldlM_addCount?`: what adding them up comes to.
* `Span.sum_worth_parts`: the parts of a span come to the whole of it.
* `Span.parse?_toText`: the text of a span is read back.
-/

namespace VersionCatalog.Span

open Text

variable {s : Span} {sum : Nat × Nat} {n : Nat} {count : Count} {name : String} {rest : List Char}

/-! ### Reading one part -/

/-- What is read as nothing but a further letter of a unit's name. -/
def IsPlainLetter (c : Char) : Prop :=
  c.isDigit = false ∧ isBlank c = false ∧ isLetter c = true

instance (c : Char) : Decidable (IsPlainLetter c) :=
  inferInstanceAs (Decidable (_ ∧ _))

theorem le_ofDigitChars (cs : List Char) (k : Nat) : k ≤ Nat.ofDigitChars 10 cs k := by
  induction cs generalizing k with
  | nil => exact Nat.le_of_eq Nat.ofDigitChars_nil.symm
  | cons c cs ih =>
      rw [Nat.ofDigitChars_cons]
      exact Nat.le_trans (by omega) (ih _)

/-- A number's further digits are taken in, if the number is not too great in the end. -/
theorem sum?_digits {cs : List Char} (hcs : ∀ c ∈ cs, c.isDigit = true) {k : Nat}
    (hlt : Nat.ofDigitChars 10 cs k < 1 <<< 64) :
    sum? (.number ⟨k, none⟩) sum (cs ++ rest)
      = sum? (.number ⟨Nat.ofDigitChars 10 cs k, none⟩) sum rest := by
  induction cs generalizing k with
  | nil => rw [List.nil_append, Nat.ofDigitChars_nil]
  | cons c cs ih =>
      obtain ⟨hc, hcs⟩ := List.forall_mem_cons.1 hcs
      rw [Nat.ofDigitChars_cons] at hlt ⊢
      have hnext : k * 10 + digitValue c = 10 * k + (c.toNat - '0'.toNat) := by
        rw [Nat.mul_comm]
        rfl
      have hpush : Count.push? ⟨k, none⟩ (digitValue c)
          = some ⟨10 * k + (c.toNat - '0'.toNat), none⟩ := by
        rw [Count.push?, ← hnext]
        exact if_pos (Nat.lt_of_le_of_lt (hnext ▸ le_ofDigitChars ..) hlt)
      rw [List.cons_append, sum?, if_pos hc, hpush]
      exact ih hcs hlt

/-- A written number is read as the number. -/
theorem sum?_number (hn : n < 1 <<< 64) :
    sum? .start sum (digits n ++ rest) = sum? (.number ⟨n, none⟩) sum rest := by
  obtain ⟨c, cs, hdigits⟩ := List.exists_cons_of_ne_nil (digits_ne_nil n)
  obtain ⟨hc, hcs⟩ := List.forall_mem_cons.1 fun d (hd : d ∈ c :: cs) =>
    isDigit_of_mem_digits (hdigits.symm ▸ hd)
  have hvalue : Nat.ofDigitChars 10 cs (digitValue c) = n := by
    have hall := valueOf_digits n
    rw [hdigits, valueOf, Nat.ofDigitChars_cons, Nat.mul_zero, Nat.zero_add] at hall
    exact hall
  rw [hdigits, List.cons_append, sum?, if_pos hc, Count.ofDigit, sum?_digits hcs (hvalue.symm ▸ hn),
    hvalue]

/-- A unit's further letters are taken in. -/
theorem sum?_letters {cs : List Char} (hcs : ∀ c ∈ cs, IsPlainLetter c) (letters : List Char) :
    sum? (.unit count letters) sum (cs ++ rest)
      = sum? (.unit count (cs.reverse ++ letters)) sum rest := by
  induction cs generalizing letters with
  | nil => rfl
  | cons c cs ih =>
      obtain ⟨⟨hdigit, hblank, hletter⟩, hcs⟩ := List.forall_mem_cons.1 hcs
      rw [List.cons_append, sum?, if_neg (by simp [hdigit]), if_neg (by simp [hblank]), if_pos hletter,
        ih hcs, List.reverse_cons, List.append_assoc, List.singleton_append]

/-- A written part is read up to the end of its unit. -/
theorem sum?_part (hn : n < 1 <<< 64) (hne : name.toList ≠ []) (hname : ∀ c ∈ name.toList, IsPlainLetter c) :
    sum? .start sum (digits n ++ (name.toList ++ rest))
      = sum? (.unit ⟨n, none⟩ name.toList.reverse) sum rest := by
  obtain ⟨c, cs, hchars⟩ := List.exists_cons_of_ne_nil hne
  rw [hchars] at hname ⊢
  obtain ⟨⟨hdigit, hblank, hletter⟩, hcs⟩ := List.forall_mem_cons.1 hname
  have hcomplete : Count.isComplete ⟨n, none⟩ = true := rfl
  rw [sum?_number hn, List.cons_append, sum?, if_neg (by simp [hdigit]), if_neg (by simp [hblank]),
    if_pos hletter, if_pos hcomplete, sum?_letters hcs, List.reverse_cons]

theorem sum?_unit_nil : sum? (.unit count name.toList.reverse) sum [] = addCount? sum count name := by
  rw [sum?, List.reverse_reverse, String.ofList_toList]

theorem sum?_unit_blank : sum? (.unit count name.toList.reverse) sum (' ' :: rest)
    = (addCount? sum count name).bind fun sum => sum? .start sum rest := by
  have hdigit : ' '.isDigit = false := rfl
  have hblank : isBlank ' ' = true := rfl
  rw [sum?, if_neg (by simp [hdigit]), if_pos hblank, List.reverse_reverse, String.ofList_toList]
  cases addCount? sum count name <;> rfl

/-! ### Reading all parts -/

/-- What a number of units comes to, in nanoseconds. -/
def worth (part : Nat × String) : Nat :=
  part.1 * ((unit? part.2).elim 0 fun unit => unit.1 * 1000000000 + unit.2)

/-- The name of a unit in which it can be written. -/
structure IsUnit (name : String) (seconds nanos : Nat) : Prop where
  name_ne_nil : name.toList ≠ []
  letters : name.toList.all (IsPlainLetter ·) = true
  unit : unit? name = some (seconds, nanos)

theorem IsUnit.isPlainLetter {seconds nanos : Nat} (h : IsUnit name seconds nanos) :
    ∀ c ∈ name.toList, IsPlainLetter c :=
  fun c hc => of_decide_eq_true (List.all_eq_true.1 h.letters c hc)

/-- A number of some unit. Parts below a second do not come to one. -/
structure IsPart (part : Nat × String) (seconds nanos : Nat) : Prop where
  number_lt : part.1 < 1 <<< 64
  nanos_lt : part.1 * nanos < 1000000000
  isUnit : IsUnit part.2 seconds nanos

/-- A number with the name of a unit is read as a part of a span. -/
def IsReadable (part : Nat × String) : Prop :=
  ∃ seconds nanos, IsPart part seconds nanos

theorem worth_eq {seconds nanos : Nat} (h : IsUnit name seconds nanos) (n : Nat) :
    worth (n, name) = n * seconds * 1000000000 + n * nanos := by
  rw [worth, h.unit, Option.elim_some, Nat.mul_add, Nat.mul_assoc]

/-- A part as it is written. -/
def partText (part : Nat × String) : String :=
  String.ofList (digits part.1) ++ part.2

/-- The written parts are added up one after another. -/
theorem sum?_parts {parts : List (Nat × String)} (hne : parts ≠ []) (hparts : ∀ p ∈ parts, IsReadable p)
    (sum : Nat × Nat) : sum? .start sum (" ".intercalate (parts.map partText)).toList
      = parts.foldlM (fun sum p => addCount? sum ⟨p.1, none⟩ p.2) sum := by
  induction parts generalizing sum with
  | nil => exact absurd rfl hne
  | cons p parts ih =>
      obtain ⟨⟨seconds, nanos, hp⟩, hparts⟩ := List.forall_mem_cons.1 hparts
      have hread : ∀ rest, sum? .start sum (digits p.1 ++ (p.2.toList ++ rest)) = _ :=
        fun rest => sum?_part hp.number_lt hp.isUnit.name_ne_nil hp.isUnit.isPlainLetter
      rw [List.foldlM_cons]
      cases parts with
      | nil =>
          have htext : (" ".intercalate ([p].map partText)).toList = digits p.1 ++ (p.2.toList ++ []) := by
            simp [partText]
          rw [htext, hread, sum?_unit_nil]
          simp
      | cons q parts =>
          have htext : (" ".intercalate ((p :: q :: parts).map partText)).toList = digits p.1
              ++ (p.2.toList ++ ' ' :: (" ".intercalate ((q :: parts).map partText)).toList) := by
            simp [partText, String.toList_intercalate]
          rw [htext, hread, sum?_unit_blank]
          exact Option.bind_congr fun sum' _ => ih (by simp) hparts sum'

/-- A sum of nanoseconds as the reader keeps it. -/
def split (total : Nat) : Nat × Nat :=
  (total / 1000000000, total % 1000000000)

/-- A part adds what it comes to. -/
theorem addCount?_split {p : Nat × String} (hp : IsReadable p) {total : Nat}
    (hlt : total + worth p < (1 <<< 64) * 1000000000) :
    addCount? (split total) ⟨p.1, none⟩ p.2 = some (split (total + worth p)) := by
  obtain ⟨seconds, nanos, -, hnanos, hname⟩ := hp
  have hworth : worth p = p.1 * seconds * 1000000000 + p.1 * nanos := worth_eq hname p.1
  rw [hworth] at hlt ⊢
  generalize hx : p.1 * seconds = x at hlt ⊢
  generalize hy : p.1 * nanos = y at hlt hnanos ⊢
  have hfits : x < 1 <<< 64 ∧ y < 1 <<< 64 := by omega
  have hadd : add? (split total) x y = some (split (total + (x * 1000000000 + y))) := by
    have hsum : split (total + (x * 1000000000 + y))
        = ((split total).1 + x + ((split total).2 + y) / 1000000000,
          ((split total).2 + y) % 1000000000) := by
      simp only [split, Prod.mk.injEq]
      omega
    rw [hsum]
    refine if_pos ⟨?_, ?_⟩
    · simp only [split]
      omega
    · simp only [split]
      omega
  simp only [addCount?, hname.unit, Option.bind_eq_bind, Option.bind_some, hx, hy, if_pos hfits, hadd]

/-- What adding up parts comes to. -/
theorem foldlM_addCount? {parts : List (Nat × String)} (hparts : ∀ p ∈ parts, IsReadable p) {total : Nat}
    (hlt : total + (parts.map worth).sum < (1 <<< 64) * 1000000000) :
    parts.foldlM (fun sum p => addCount? sum ⟨p.1, none⟩ p.2) (split total)
      = some (split (total + (parts.map worth).sum)) := by
  induction parts generalizing total with
  | nil => rfl
  | cons p parts ih =>
      obtain ⟨hp, hparts⟩ := List.forall_mem_cons.1 hparts
      rw [List.map_cons, List.sum_cons, ← Nat.add_assoc] at hlt ⊢
      rw [List.foldlM_cons, addCount?_split hp (by omega)]
      exact ih hparts hlt

/-! ### The parts of a span -/

/-- The units that a span is written in, the largest first: what one of each comes to, in seconds and
nanoseconds. -/
def measures : List (Nat × Nat) :=
  [(yearSeconds, 0), (monthSeconds, 0), (86400, 0), (3600, 0), (60, 0), (1, 0), (0, 1000000), (0, 1000),
    (0, 1)]

/-- The parts of a span are in these units, and small enough to be read. -/
theorem parts_measured (s : Span) :
    List.Forall₂ (fun part measure => IsPart part measure.1 measure.2) s.parts measures := by
  have hseconds := s.seconds_lt
  have hnanos := s.nanos_lt
  have hplural : ∀ {unit : String} {seconds : Nat}, IsUnit unit seconds 0 →
      IsUnit (unit ++ "s") seconds 0 → ∀ n, IsUnit (if n = 1 then unit else unit ++ "s") seconds 0 := by
    intro unit seconds hone hmany n
    split
    · exact hone
    · exact hmany
  simp only [parts, measures, yearSeconds, monthSeconds, List.forall₂_cons, List.Forall₂.nil, and_true]
  refine ⟨?year, ?month, ?day, ?hour, ?minute, ?second, ?millisecond, ?microsecond, ?nanosecond⟩
  case year | month | day =>
    refine ⟨by omega, by omega, hplural ?_ ?_ _⟩ <;> exact ⟨by decide, by decide, rfl⟩
  case hour | minute | second | millisecond | microsecond | nanosecond =>
    refine ⟨by omega, by omega, ?_⟩
    dsimp only
    exact ⟨by decide, by decide, rfl⟩

/-- Such parts can be read. -/
theorem isReadable_of_measured {parts : List (Nat × String)} {measures : List (Nat × Nat)}
    (h : List.Forall₂ (fun part measure => IsPart part measure.1 measure.2) parts measures) :
    ∀ p ∈ parts, IsReadable p := by
  induction h with
  | nil => simp
  | cons hpart _ ih => exact List.forall_mem_cons.2 ⟨⟨_, _, hpart⟩, ih⟩

theorem sum_worth_cons {seconds nanos : Nat} (h : IsPart (n, name) seconds nanos)
    (parts : List (Nat × String)) : (((n, name) :: parts).map worth).sum
      = n * seconds * 1000000000 + n * nanos + (parts.map worth).sum := by
  rw [List.map_cons, List.sum_cons, worth_eq h.isUnit]

/-- **The parts of a span come to the whole of it.** -/
theorem sum_worth_parts (s : Span) : (s.parts.map worth).sum = s.totalNanos := by
  have hparts := s.parts_measured
  simp only [parts, measures, List.forall₂_cons] at hparts
  obtain ⟨hyear, hmonth, hday, hhour, hminute, hsecond, hmilli, hmicro, hnano, -⟩ := hparts
  rw [parts]
  dsimp only
  rw [sum_worth_cons hyear, sum_worth_cons hmonth, sum_worth_cons hday, sum_worth_cons hhour,
    sum_worth_cons hminute, sum_worth_cons hsecond, sum_worth_cons hmilli, sum_worth_cons hmicro,
    sum_worth_cons hnano, List.map_nil, List.sum_nil, totalNanos, yearSeconds, monthSeconds]
  omega

/-- The parts of a span that are written. -/
def shown (s : Span) : List (Nat × String) :=
  s.parts.filter fun p => p.1 ≠ 0

theorem toText_of_shown (h : s.shown ≠ []) : s.toText = " ".intercalate (s.shown.map partText) :=
  if_neg (by rwa [Bool.not_eq_true, List.isEmpty_eq_false_iff])

theorem toText_of_shown_eq_nil (h : s.shown = []) : s.toText = "0s" :=
  if_pos (by rwa [List.isEmpty_iff])

/-- Parts that are not written come to nothing. -/
theorem sum_worth_shown (s : Span) : (s.shown.map worth).sum = s.totalNanos := by
  rw [← sum_worth_parts, shown]
  induction s.parts with
  | nil => rfl
  | cons p parts ih =>
      by_cases hp : p.1 = 0
      · have hworth : worth p = 0 := by rw [worth, hp, Nat.zero_mul]
        rw [List.filter_cons_of_neg (by simpa using hp), ih, List.map_cons, List.sum_cons, hworth,
          Nat.zero_add]
      · rw [List.filter_cons_of_pos (by simpa using hp), List.map_cons, List.map_cons, List.sum_cons,
          List.sum_cons, ih]

/-! ### Whole spans -/

theorem split_totalNanos (s : Span) : split s.totalNanos = (s.seconds, s.nanos) := by
  have hnanos := s.nanos_lt
  simp only [split, totalNanos, Prod.mk.injEq]
  omega

theorem of?_seconds_nanos (s : Span) : of? s.seconds s.nanos = some s := by
  have hseconds := s.seconds_lt
  have hnanos := s.nanos_lt
  rw [of?, dif_pos (by omega)]
  obtain ⟨seconds, nanos, _, _⟩ := s
  simp only [Option.some.injEq, mk.injEq]
  omega

/-- Blanks alone add nothing. -/
theorem sum?_blanks {cs : List Char} (hcs : cs.all isBlank = true) : sum? .start sum cs = some sum := by
  induction cs with
  | nil => rw [sum?]
  | cons c cs ih =>
      rw [List.all_cons, Bool.and_eq_true] at hcs
      have hdigit : c.isDigit = false := by
        rw [Bool.eq_false_iff]
        exact fun h => absurd hcs.1 (by simp [Instant.isBlank_of_isDigit h])
      rw [sum?, if_neg (by simp [hdigit]), if_pos hcs.1, ih hcs.2]

/-- The parts that are written are added up to the span. -/
theorem sum?_toText (h : s.shown ≠ []) : sum? .start (0, 0) s.toText.toList = some (s.seconds, s.nanos) := by
  have hseconds := s.seconds_lt
  have hnanos := s.nanos_lt
  have hlt : 0 + (s.shown.map worth).sum < (1 <<< 64) * 1000000000 := by
    rw [sum_worth_shown, totalNanos]
    omega
  have hparts : ∀ p ∈ s.shown, IsReadable p :=
    fun p hp => isReadable_of_measured s.parts_measured p (List.mem_filter.1 hp).1
  rw [toText_of_shown h, sum?_parts h hparts, ← split_totalNanos, ← sum_worth_shown,
    ← Nat.zero_add (List.sum _)]
  exact foldlM_addCount? hparts hlt

/-- Only a span of no time has no parts to be written. -/
theorem shown_eq_nil_iff : s.shown = [] ↔ s.seconds = 0 ∧ s.nanos = 0 := by
  constructor
  · intro h
    have htotal := sum_worth_shown s
    rw [h, List.map_nil, List.sum_nil, totalNanos] at htotal
    omega
  · rintro ⟨hseconds, hnanos⟩
    obtain ⟨seconds, nanos, _, _⟩ := s
    dsimp only at hseconds hnanos
    subst hseconds hnanos
    have hnone : shown ⟨0, 0, by decide, by decide⟩ = [] := by decide
    exact hnone

/-- **The text of a span is read back**, as exactly this span. -/
@[simp] theorem parse?_toText (s : Span) : parse? s.toText = some s := by
  by_cases hzero : s.shown = []
  · obtain ⟨hseconds, hnanos⟩ := shown_eq_nil_iff.1 hzero
    rw [toText_of_shown_eq_nil hzero]
    obtain ⟨seconds, nanos, _, _⟩ := s
    dsimp only at hseconds hnanos
    subst hseconds hnanos
    rfl
  · have hread := sum?_toText hzero
    -- a zero without a unit is no sum of parts, and a blank text is the sum of none
    have hne : s.toText ≠ "0" := by
      intro h
      rw [h] at hread
      exact absurd hread (by simp [sum?])
    have hblank : isBlankText s.toText = false := by
      rw [Bool.eq_false_iff]
      intro h
      rw [sum?_blanks h, Option.some.injEq, Prod.mk.injEq] at hread
      exact hzero (shown_eq_nil_iff.2 ⟨hread.1.symm, hread.2.symm⟩)
    rw [parse?, if_neg hne, if_neg (by simp [hblank]), hread]
    exact of?_seconds_nanos s

/-- The longest span: its years are as many as fit, and no sum overflows. -/
example : toText ⟨18446744073709551615, 999999999, by decide, by decide⟩
    = "584542046090years 7months 15days 17h 5m 3s 999ms 999us 999ns" := by decide +kernel

end VersionCatalog.Span
