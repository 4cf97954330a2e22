import VersionCatalog.Json.Writer
import VersionCatalog.Proofs.Digits
import VersionCatalog.Proofs.Doubles

/-!
# Written numbers

A whole number that fits a word is read back from its text as it was. Another number is written with its
shortest digits, and these are read with arithmetic that rounds more than once. So what is read back is a
number too, but it may be another one.

## Main results

* `Json.exists_digits`: which digits a number is written with.
* `Json.number?_writeInt`, `Json.number?_writeReal`: what is read back of a number.
* `Json.exists_ofNumeral_numeral`: this is a number again, and never out of range.
-/

namespace VersionCatalog.Json

open Text (digits padded valueOf_digits valueOf_padded length_padded)
open Text.Numeral (ofDigits proper_ofInt proper_ofDigits)

/-! ### Whole numbers -/

/-- **A whole number that fits a word is read back.** -/
theorem number?_writeInt {n : Int} (h : fitsWord 64 n = true) :
    number? (writeInt n) = some (.int n) := by
  rw [number?, writeInt, (proper_ofInt n).parse?_write, Option.map_some, ofNumeral]
  have hvalue : (Text.Numeral.ofInt n).wholeValue = n := by
    rw [Text.Numeral.wholeValue, Text.Numeral.ofInt, valueOf_digits]
    rcases Int.lt_or_le n 0 with hneg | hpos
    · rw [if_pos (decide_eq_true hneg)]
      omega
    · rw [if_neg (by simpa using hpos)]
      omega
  have hnegative : ((Text.Numeral.ofInt n).negative && n == 0) = false := by
    simp [Text.Numeral.ofInt]
    omega
  rw [hvalue, h, hnegative]
  rfl

/-! ### Digits that are taken in -/

/-- Digits that make a word in the end are all taken in. -/
theorem appendDigits_eq {n : Nat} {cs : List Char} (h : Nat.ofDigitChars 10 cs n < 1 <<< 64) :
    appendDigits n cs = (Nat.ofDigitChars 10 cs n, 0) := by
  induction cs generalizing n with
  | nil => rfl
  | cons c cs ih =>
      have hcomm : n * 10 + (c.toNat - 48) = 10 * n + (c.toNat - '0'.toNat) := by
        rw [Nat.mul_comm]
        rfl
      rw [Nat.ofDigitChars_cons, ← hcomm] at h
      have hle : n * 10 + (c.toNat - 48) ≤ Nat.ofDigitChars 10 cs (n * 10 + (c.toNat - 48)) := by
        rw [Nat.ofDigitChars_eq_ofDigitChars_zero]
        exact Nat.le_trans (Nat.le_mul_of_pos_left _ (Nat.pow_pos (by omega))) (Nat.le_add_right _ _)
      rw [appendDigits, if_pos (by omega), ih h, Nat.ofDigitChars_cons, ← hcomm]

/-- **Digits that are written are taken in**, wherever the point stands, if they make a word. -/
theorem leadingDecimal_ofDigits (negative : Bool) {n : Nat} (places : Nat) (power : Option Int)
    (h : n < 1 <<< 64) :
    leadingDecimal (ofDigits negative n places power)
      = ⟨negative, n, power.getD 0 - (places : Int)⟩ := by
  have hwhole : appendDigits 0 (digits (n / Nat.pow 10 places)) = (n / Nat.pow 10 places, 0) := by
    have hvalue : Nat.ofDigitChars 10 (digits (n / Nat.pow 10 places)) 0 = n / Nat.pow 10 places :=
      valueOf_digits _
    rw [appendDigits_eq (by rw [hvalue]; exact Nat.lt_of_le_of_lt (Nat.div_le_self _ _) h), hvalue]
  cases places with
  | zero =>
      have hone : n / Nat.pow 10 0 = n := Nat.div_one n
      rw [hone] at hwhole
      simp [leadingDecimal, ofDigits, hwhole, appendDigits]
  | succ places =>
      have hlength := length_padded (Nat.succ_pos places) (Nat.mod_lt n (Nat.pow_pos (by decide)))
      have hvalue : Nat.ofDigitChars 10 (padded (places + 1) (n % Nat.pow 10 (places + 1)))
          (n / Nat.pow 10 (places + 1)) = n := by
        have hlast := valueOf_padded (places + 1) (n % Nat.pow 10 (places + 1))
        rw [Text.valueOf] at hlast
        rw [Nat.ofDigitChars_eq_ofDigitChars_zero, hlength, hlast]
        exact Nat.div_add_mod n (Nat.pow 10 (places + 1))
      have hall := appendDigits_eq (hvalue.symm ▸ h)
      simp [-Nat.pow_eq, leadingDecimal, ofDigits, hwhole, hall, hvalue, hlength]

/-! ### Other numbers -/

open Double (ten greatest ten_zero ten_mono ten_add mul_ten_mono le_of_shortest scaled_lt_infinite)

/-- Digits are less than the power of ten that they are so many of. -/
theorem lt_ten_length (n : Nat) : n < ten (digits n).length :=
  (Double.length_toDigits_le_iff Nat.length_toDigits_pos).1 (Nat.le_refl _)

/-- Digits that a number is written with. A point or a power of ten is among them; there are no more than
seventeen of them, and they denote no more than the greatest number. They are the shortest ones, with zeros
behind them where all of them stand before the point. -/
structure IsWrittenWith (d : Double) (n places : Nat) (power : Option Int) : Prop where
  numeral_eq : numeral d = ofDigits d.negative n places power
  pointed : 0 < places ∨ power.isSome
  le_ten : n ≤ ten 17
  le_greatest : n * ten (power.getD 0 - (places : Int)).toNat ≤ greatest
  shortest : d.place = 0 ∧ n = 0 ∨ ∃ m zeros : Nat,
    Double.shortest d.place = (m, power.getD 0 - (places : Int) + zeros) ∧ n = m * ten zeros

section

variable {d : Double} {n : Nat} {exponent : Int}

theorem isWrittenWith_zero (hzero : d.place = 0) : IsWrittenWith d 0 1 none where
  numeral_eq := by rw [numeral, if_pos hzero]
  pointed := .inl (by decide)
  le_ten := Nat.zero_le _
  le_greatest := by
    rw [Nat.zero_mul]
    exact Nat.zero_le _
  shortest := .inl ⟨hzero, rfl⟩

/-- All digits stand before the point, with zeros behind them. -/
theorem isWrittenWith_whole (hshortest : Double.shortest d.place = (n, exponent))
    (hwhole : 0 ≤ exponent ∧ (digits n).length + exponent ≤ 16)
    (hnumeral : numeral d = ofDigits d.negative (n * ten (exponent.toNat + 1)) 1 none) :
    IsWrittenWith d (n * ten (exponent.toNat + 1)) 1 none := by
  have hall : n * ten (exponent.toNat + 1) ≤ ten 17 :=
    calc n * ten (exponent.toNat + 1) ≤ ten (digits n).length * ten (exponent.toNat + 1) :=
          mul_ten_mono _ (Nat.le_of_lt (lt_ten_length n))
      _ = ten ((digits n).length + (exponent.toNat + 1)) := (ten_add _ _).symm
      _ ≤ ten 17 := ten_mono _ 17 (by omega)
  have hgreatest : n * ten (exponent.toNat + 1) * ten 0 ≤ greatest :=
    Nat.le_trans (mul_ten_mono 0 hall) (by decide +kernel)
  refine ⟨hnumeral, .inl (by decide), hall, hgreatest, .inr ⟨n, exponent.toNat + 1, ?_, rfl⟩⟩
  rw [hshortest, Option.getD_none, Prod.mk.injEq]
  exact ⟨rfl, by omega⟩

/-- The point stands among the digits, or a power of ten says where. -/
theorem isWrittenWith_shortest {places : Nat} {power : Option Int}
    (hshortest : Double.shortest d.place = (n, exponent))
    (hnumeral : numeral d = ofDigits d.negative n places power) (hpointed : 0 < places ∨ power.isSome)
    (hexponent : power.getD 0 - (places : Int) = exponent) : IsWrittenWith d n places power := by
  obtain ⟨hdigits, hle⟩ := le_of_shortest d.place_lt hshortest
  refine ⟨hnumeral, hpointed, hdigits, ?_, .inr ⟨n, 0, ?_, ?_⟩⟩
  · rw [hexponent]
    exact hle
  · rw [hexponent, Int.natCast_zero, Int.add_zero]
    exact hshortest
  · rw [ten_zero, Nat.mul_one]

end

/-- **Every number is written with digits.** -/
theorem exists_digits (d : Double) : ∃ n places power, IsWrittenWith d n places power := by
  by_cases hzero : d.place = 0
  · exact ⟨0, 1, none, isWrittenWith_zero hzero⟩
  cases hshortest : Double.shortest d.place with
  | mk n exponent =>
      have hlength : 0 < (digits n).length := Nat.length_toDigits_pos
      have hnumeral : numeral d =
          if 0 ≤ exponent ∧ (digits n).length + exponent ≤ 16 then
            ofDigits d.negative (n * ten (exponent.toNat + 1)) 1 none
          else if exponent < 0 ∧ -5 < (digits n).length + exponent ∧
              (digits n).length + exponent ≤ 16 then
            ofDigits d.negative n exponent.natAbs none
          else ofDigits d.negative n ((digits n).length - 1)
            (some ((digits n).length - 1 + exponent)) := by
        rw [numeral, if_neg hzero, hshortest]
      by_cases hwhole : 0 ≤ exponent ∧ (digits n).length + exponent ≤ 16
      · rw [if_pos hwhole] at hnumeral
        exact ⟨_, 1, none, isWrittenWith_whole hshortest hwhole hnumeral⟩
      rw [if_neg hwhole] at hnumeral
      by_cases hpoint : exponent < 0 ∧ -5 < (digits n).length + exponent ∧
          (digits n).length + exponent ≤ 16
      · rw [if_pos hpoint] at hnumeral
        have hexponent : (none : Option Int).getD 0 - (exponent.natAbs : Int) = exponent := by
          rw [Option.getD_none]
          omega
        exact ⟨n, _, none, isWrittenWith_shortest hshortest hnumeral (.inl (by omega)) hexponent⟩
      · rw [if_neg hpoint] at hnumeral
        refine ⟨n, _, _, isWrittenWith_shortest hshortest hnumeral (.inr rfl) ?_⟩
        rw [Option.getD_some]
        omega

theorem isWhole_ofDigits {negative : Bool} {n places : Nat} {power : Option Int}
    (h : 0 < places ∨ power.isSome) : (ofDigits negative n places power).isWhole = false := by
  rw [Text.Numeral.isWhole, ofDigits]
  rcases h with hplaces | hpower
  · have hne : (padded places (n % Nat.pow 10 places)).isEmpty = false := by
      simpa using Text.padded_ne_nil _ _
    rw [if_neg (by omega), hne, Bool.false_and]
  · rw [Option.isNone_eq_false_iff.2 hpower, Bool.and_false]

namespace IsWrittenWith

variable {d : Double} {n places : Nat} {power : Option Int} (h : IsWrittenWith d n places power)

include h

/-- All digits that are written are taken in. -/
theorem leadingDecimal_eq :
    leadingDecimal (numeral d) = ⟨d.negative, n, power.getD 0 - (places : Int)⟩ := by
  have hword : n < 1 <<< 64 := Nat.lt_of_le_of_lt h.le_ten (by decide +kernel)
  rw [h.numeral_eq, leadingDecimal_ofDigits _ _ _ hword]

/-- What is read back of them is in range. -/
theorem scaled_lt : Double.scaled n (power.getD 0 - (places : Int)) < Double.infinite :=
  scaled_lt_infinite h.le_ten h.le_greatest

theorem ofNumeral_eq : ofNumeral (numeral d) = .real ⟨d.negative, _, h.scaled_lt⟩ := by
  have hwhole : (numeral d).isWhole = false := by rw [h.numeral_eq, isWhole_ofDigits h.pointed]
  rw [ofNumeral, hwhole, h.leadingDecimal_eq, Double.ofDecimal?, dif_pos h.scaled_lt]
  rfl

end IsWrittenWith

/-- **What is read back of a number is a number.** -/
theorem exists_ofNumeral_numeral (d : Double) : ∃ e, ofNumeral (numeral d) = .real e := by
  obtain ⟨n, places, power, h⟩ := exists_digits d
  exact ⟨_, h.ofNumeral_eq⟩

theorem proper_numeral (d : Double) : (numeral d).Proper := by
  obtain ⟨n, places, power, h⟩ := exists_digits d
  rw [h.numeral_eq]
  exact proper_ofDigits _ _ _ _

theorem number?_writeReal (d : Double) : number? (writeReal d) = some (ofNumeral (numeral d)) := by
  rw [number?, writeReal, (proper_numeral d).parse?_write, Option.map_some]

end VersionCatalog.Json
