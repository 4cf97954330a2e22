import VersionCatalog.Text.Numeral

/-!
# Runs of digits

What is written as digits is read back as the same number, whatever follows it but a further digit.

## Main results

* `takeDigits_run`: a run of digits is taken off as a whole.
* `readNumber_run`, `readNumber_padded`: a written number is read back.
* `Numeral.Proper.parse?_write`: a written numeral is taken apart again.
-/

namespace VersionCatalog.Text

/-! ### Digits of numbers -/

/-- What follows a run of digits does not begin with a digit. -/
def EndsRun (rest : List Char) : Prop :=
  ∀ c ∈ rest.head?, c.isDigit = false

theorem EndsRun.nil : EndsRun [] := by
  rintro c ⟨⟩

theorem EndsRun.cons {c : Char} {rest : List Char} (h : c.isDigit = false) : EndsRun (c :: rest) := by
  rintro d ⟨⟩
  exact h

theorem isDigit_of_mem_digits {n : Nat} {c : Char} (h : c ∈ digits n) : c.isDigit = true :=
  Nat.isDigit_of_mem_toDigits (by omega) (by omega) h

theorem digits_ne_nil (n : Nat) : digits n ≠ [] :=
  Nat.toDigits_ne_nil

/-- Only zero has a zero in front. -/
theorem head_digits_ne {n : Nat} (h : n ≠ 0) (cs : List Char) : digits n ≠ '0' :: cs := by
  induction n using Nat.strongRecOn generalizing cs with
  | ind n ih =>
      intro heq
      rw [digits, Nat.toDigits_eq_if (by omega)] at heq
      split at heq
      · simp only [List.cons.injEq, Nat.digitChar_eq_zero] at heq
        exact h heq.1
      · rename_i hlarge
        obtain ⟨d, ds, hds⟩ := List.exists_cons_of_ne_nil (digits_ne_nil (n / 10))
        rw [← digits, hds, List.cons_append, List.cons.injEq] at heq
        exact ih (n / 10) (by omega) (by omega) ds (by rw [hds, heq.1])

theorem isDigit_of_mem_padded {width n : Nat} {c : Char} (h : c ∈ padded width n) :
    c.isDigit = true := by
  rw [padded, List.mem_append, List.mem_replicate] at h
  rcases h with ⟨-, rfl⟩ | h
  · rfl
  · exact isDigit_of_mem_digits h

@[simp] theorem valueOf_padded (width n : Nat) : valueOf (padded width n) = n := by
  rw [valueOf, padded, Nat.ofDigitChars_append, Nat.ofDigitChars_replicate_zero, Nat.mul_zero]
  exact valueOf_digits n

theorem padded_ne_nil (width n : Nat) : padded width n ≠ [] := by
  rw [padded]
  simp [digits_ne_nil]

/-- A number that is not too great fills its width. -/
theorem length_padded {width n : Nat} (hwidth : 0 < width) (h : n < Nat.pow 10 width) :
    (padded width n).length = width := by
  have hle := (Nat.length_toDigits_le_iff (b := 10) (by omega) hwidth).2 h
  rw [padded, List.length_append, List.length_replicate, digits]
  omega

/-! ### Taking digits off -/

/-- A run of digits is taken off as a whole. -/
theorem takeDigits_run {limit : Nat} {run rest : List Char} (hrun : ∀ c ∈ run, c.isDigit = true)
    (hlimit : run.length ≤ limit) (hrest : EndsRun rest ∨ run.length = limit) :
    takeDigits limit (run ++ rest) = (run, rest) := by
  induction run generalizing limit with
  | nil =>
      cases limit with
      | zero => rfl
      | succ limit =>
          cases rest with
          | nil => rfl
          | cons c rest =>
              have hc : c.isDigit = false := hrest.elim (fun h => h c rfl) fun h => absurd h (by simp)
              simp [takeDigits, hc]
  | cons c run ih =>
      cases limit with
      | zero => exact absurd hlimit (by simp)
      | succ limit =>
          have htail : takeDigits limit (run ++ rest) = (run, rest) :=
            ih (fun d hd => hrun d (List.mem_cons_of_mem _ hd)) (by simpa using hlimit)
              (hrest.imp_right fun h => by simpa using h)
          simp [takeDigits, hrun c List.mem_cons_self, htail]

theorem readNumber_run {limit : Nat} {run rest : List Char} (hne : run ≠ [])
    (hrun : ∀ c ∈ run, c.isDigit = true) (hlimit : run.length ≤ limit)
    (hrest : EndsRun rest ∨ run.length = limit) :
    readNumber limit (run ++ rest) = some (valueOf run, rest) := by
  rw [readNumber, takeDigits_run hrun hlimit hrest]
  cases run with
  | nil => exact absurd rfl hne
  | cons c run => rfl

/-- A number of a fixed width is read back. -/
theorem readNumber_padded {width n : Nat} {rest : List Char} (hwidth : 0 < width)
    (h : n < Nat.pow 10 width) : readNumber width (padded width n ++ rest) = some (n, rest) := by
  have hlength := length_padded hwidth h
  rw [readNumber_run (padded_ne_nil _ _) (fun c hc => isDigit_of_mem_padded hc)
    (Nat.le_of_eq hlength) (.inr hlength), valueOf_padded]

/-! ### Numerals -/

namespace Numeral

/-- The whole part of a written number. -/
theorem wholePart_digits {n : Nat} {rest : List Char} (hrest : EndsRun rest) :
    wholePart (digits n ++ rest) = some (digits n, rest) := by
  by_cases h : n = 0
  · subst h
    rfl
  · have htake : takeDigits (digits n ++ rest).length (digits n ++ rest) = (digits n, rest) :=
      takeDigits_run (fun c hc => isDigit_of_mem_digits hc) (by simp) (.inl hrest)
    obtain ⟨c, cs, hcs⟩ := List.exists_cons_of_ne_nil (digits_ne_nil n)
    have hc : c ≠ '0' := by
      rintro rfl
      exact head_digits_ne h cs hcs
    rw [hcs, List.cons_append] at htake ⊢
    rw [wholePart]
    · rw [htake]
    · intro rest' heq
      exact hc (List.cons.inj heq).1

/-- What does not begin with a point has no fraction. -/
theorem fraction_of_ne {rest : List Char} (h : ∀ c ∈ rest.head?, c ≠ '.') :
    fraction rest = some ([], rest) := by
  cases rest with
  | nil => rfl
  | cons c rest =>
      have hc : c ≠ '.' := h c rfl
      rw [fraction]
      intro cs heq
      exact hc (List.cons.inj heq).1

/-- The digits after a point are taken off as a whole. -/
theorem fraction_run {run rest : List Char} (hne : run ≠ []) (hrun : ∀ c ∈ run, c.isDigit = true)
    (hrest : EndsRun rest) : fraction ('.' :: (run ++ rest)) = some (run, rest) := by
  have htake : takeDigits (run ++ rest).length (run ++ rest) = (run, rest) :=
    takeDigits_run hrun (by simp) (.inl hrest)
  rw [fraction, htake]
  cases run with
  | nil => exact absurd rfl hne
  | cons c run => rfl

theorem exists_cons_digits (n : Nat) : ∃ c cs, digits n = c :: cs ∧ c.isDigit = true := by
  obtain ⟨c, cs, hcs⟩ := List.exists_cons_of_ne_nil (digits_ne_nil n)
  exact ⟨c, cs, hcs, isDigit_of_mem_digits (hcs ▸ List.mem_cons_self)⟩

/-- The power of ten that is written for a whole number. -/
theorem exponent_writeInt (power : Int) : exponent ('e' :: writeInt power) = some (some power) := by
  have htake : takeDigits (digits power.natAbs).length (digits power.natAbs ++ [])
      = (digits power.natAbs, []) :=
    takeDigits_run (fun c hc => isDigit_of_mem_digits hc) (Nat.le_refl _) (.inl .nil)
  obtain ⟨c, cs, hcs, hc⟩ := exists_cons_digits power.natAbs
  have hvalue := valueOf_digits power.natAbs
  rw [List.append_nil, hcs, List.length_cons] at htake
  rw [hcs] at hvalue
  by_cases hneg : power < 0
  · have hpower : -(power.natAbs : Int) = power := by omega
    rw [writeInt, hcs]
    generalize power.natAbs = n at *
    simp [exponent, sign, hneg, htake, hvalue, hpower]
  · have hplus : c ≠ '+' := by
      rintro rfl
      exact absurd hc (by decide)
    have hminus : c ≠ '-' := by
      rintro rfl
      exact absurd hc (by decide)
    have hpower : (power.natAbs : Int) = power := by omega
    rw [writeInt, hcs]
    generalize power.natAbs = n at *
    simp [exponent, sign, hneg, hplus, hminus, htake, hvalue, hpower]

/-- A numeral is its sign and what follows it. -/
theorem parse?_sign (negative : Bool) {cs : List Char} (h : ∀ c ∈ cs.head?, c ≠ '-') :
    parse? (sign negative ++ cs) = (do
      let (whole, cs) ← wholePart cs
      let (places, cs) ← fraction cs
      let power ← exponent cs
      return { negative, whole, places, power }) := by
  cases negative with
  | true => rfl
  | false =>
      cases cs with
      | nil => rfl
      | cons c cs =>
          have hc : c ≠ '-' := h c rfl
          rw [sign, if_neg (by simp), List.nil_append, parse?]
          intro cs' heq
          exact hc (List.cons.inj heq).1

/-- A numeral whose whole part is that of a number, and whose places are digits. -/
structure Proper (n : Numeral) : Prop where
  whole : ∃ k, n.whole = digits k
  places : ∀ c ∈ n.places, c.isDigit = true

/-- What follows the places. -/
theorem endsRun_power (power : Option Int) :
    EndsRun (power.elim [] fun power => 'e' :: writeInt power) := by
  cases power with
  | none => exact .nil
  | some power => exact .cons (by decide)

/-- **A written numeral is taken apart again.** -/
theorem Proper.parse?_write {n : Numeral} (h : n.Proper) : parse? n.write = some n := by
  obtain ⟨negative, whole, places, power⟩ := n
  obtain ⟨⟨k, rfl⟩, hplaces⟩ := h
  have hexponent : exponent (power.elim [] fun power => 'e' :: writeInt power) = some power := by
    cases power with
    | none => rfl
    | some power => exact exponent_writeInt power
  have hfraction : fraction ((if places.isEmpty then [] else '.' :: places)
      ++ power.elim [] fun power => 'e' :: writeInt power)
        = some (places, power.elim [] fun power => 'e' :: writeInt power) := by
    cases places with
    | nil =>
        refine fraction_of_ne fun c hc => ?_
        cases power with
        | none => cases hc
        | some power =>
            cases hc
            decide
    | cons c places => exact fraction_run (List.cons_ne_nil _ _) hplaces (endsRun_power power)
  have hends : EndsRun ((if places.isEmpty then [] else '.' :: places)
      ++ power.elim [] fun power => 'e' :: writeInt power) := by
    cases places with
    | nil => exact endsRun_power power
    | cons c places => exact .cons (by decide)
  have hhead : ∀ c ∈ (digits k ++ ((if places.isEmpty then [] else '.' :: places)
      ++ power.elim [] fun power => 'e' :: writeInt power)).head?, c ≠ '-' := by
    obtain ⟨d, ds, hds, hd⟩ := exists_cons_digits k
    rw [hds]
    rintro c ⟨⟩ rfl
    exact absurd hd (by decide)
  rw [write, parse?_sign negative hhead, wholePart_digits hends]
  simp only [hfraction, hexponent, Option.bind_eq_bind, Option.bind_some, Option.pure_def]

theorem proper_ofInt (n : Int) : (ofInt n).Proper where
  whole := ⟨n.natAbs, rfl⟩
  places _ hc := by cases hc

theorem proper_ofDigits (negative : Bool) (n places : Nat) (power : Option Int) :
    (ofDigits negative n places power).Proper where
  whole := ⟨_, rfl⟩
  places c hc := by
    rw [ofDigits] at hc
    split at hc
    · cases hc
    · exact isDigit_of_mem_padded hc

end Numeral

end VersionCatalog.Text
