import VersionCatalog.Proofs.Numbers

/-!
# Short decimals

A decimal is read with one product or quotient of its digits and a power of ten. If there are so few digits
that they are exact, and the power of ten is exact, too, the result is rounded only once. So the digits that a
number is written with are then read as this number again.

Whole numbers below 2⁵³ are exact, and so are the powers of ten up to 10²².

## Main results

* `Double.scaled_eq_denoted`: few digits with a small power of ten are read as what they denote.
* `Json.ofNumeral_numeral_of_isShort`: a number that is written with such digits is read back as it was.
-/

namespace VersionCatalog

namespace Double

variable {n q k place : Nat}

/-! ### Quotients -/

theorem divNearest_mul_mul (hk : 0 < k) : divNearest (n * k) (q * k) = divNearest n q := by
  have hmod : 2 * (n % q * k) = 2 * (n % q) * k := (Nat.mul_assoc ..).symm
  rw [divNearest, divNearest, Nat.mul_div_mul_right n q hk, Nat.mul_mod_mul_right, hmod]
  simp only [Nat.mul_lt_mul_right hk, Nat.mul_right_cancel_iff hk]

/-- Only the quotient of two numbers matters. -/
theorem nearest_mul_mul (hk : 0 < k) : nearest (n * k) (q * k) = nearest n q := by
  have hstep : stepOf (n * k) (q * k) = stepOf n q := by
    rw [stepOf, stepOf, Nat.mul_div_mul_right n q hk]
  have hshift : (q * k) <<< stepOf n q = q <<< stepOf n q * k := by
    rw [Nat.shiftLeft_eq, Nat.shiftLeft_eq, Nat.mul_right_comm]
  rw [nearest_eq, nearest_eq, hstep, hshift, divNearest_mul_mul hk]

/-! ### Exact numbers -/

/-- A number of 53 binary digits with zeros behind them has a place. -/
theorem units_of_normal (step : Nat) (hle : 1 <<< 52 ≤ n) (hlt : n < 1 <<< 53) :
    units (step * 1 <<< 52 + n) = n <<< step := by
  have hnumber : 1 <<< 52 = 4503599627370496 := rfl
  have hnumber' : 1 <<< 53 = 9007199254740992 := rfl
  have hstep : (step * 1 <<< 52 + n) / 1 <<< 52 - 1 = step := by
    rw [hnumber] at hle ⊢
    omega
  rw [units, hstep, Nat.add_sub_cancel_left]

/-- **Whole numbers below 2⁵³ are exact.** -/
theorem units_ofNat (h : n < 1 <<< 53) : units (ofNat n) = n <<< 1074 := by
  obtain ⟨place, hplace⟩ : ∃ place, units place = n <<< 1074 := by
    by_cases hzero : n = 0
    · exact ⟨0, by rw [hzero]; rfl⟩
    · have hlog : n.log2 < 53 := (Nat.log2_lt hzero).2 h
      obtain ⟨zeros, hzeros⟩ : ∃ zeros, n.log2 + zeros = 52 := ⟨52 - n.log2, by omega⟩
      have hle : 1 <<< 52 ≤ n <<< zeros := by
        rw [← hzeros, Nat.shiftLeft_add, Nat.one_shiftLeft]
        exact shiftLeft_mono zeros (Nat.log2_self_le hzero)
      have hlt : n <<< zeros < 1 <<< 53 := by
        have hsucc : 53 = (n.log2 + 1) + zeros := by omega
        rw [hsucc, Nat.shiftLeft_add, Nat.one_shiftLeft, Nat.shiftLeft_eq, Nat.shiftLeft_eq]
        exact Nat.mul_lt_mul_of_pos_right Nat.lt_log2_self (Nat.two_pow_pos zeros)
      refine ⟨(1074 - zeros) * 1 <<< 52 + n <<< zeros, ?_⟩
      rw [units_of_normal _ hle hlt, ← Nat.shiftLeft_add]
      congr 1
      omega
  have hexact : ofNat n = place := by
    rw [ofNat, ← hplace, ← Nat.mul_one (units place), nearest_units (by decide)]
  rw [hexact, hplace]

/-- The powers of ten up to 10²² are exact. -/
theorem units_tenTo : ∀ e < 23, units (tenTo e) = ten e <<< 1074 := by
  decide +kernel

/-! ### Digits that are read -/

/-- What digits denote is the place nearest to a quotient, whatever powers of ten make it up. -/
theorem denoted_eq {power : Nat} (above below : Nat) (h : power + below = above + 324) :
    denoted n power = nearest ((n * ten above) <<< 1074) (ten below) := by
  have hnumber : n * ten power * ten below = n * ten above * ten 324 := by
    rw [Nat.mul_assoc, Nat.mul_assoc, ← ten_add, ← ten_add, h]
  have hleft : (n * ten power) <<< 1074 * ten below = (n * ten above) <<< 1074 * ten 324 := by
    rw [shiftLeft_eq_mul (n * ten power), shiftLeft_eq_mul (n * ten above), Nat.mul_right_comm, hnumber,
      Nat.mul_right_comm]
  rw [denoted, ← nearest_mul_mul (ten_pos below), hleft, Nat.mul_comm (ten 324) (ten below),
    nearest_mul_mul (ten_pos 324)]

/-- A product of exact numbers is rounded once. -/
theorem product_exact {a b : Nat} (ha : units a = n <<< 1074) (hb : units b = k <<< 1074) :
    product a b = nearest ((n * k) <<< 1074) 1 := by
  have hone : 0 < 1 <<< 1074 := by decide +kernel
  have hunits : units a * units b = (n * k) <<< 1074 * 1 <<< 1074 := by
    rw [ha, hb, shiftLeft_eq_mul n, shiftLeft_eq_mul k, shiftLeft_eq_mul (n * k)]
    ac_rfl
  calc product a b = nearest ((n * k) <<< 1074 * 1 <<< 1074) (1 * 1 <<< 1074) := by
        rw [product, hunits, Nat.one_mul]
    _ = nearest ((n * k) <<< 1074) 1 := nearest_mul_mul hone

/-- So is a quotient. -/
theorem quotient_exact {a b : Nat} (ha : units a = n <<< 1074) (hb : units b = k <<< 1074) :
    quotient a b = nearest (n <<< 1074) k := by
  have hone : 0 < 1 <<< 1074 := by decide +kernel
  rw [quotient, ha, hb, shiftLeft_eq_mul (n <<< 1074), shiftLeft_eq_mul k, nearest_mul_mul hone]

/-- **Few digits with a small power of ten are read as what they denote.** -/
theorem scaled_eq_denoted {exponent : Int} (h : n < 1 <<< 53) (hexponent : exponent.natAbs ≤ 22) :
    scaled n exponent = denoted n (exponent + 324).toNat := by
  cases exponent with
  | ofNat e =>
      change e ≤ 22 at hexponent
      have hpower : (Int.ofNat e + 324).toNat = e + 324 := rfl
      rw [hpower, denoted_eq e 0 rfl, ten_zero, scaled]
      split
      case isTrue hzero =>
        have hnone : nearest (units 0 * 1) 1 = 0 := nearest_units (by decide) 0
        rw [hzero, Nat.zero_mul, Nat.zero_shiftLeft]
        exact hnone.symm
      case isFalse =>
        rw [if_pos (by omega)]
        exact product_exact (units_ofNat h) (units_tenTo e (by omega))
  | negSucc e =>
      change e + 1 ≤ 22 at hexponent
      have hpower : (Int.negSucc e + 324).toNat = 323 - e := by omega
      have hparts : e / 308 = 0 := by omega
      have hlast : e % 308 = e := by omega
      rw [hpower, denoted_eq 0 (e + 1) (by omega), ten_zero, Nat.mul_one, scaled, hparts, hlast, lowered]
      exact quotient_exact (units_ofNat h) (units_tenTo (e + 1) (by omega))

/-! ### Digits that are written -/

/-- Seventeen digits are more than a few, if there are so many before the last power of ten. -/
theorem ten_le_seventeen (h : 17 ≤ lengthOf place) : ten 16 ≤ (seventeen place).1 := by
  have hlength : ¬ lengthOf place ≤ lengthOf place - 1 := by omega
  have hlong : ten (lengthOf place - 1) <<< 1074 ≤ parts place := by
    refine Nat.le_of_not_lt fun hlt => hlength ?_
    exact (length_toDigits_le_iff (by omega)).2 ((shiftRight_lt_iff 1074).2 hlt)
  have hsplit : lengthOf place - 1 = 16 + (lengthOf place - 17) := by omega
  refine le_divNearest (shiftedTen_pos _ 1074) ?_
  rw [← mul_shiftLeft, ← ten_add, ← hsplit]
  exact hlong

/-- The digits that a number is written with denote it, if there are few and they do not stand too low. -/
theorem denoted_of_shortest {power : Int} (hshortest : shortest place = (n, power))
    (hdigits : n < 1 <<< 53) (hpower : -22 ≤ power) : denoted n (power + 324).toNat = place := by
  cases hfewest : fewest place with
  | mk digits last =>
      rw [shortest, hfewest] at hshortest
      obtain ⟨rfl, rfl⟩ := Prod.mk.inj hshortest
      have hlast : ((last : Int) - 324 + 324).toNat = last := by omega
      rw [hlast]
      rw [fewest] at hfewest
      cases hfound : (List.range 17).findSome? (withDigits? place) with
      | none =>
          rw [hfound, Option.getD_none] at hfewest
          have hmany : ten 16 ≤ digits := by
            have hlength : last = lengthOf place - 17 := (congrArg Prod.snd hfewest).symm
            have hle : ten 16 ≤ (seventeen place).1 := ten_le_seventeen (by omega)
            rwa [hfewest] at hle
          exact absurd (Nat.lt_of_le_of_lt hmany hdigits) (by decide +kernel)
      | some r =>
          rw [hfound, Option.getD_some] at hfewest
          obtain ⟨count, -, hat⟩ := List.exists_of_findSome?_eq_some hfound
          obtain ⟨found, hfound, hr⟩ := Option.map_eq_some_iff.1 hat
          cases hr.trans hfewest
          exact (le_of_digitsAt? hfound
            (show lengthOf place ≤ count + (lengthOf place - count) by omega)).2

theorem denoted_zero (power : Nat) : denoted 0 power = 0 := by
  have hnone : nearest (units 0 * ten 324) (ten 324) = 0 := nearest_units (ten_pos 324) 0
  have hunits : units 0 = 0 := rfl
  rw [hunits, Nat.zero_mul] at hnone
  rw [denoted, Nat.zero_mul, Nat.zero_shiftLeft, hnone]

theorem denoted_mul_ten (n zeros power : Nat) : denoted (n * ten zeros) power = denoted n (zeros + power) := by
  rw [denoted, denoted, Nat.mul_assoc, ← ten_add]

end Double

namespace Json

open Double (ten denoted)

/-- Whether a number is written with few digits and a small power of ten. -/
def isShort (d : Double) : Bool :=
  decide ((leadingDecimal (numeral d)).digits < 1 <<< 53) &&
    decide ((leadingDecimal (numeral d)).exponent.natAbs ≤ 22)

/-- **A number that is written with few digits and a small power of ten is read back as it was.** -/
theorem ofNumeral_numeral_of_isShort {d : Double} (h : isShort d = true) :
    ofNumeral (numeral d) = .real d := by
  obtain ⟨n, places, power, hwritten⟩ := exists_digits d
  have hdecimal := hwritten.leadingDecimal_eq
  rw [isShort, hdecimal, Bool.and_eq_true, decide_eq_true_eq, decide_eq_true_eq] at h
  dsimp only at h
  obtain ⟨hdigits, hpower⟩ := h
  have hplace : Double.scaled n (power.getD 0 - (places : Int)) = d.place := by
    rw [Double.scaled_eq_denoted hdigits hpower]
    rcases hwritten.shortest with ⟨hzero, rfl⟩ | ⟨m, zeros, hshortest, rfl⟩
    · rw [Double.denoted_zero, hzero]
    · have hfew : m < 1 <<< 53 :=
        Nat.lt_of_le_of_lt (Nat.le_mul_of_pos_right m (Double.ten_pos zeros)) hdigits
      rw [Double.denoted_mul_ten, ← Double.denoted_of_shortest hshortest hfew (by omega)]
      congr 1
      omega
  rw [hwritten.ofNumeral_eq]
  congr 1
  obtain ⟨negative, place, hlt⟩ := d
  dsimp only at hplace
  subst hplace
  rfl

end Json

end VersionCatalog
