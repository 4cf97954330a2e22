import VersionCatalog.Double

/-!
# Rounding

Rounding keeps the order of numbers, and leaves those alone that need none. So a product is no greater than that of
greater factors, a quotient by something that is at least one is no greater than what is divided, and whatever lies
below a finite number is finite. In particular the digits that a finite number is written with make up a finite
number again when they are read, though it may be another one next to it.

## Main results

* `Double.nearest_mono`, `Double.nearest_units`: rounding keeps the order, and leaves numbers alone.
* `Double.le_of_shortest`: how great the digits are that a number is written with.
* `Double.scaled_lt_infinite`: such digits make up a finite number when they are read.
-/

namespace VersionCatalog.Double

variable {n n' q d place place' : Nat}

/-! ### Nearest whole numbers -/

theorem divNearest_mono (h : n ≤ n') : divNearest n q ≤ divNearest n' q := by
  have hdiv : n / q ≤ n' / q := Nat.div_le_div_right h
  have hn := Nat.div_add_mod n q
  have hn' := Nat.div_add_mod n' q
  rw [divNearest, divNearest]
  rcases Nat.eq_or_lt_of_le hdiv with heq | hlt
  · -- the quotients are the same, so the remainders are in order
    have hmod : n % q ≤ n' % q := by
      rw [heq] at hn
      omega
    split <;> split <;> omega
  · split <;> split <;> omega

theorem divNearest_mul (hq : 0 < q) (d : Nat) : divNearest (d * q) q = d := by
  rw [divNearest, Nat.mul_mod_left, Nat.mul_div_cancel d hq, if_neg (by omega)]

theorem divNearest_le (hq : 0 < q) (h : n ≤ d * q) : divNearest n q ≤ d :=
  Nat.le_trans (divNearest_mono h) (Nat.le_of_eq (divNearest_mul hq d))

theorem le_divNearest (hq : 0 < q) (h : d * q ≤ n) : d ≤ divNearest n q :=
  Nat.le_trans (Nat.le_of_eq (divNearest_mul hq d).symm) (divNearest_mono h)

/-! ### Nearest places -/

/-- The distance of the places around a quotient, as a power of two. -/
def stepOf (n q : Nat) : Nat :=
  (n / q).log2 - 52

theorem nearest_eq (n q : Nat) :
    nearest n q = stepOf n q * 1 <<< 52 + divNearest n (q <<< stepOf n q) := rfl

theorem stepOf_mono (h : n ≤ n') : stepOf n q ≤ stepOf n' q := by
  have hdiv : n / q ≤ n' / q := Nat.div_le_div_right h
  refine Nat.sub_le_sub_right ?_ 52
  by_cases hzero : n / q = 0
  · rw [hzero]
    exact Nat.zero_le _
  · have hne : n' / q ≠ 0 := fun hzero' => hzero (Nat.le_zero.1 (hzero' ▸ hdiv))
    exact (Nat.le_log2 hne).2 (Nat.le_trans (Nat.log2_self_le hzero) hdiv)

/-- What is rounded has at most 53 places of two behind it. -/
theorem nearest_le_top (hq : 0 < q) : nearest n q ≤ stepOf n q * 1 <<< 52 + 1 <<< 53 := by
  have hlt : n / q < 2 ^ (53 + stepOf n q) :=
    Nat.lt_of_lt_of_le Nat.lt_log2_self (Nat.pow_le_pow_right (by omega) (by rw [stepOf]; omega))
  have hle : n ≤ 1 <<< 53 * (q * 2 ^ stepOf n q) := by
    rw [Nat.div_lt_iff_lt_mul hq, Nat.pow_add] at hlt
    calc n ≤ 1 <<< 53 * 2 ^ stepOf n q * q := Nat.le_of_lt hlt
      _ = 1 <<< 53 * (q * 2 ^ stepOf n q) := by rw [Nat.mul_assoc, Nat.mul_comm q]
  rw [nearest_eq, Nat.shiftLeft_eq q]
  exact Nat.add_le_add_left (divNearest_le (Nat.mul_pos hq (Nat.two_pow_pos _)) hle) _

/-- If places are more than one unit apart, all 53 of them are used. -/
theorem bottom_le_nearest (hq : 0 < q) (hstep : 0 < stepOf n q) :
    stepOf n q * 1 <<< 52 + 1 <<< 52 ≤ nearest n q := by
  have hne : n / q ≠ 0 := by
    intro hzero
    simp [stepOf, hzero] at hstep
  have hexponent : (n / q).log2 = 52 + stepOf n q := by
    rw [stepOf] at hstep ⊢
    omega
  have hle : 1 <<< 52 * (q * 2 ^ stepOf n q) ≤ n := by
    have hself := Nat.log2_self_le hne
    rw [hexponent, Nat.pow_add, Nat.le_div_iff_mul_le hq] at hself
    calc 1 <<< 52 * (q * 2 ^ stepOf n q) = 1 <<< 52 * 2 ^ stepOf n q * q := by
          rw [Nat.mul_assoc, Nat.mul_comm q]
      _ ≤ n := hself
  rw [nearest_eq, Nat.shiftLeft_eq q]
  exact Nat.add_le_add_left (le_divNearest (Nat.mul_pos hq (Nat.two_pow_pos _)) hle) _

/-- **Rounding keeps the order.** -/
theorem nearest_mono (hq : 0 < q) (h : n ≤ n') : nearest n q ≤ nearest n' q := by
  rcases Nat.eq_or_lt_of_le (stepOf_mono h) with heq | hlt
  · rw [nearest_eq, nearest_eq, heq]
    exact Nat.add_le_add_left (divNearest_mono h) _
  · calc nearest n q ≤ stepOf n q * 1 <<< 52 + 1 <<< 53 := nearest_le_top hq
      _ = (stepOf n q + 1) * 1 <<< 52 + 1 <<< 52 := by omega
      _ ≤ stepOf n' q * 1 <<< 52 + 1 <<< 52 := Nat.add_le_add_right (Nat.mul_le_mul_right _ hlt) _
      _ ≤ nearest n' q := bottom_le_nearest hq (by omega)

/-- A place, and how many units it stands for: those of 53 binary digits and some zeros. -/
theorem exists_units (place : Nat) : ∃ step m, place = step * 1 <<< 52 + m ∧ units place = m <<< step ∧
    m < 1 <<< 53 ∧ (step = 0 ∨ 1 <<< 52 ≤ m) := by
  have hnumber : 1 <<< 52 = 4503599627370496 := rfl
  refine ⟨place / 1 <<< 52 - 1, place - (place / 1 <<< 52 - 1) * 1 <<< 52, ?_, ?_, ?_, ?_⟩
  · rw [hnumber]
    omega
  · rfl
  · rw [hnumber]
    omega
  · rw [hnumber]
    omega

/-- **A number that needs no rounding is left alone.** -/
theorem nearest_units (hq : 0 < q) (place : Nat) : nearest (units place * q) q = place := by
  obtain ⟨step, m, hplace, hunits, hlt, hnormal⟩ := exists_units place
  have hstep : stepOf (units place * q) q = step := by
    rw [stepOf, Nat.mul_div_cancel _ hq, hunits, Nat.shiftLeft_eq m]
    rcases hnormal with rfl | hle
    · by_cases hm : m = 0
      · subst hm
        rfl
      · have hlog : m.log2 < 53 := (Nat.log2_lt hm).2 hlt
        rw [Nat.pow_zero, Nat.mul_one]
        omega
    · have hpos : 0 < 2 ^ step := Nat.two_pow_pos _
      have hlog : (m * 2 ^ step).log2 = 52 + step := by
        rw [Nat.log2_eq_iff (Nat.mul_ne_zero (by omega) (by omega)), Nat.pow_succ', Nat.pow_add,
          ← Nat.mul_assoc]
        exact ⟨Nat.mul_le_mul_right _ hle, Nat.mul_lt_mul_of_pos_right hlt hpos⟩
      omega
  rw [nearest_eq, hstep, hunits, Nat.shiftLeft_eq m, Nat.shiftLeft_eq q, Nat.mul_assoc,
    Nat.mul_comm (2 ^ step), divNearest_mul (Nat.mul_pos hq (Nat.two_pow_pos _)), ← hplace]

theorem nearest_le (hq : 0 < q) (h : n ≤ units place * q) : nearest n q ≤ place :=
  Nat.le_trans (nearest_mono hq h) (Nat.le_of_eq (nearest_units hq place))

/-- The number at a later place is no smaller. -/
theorem units_mono (h : place ≤ place') : units place ≤ units place' := by
  rcases Nat.le_total (units place) (units place') with hle | hle
  · exact hle
  · -- the places cannot be in the other order, because of what is nearest to them
    have hback : place' ≤ place :=
      calc place' = nearest (units place' * 1) 1 := (nearest_units (by omega) place').symm
        _ ≤ place := nearest_le (by omega) (by omega)
    exact Nat.le_of_eq (congrArg units (Nat.le_antisymm h hback))

/-! ### Powers of ten -/

theorem ten_zero : ten 0 = 1 := by decide +kernel

theorem ten_pos (e : Nat) : 0 < ten e := by
  rw [ten]
  exact Nat.pow_pos (by decide)

theorem ten_mono (e e' : Nat) (h : e ≤ e') : ten e ≤ ten e' := by
  rw [ten, ten]
  exact Nat.pow_le_pow_right (by decide) h

theorem ten_add (e e' : Nat) : ten (e + e') = ten e * ten e' := by
  rw [ten, ten, ten]
  exact Nat.pow_add 10 e e'

theorem mul_ten_mono (e : Nat) (h : n ≤ n') : n * ten e ≤ n' * ten e :=
  Nat.mul_le_mul_right _ h

/-! ### Products and quotients -/

theorem shiftLeft_eq_mul (n k : Nat) : n <<< k = n * 1 <<< k := by
  rw [Nat.shiftLeft_eq, Nat.one_shiftLeft]

theorem ofNat_mono (h : n ≤ n') : ofNat n ≤ ofNat n' :=
  nearest_mono (by omega) (by
    rw [Nat.shiftLeft_eq, Nat.shiftLeft_eq]
    exact Nat.mul_le_mul_right _ h)

theorem product_mono {a a' b b' : Nat} (ha : a ≤ a') (hb : b ≤ b') : product a b ≤ product a' b' :=
  nearest_mono (by decide) (Nat.mul_le_mul (units_mono ha) (units_mono hb))

/-- No power of ten is less than one. -/
theorem one_le_units_tenTo (e : Nat) : 1 <<< 1074 ≤ units (tenTo e) := by
  have hone : ofNat 1 ≤ tenTo e := ofNat_mono (ten_pos e)
  calc 1 <<< 1074 = units (ofNat 1) := by decide +kernel
    _ ≤ units (tenTo e) := units_mono hone

/-- What is divided by a power of ten gets no greater. -/
theorem quotient_tenTo_le (a e : Nat) : quotient a (tenTo e) ≤ a := by
  have hone : 0 < 1 <<< 1074 := by decide +kernel
  refine nearest_le (Nat.lt_of_lt_of_le hone (one_le_units_tenTo e)) ?_
  rw [shiftLeft_eq_mul]
  exact Nat.mul_le_mul_left _ (one_le_units_tenTo e)

theorem lowered_le (k a : Nat) : lowered k a ≤ a := by
  induction k generalizing a with
  | zero => exact Nat.le_refl _
  | succ k ih =>
      rw [lowered]
      split
      · exact Nat.zero_le _
      · exact Nat.le_trans (ih _) (quotient_tenTo_le a 308)

/-! ### Digits that are read -/

/-- The greatest number that digits denote: that of the greatest place, with seventeen digits. -/
def greatest : Nat := 17976931348623157 * ten 292

theorem exponent_le_of_le_greatest {e : Nat} (hpos : 0 < d) (h : d * ten e ≤ greatest) : e ≤ 308 := by
  have hover : greatest < ten 309 := by decide +kernel
  refine Nat.le_of_not_lt fun hlt => Nat.not_lt_of_le h (Nat.lt_of_lt_of_le hover ?_)
  exact Nat.le_trans (ten_mono 309 e hlt) (Nat.le_mul_of_pos_left _ hpos)

/-- Each power of ten near the greatest one is rounded for itself. -/
theorem product_greatest_lt :
    ∀ k < 17, product (ofNat (greatest / ten (k + 292))) (tenTo (k + 292)) < infinite := by
  decide +kernel

/-- **Digits make up a finite number**, if there are not too many, and they denote no more than the greatest one. -/
theorem scaled_lt_infinite {exponent : Int} (hdigits : d ≤ ten 17)
    (hle : d * ten exponent.toNat ≤ greatest) : scaled d exponent < infinite := by
  cases exponent with
  | negSucc e =>
      calc scaled d (.negSucc e) ≤ lowered (e / 308) (ofNat d) := quotient_tenTo_le _ _
        _ ≤ ofNat d := lowered_le _ _
        _ ≤ ofNat (ten 17) := ofNat_mono hdigits
        _ < infinite := by decide +kernel
  | ofNat e =>
      change d * ten e ≤ greatest at hle
      rw [scaled]
      split
      · decide +kernel
      · rename_i hne
        rw [if_pos (exponent_le_of_le_greatest (Nat.pos_of_ne_zero hne) hle)]
        by_cases hsmall : e ≤ 291
        · calc product (ofNat d) (tenTo e) ≤ product (ofNat (ten 17)) (tenTo 291) :=
                product_mono (ofNat_mono hdigits) (ofNat_mono (ten_mono e 291 hsmall))
            _ < infinite := by decide +kernel
        · obtain ⟨k, rfl⟩ : ∃ k, e = k + 292 := ⟨e - 292, by omega⟩
          have hk := exponent_le_of_le_greatest (Nat.pos_of_ne_zero hne) hle
          have hfew : d ≤ greatest / ten (k + 292) :=
            (Nat.le_div_iff_mul_le (ten_pos _)).2 hle
          exact Nat.lt_of_le_of_lt (product_mono (ofNat_mono hfew) (Nat.le_refl _))
            (product_greatest_lt k (by omega))

/-! ### Digits that are written -/

theorem length_toDigits_le_iff {count : Nat} (h : 0 < count) :
    (Nat.toDigits 10 n).length ≤ count ↔ n < ten count := by
  rw [ten]
  exact Nat.length_toDigits_le_iff (by decide) h

theorem shiftLeft_mono (k : Nat) (h : n ≤ n') : n <<< k ≤ n' <<< k := by
  rw [Nat.shiftLeft_eq, Nat.shiftLeft_eq]
  exact Nat.mul_le_mul_right _ h

theorem shiftRight_lt_iff (k : Nat) : n >>> k < d ↔ n < d <<< k := by
  rw [Nat.shiftRight_eq_div_pow, Nat.div_lt_iff_lt_mul (Nat.two_pow_pos _), Nat.shiftLeft_eq]

theorem mul_shiftLeft (n m k : Nat) : (n * m) <<< k = n * m <<< k := by
  rw [Nat.shiftLeft_eq, Nat.shiftLeft_eq, Nat.mul_assoc]

theorem parts_mono (h : place ≤ place') : parts place ≤ parts place' :=
  Nat.mul_le_mul_right _ (units_mono h)

/-- No finite number has more than 633 such digits. -/
theorem lengthOf_le (h : place < infinite) : lengthOf place ≤ 633 := by
  have hlast : parts (infinite - 1) < ten 633 <<< 1074 := by decide +kernel
  have hlt : parts place >>> 1074 < ten 633 :=
    (shiftRight_lt_iff 1074).2 (Nat.lt_of_le_of_lt (parts_mono (Nat.le_sub_one_of_lt h)) hlast)
  exact (length_toDigits_le_iff (by decide)).2 hlt

/-- If a number has no more digits before a power of ten than so many, it is less than this. -/
theorem parts_lt {power count : Nat} (h : lengthOf place ≤ count + power) :
    parts place < ten count * ten power <<< 1074 := by
  have hdigits : parts place >>> 1074 < ten (lengthOf place) :=
    (length_toDigits_le_iff Nat.length_toDigits_pos).1 (Nat.le_refl _)
  rw [← mul_shiftLeft, ← ten_add]
  exact Nat.lt_of_lt_of_le ((shiftRight_lt_iff 1074).1 hdigits) (shiftLeft_mono 1074 (ten_mono _ _ h))

theorem shiftedTen_pos (power k : Nat) : 0 < ten power <<< k := by
  rw [Nat.shiftLeft_eq]
  exact Nat.mul_pos (ten_pos power) (Nat.two_pow_pos k)

theorem denoted_mono {power power' : Nat} (h : d * ten power ≤ n * ten power') :
    denoted d power ≤ denoted n power' := by
  rw [denoted, denoted]
  exact nearest_mono (ten_pos 324) (shiftLeft_mono 1074 h)

/-- Digits that are found denote the number, and there are no more of them than stand before their power of ten. -/
theorem le_of_digitsAt? {power count : Nat} (h : digitsAt? place power = some d)
    (hcount : lengthOf place ≤ count + power) : d ≤ ten count ∧ denoted d power = place := by
  have hdenoted := List.find?_some h
  have hmem := List.mem_of_find?_eq_some h
  have hbelow : parts place / ten power <<< 1074 < ten count :=
    (Nat.div_lt_iff_lt_mul (shiftedTen_pos power 1074)).2 (parts_lt hcount)
  refine ⟨?_, eq_of_beq hdenoted⟩
  simp only [List.mem_cons, List.not_mem_nil, or_false] at hmem
  rcases hmem with hd | hd | hd
  · rw [hd, divNearest]
    split
    · exact hbelow
    · exact Nat.le_of_lt hbelow
  · exact hd ▸ Nat.le_of_lt hbelow
  · exact hd ▸ hbelow

/-- Few digits denote no more than the greatest number, unless they stand too high. -/
theorem le_greatest {count power : Nat} (h : d ≤ ten count) (hcount : count ≤ 17)
    (hlength : count + power ≤ 632) : d * ten (power - 324) ≤ greatest :=
  calc d * ten (power - 324) ≤ ten count * ten (power - 324) := mul_ten_mono _ h
    _ = ten (count + (power - 324)) := (ten_add _ _).symm
    _ ≤ ten 308 := ten_mono _ 308 (by omega)
    _ ≤ greatest := by decide +kernel

/-- Sixteen digits that denote more than the greatest number denote an infinite one. -/
theorem infinite_le_denoted : infinite ≤ denoted 1797693134862316 617 := by decide +kernel

/-- What has fewer digits than the greatest number and denotes a finite one is no greater. -/
theorem le_greatest_of_denoted {power : Nat} (hpower : 617 ≤ power) (h : denoted d power < infinite) :
    d * ten (power - 324) ≤ greatest := by
  obtain ⟨k, rfl⟩ : ∃ k, power = k + 617 := ⟨power - 617, by omega⟩
  have hsplit : ∀ e, d * ten (k + e) = d * ten k * ten e := fun e => by
    rw [ten_add, Nat.mul_assoc]
  have hfew : d * ten k ≤ 1797693134862315 := by
    refine Nat.le_of_not_lt fun hlt => Nat.not_lt_of_le infinite_le_denoted ?_
    refine Nat.lt_of_le_of_lt (denoted_mono ?_) h
    rw [hsplit 617]
    exact mul_ten_mono 617 hlt
  have hexponent : k + 617 - 324 = k + 293 := by omega
  calc d * ten (k + 617 - 324) = d * ten k * ten 293 := by
        rw [hexponent, hsplit 293]
    _ ≤ 1797693134862315 * ten 293 := mul_ten_mono 293 hfew
    _ ≤ greatest := by decide +kernel

/-- Digits and the power of ten of the last one, counted from 10⁻³²⁴: there are no more than seventeen, and they
denote no more than the greatest number. -/
structure AreFew (d power : Nat) : Prop where
  le_ten : d ≤ ten 17
  le_greatest : d * ten (power - 324) ≤ greatest

theorem areFew_of_digitsAt? {count : Nat} (h : place < infinite) (hcount : count < 17)
    (hdigits : digitsAt? place (lengthOf place - count) = some d) : AreFew d (lengthOf place - count) := by
  have hlength := lengthOf_le h
  obtain ⟨hle, hdenoted⟩ := le_of_digitsAt? hdigits (show lengthOf place ≤ count + (lengthOf place - count) by omega)
  refine ⟨Nat.le_trans hle (ten_mono count 17 (Nat.le_of_lt hcount)), ?_⟩
  by_cases htop : lengthOf place = 633
  · refine le_greatest_of_denoted (by omega) ?_
    rwa [hdenoted]
  · exact le_greatest hle (by omega) (by omega)

/-- The seventeen digits nearest to a number. -/
theorem areFew_seventeen (h : place < infinite) :
    AreFew (divNearest (parts place) (ten (lengthOf place - 17) <<< 1074)) (lengthOf place - 17) := by
  have hlength := lengthOf_le h
  have hle : divNearest (parts place) (ten (lengthOf place - 17) <<< 1074) ≤ ten 17 :=
    divNearest_le (shiftedTen_pos _ 1074) (Nat.le_of_lt (parts_lt (by omega)))
  refine ⟨hle, ?_⟩
  by_cases htop : lengthOf place = 633
  · have hlast : divNearest (parts (infinite - 1)) (ten 616 <<< 1074) = 17976931348623157 := by
      decide +kernel
    have hmost : divNearest (parts place) (ten 616 <<< 1074) ≤ 17976931348623157 :=
      hlast ▸ divNearest_mono (parts_mono (Nat.le_sub_one_of_lt h))
    have hpower : lengthOf place - 17 = 616 := by omega
    have hexponent : 616 - 324 = 292 := rfl
    rw [hpower, hexponent]
    exact mul_ten_mono 292 hmost
  · exact le_greatest hle (Nat.le_refl _) (by omega)

theorem areFew_of_fewest {power : Nat} (h : place < infinite) (hfewest : fewest place = (d, power)) :
    AreFew d power := by
  rw [fewest] at hfewest
  cases hfound : (List.range 17).findSome? (withDigits? place) with
  | none =>
      rw [hfound, Option.getD_none, seventeen] at hfewest
      cases hfewest
      exact areFew_seventeen h
  | some r =>
      rw [hfound, Option.getD_some] at hfewest
      obtain ⟨count, hcount, hat⟩ := List.exists_of_findSome?_eq_some hfound
      obtain ⟨digits, hdigits, hr⟩ := Option.map_eq_some_iff.1 hat
      cases hr.trans hfewest
      exact areFew_of_digitsAt? h (List.mem_range.1 hcount) hdigits

/-- **The digits that a finite number is written with**: there are no more than seventeen, and they denote no more
than the greatest number. -/
theorem le_of_shortest {power : Int} (h : place < infinite) (hshortest : shortest place = (d, power)) :
    d ≤ ten 17 ∧ d * ten power.toNat ≤ greatest := by
  cases hfewest : fewest place with
  | mk digits last =>
      have hfew := areFew_of_fewest h hfewest
      have hpower : ((last : Int) - 324).toNat = last - 324 := by omega
      rw [shortest, hfewest] at hshortest
      cases hshortest
      rw [hpower]
      exact ⟨hfew.le_ten, hfew.le_greatest⟩

end VersionCatalog.Double
