/-!
# Ranges of numbers

Whole numbers that fit a word, and decimals that lie in the range of double precision. A decimal leaves
that range where its value rounds to infinity.
-/

namespace VersionCatalog

/-- Whether a whole number fits a signed or an unsigned word of so many bits. -/
def fitsWord (bits : Nat) (n : Int) : Bool :=
  -(1 <<< (bits - 1) : Nat) ≤ n && n < (1 <<< bits : Nat)

/-- The least whole number that rounds to infinity. It lies half a step above the greatest number
there is, and a tie there goes up. -/
def overflowBound : Nat := 1 <<< 1024 - 1 <<< 970

/-- The number `digits · 10 ^ exponent`, negated or not. -/
structure Decimal where
  negative : Bool
  digits : Nat
  exponent : Int
  deriving DecidableEq

/-- Whether a decimal rounds to a finite number. How many digits it has before the point settles all
but the cases near the bound. -/
def Decimal.isFinite (d : Decimal) : Bool :=
  let places := (Nat.toDigits 10 d.digits).length + d.exponent
  d.digits == 0 || places < 309 ||
    (places == 309 &&
      d.digits * Nat.pow 10 d.exponent.toNat <
          overflowBound * Nat.pow 10 (-d.exponent).toNat)

end VersionCatalog
