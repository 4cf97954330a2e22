import VersionCatalog.Number

/-!
# Double precision

The numbers of double precision, without infinities and what is no number. All of them are whole
multiples of the least one above zero, 2⁻¹⁰⁷⁴, the unit here. Counted from zero upwards each magnitude
has a place: the numbers up to 2⁵³ units stand one unit apart, and the distance doubles with each 2⁵²
places after that.

Arithmetic is exact on units, and what comes out is rounded to the nearest place; of two places that are
as near the even one is taken. A decimal is read with such arithmetic and so is rounded more than
once. What is written of a number are the fewest digits that would denote it if they were rounded only
once. So a number that is written and read may become another one next to it.
-/

namespace VersionCatalog

/-- A finite number of double precision. -/
structure Double where
  negative : Bool
  /-- The place of the magnitude. -/
  place : Nat
  place_lt : place < 2047 <<< 52
  deriving DecidableEq

namespace Double

/-! ### Places -/

/-- The place after those of the finite numbers. -/
def infinite : Nat := 2047 <<< 52

/-- How many units the magnitude at a place is. -/
def units (place : Nat) : Nat :=
  (place - (place / 1 <<< 52 - 1) * 1 <<< 52) <<< (place / 1 <<< 52 - 1)

/-- The whole number nearest to a quotient; of two that are as near the even one. -/
def divNearest (n q : Nat) : Nat :=
  if q < 2 * (n % q) ∨ (2 * (n % q) = q ∧ n / q % 2 = 1) then n / q + 1 else n / q

/-- The place nearest to a quotient of units. -/
def nearest (n q : Nat) : Nat :=
  let step := (n / q).log2 - 52
  step * 1 <<< 52 + divNearest n (q <<< step)

/-! ### Arithmetic -/

/-- The place of a whole number. -/
def ofNat (n : Nat) : Nat :=
  nearest (n <<< 1074) 1

/-- A power of ten. -/
@[irreducible] def ten (e : Nat) : Nat :=
  Nat.pow 10 e

/-- The place of a power of ten. -/
def tenTo (e : Nat) : Nat :=
  ofNat (ten e)

/-- The place of a product. -/
def product (a b : Nat) : Nat :=
  nearest (units a * units b) (1 <<< 1074)

/-- The place of a quotient. -/
def quotient (a b : Nat) : Nat :=
  nearest (units a <<< 1074) (units b)

/-! ### Reading decimals -/

/-- A number divided by the greatest power of ten in range, a number of times or until nothing is
left. -/
def lowered : (times place : Nat) → Nat
  | 0, place => place
  | n + 1, place => if place = 0 then 0 else lowered n (quotient place (tenTo 308))

/-- The place of `digits · 10 ^ exponent`. The digits and the power of ten are rounded each for
itself, and so is their product or quotient. A power that is out of range is infinite if it multiplies
anything; if it divides, it does so in parts. -/
def scaled (digits : Nat) : (exponent : Int) → Nat
  | .ofNat e =>
    if digits = 0 then 0 else if e ≤ 308 then product (ofNat digits) (tenTo e) else infinite
  | .negSucc e => quotient (lowered (e / 308) (ofNat digits)) (tenTo (e % 308 + 1))

/-- The number that a decimal is read as, if it is in range. -/
def ofDecimal? (d : Decimal) : Option Double :=
  if h : scaled d.digits d.exponent < infinite then some ⟨d.negative, _, h⟩ else none

/-! ### Writing decimals -/

/-- The number at a place is `parts / 2 ^ 1074` in units of 10⁻³²⁴. -/
def parts (place : Nat) : Nat :=
  units place * ten 324

/-- How many digits stand before the point of the number at a place, in units of 10⁻³²⁴. -/
def lengthOf (place : Nat) : Nat :=
  (Nat.toDigits 10 (parts place >>> 1074)).length

/-- The place nearest to `digits · 10 ^ (power - 324)`. -/
def denoted (digits power : Nat) : Nat :=
  nearest ((digits * ten power) <<< 1074) (ten 324)

/-- The digits that denote the number at a place if the last one stands at a power of ten: those nearest
to the number, or else those on its other side. -/
def digitsAt? (place power : Nat) : Option Nat :=
  let step := ten power <<< 1074
  let below := parts place / step
  [divNearest (parts place) step, below, below + 1].find? fun digits => denoted digits power == place

/-- So many digits that denote the number at a place, if there are any, and the power of ten of the last
one. -/
def withDigits? (place count : Nat) : Option (Nat × Nat) :=
  (digitsAt? place (lengthOf place - count)).map fun digits => (digits, lengthOf place - count)

/-- The seventeen digits nearest to the number at a place. No number needs more. -/
def seventeen (place : Nat) : Nat × Nat :=
  (divNearest (parts place) (ten (lengthOf place - 17) <<< 1074), lengthOf place - 17)

/-- The fewest digits that denote the number at a place, and the power of ten of the last one, counted from
10⁻³²⁴. -/
def fewest (place : Nat) : Nat × Nat :=
  ((List.range 17).findSome? (withDigits? place)).getD (seventeen place)

/-- The digits that the number at a place is written with, and the power of ten of the last one. -/
def shortest (place : Nat) : Nat × Int :=
  ((fewest place).1, (fewest place).2 - 324)

end Double

end VersionCatalog
