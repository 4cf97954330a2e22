import VersionCatalog.Double
import VersionCatalog.Json.Basic
import VersionCatalog.Text.Numeral

/-!
# JSON numbers

The number that a numeral stands for, and the numeral that a number is written with. A whole number that
fits a 64-bit word is exact. Any other is rounded: it is read from as many of its leading digits as fit
a word, where a digit before the point that is left out adds one to the power of ten, and a digit after it
is dropped.
-/

namespace VersionCatalog.Json

/-! ### Reading -/

/-- The number that digits make behind the digits of `n`, as far as it fits a 64-bit word, and how many
digits are left over. -/
def appendDigits (n : Nat) : List Char → Nat × Nat
  | [] => (n, 0)
  | c :: cs =>
    if n * 10 + (c.toNat - 48) < 1 <<< 64 then appendDigits (n * 10 + (c.toNat - 48)) cs
    else (n, cs.length + 1)

/-- The decimal of a numeral's leading digits. Digits after the point are appended even where some
before it are left out. -/
def leadingDecimal (n : Text.Numeral) : Decimal :=
  let whole := appendDigits 0 n.whole
  let all := appendDigits whole.1 n.places
  { negative := n.negative
    digits := all.1
    exponent := n.power.getD 0 + whole.2 - (n.places.length - all.2 : Nat) }

/-- The number that a numeral stands for. A negative zero is no whole number. -/
def ofNumeral (n : Text.Numeral) : Json :=
  if n.isWhole && fitsWord 64 n.wholeValue && !(n.negative && n.wholeValue == 0) then
    .int n.wholeValue
  else
    match Double.ofDecimal? (leadingDecimal n) with
    | some d => .real d
    | none => .unreadable

/-- The number that a whole text denotes. -/
def number? (cs : List Char) : Option Json :=
  (Text.Numeral.parse? cs).map ofNumeral

/-! ### Writing -/

/-- The numeral of a number that is not whole, or too great for a word. At least one digit stands on each
side of the point, unless the point would be far from the digits: then a power of ten is written. -/
def numeral (d : Double) : Text.Numeral :=
  if d.place = 0 then .ofDigits d.negative 0 1 none
  else
    let (n, power) := Double.shortest d.place
    let length := (Text.digits n).length
    if 0 ≤ power ∧ length + power ≤ 16 then
      .ofDigits d.negative (n * Double.ten (power.toNat + 1)) 1 none
    else if power < 0 ∧ -5 < length + power ∧ length + power ≤ 16 then
      .ofDigits d.negative n power.natAbs none
    else .ofDigits d.negative n (length - 1) (some (length - 1 + power))

end VersionCatalog.Json
