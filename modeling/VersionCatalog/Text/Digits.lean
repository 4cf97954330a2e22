import VersionCatalog.Text.Blank

/-!
# Digits

Whole numbers as text: written with the fewest digits or filled up with zeros to a width, and read
from a run of ASCII digits. The digits are decimal ones, apart from the hexadecimal ones that codes of
characters are made of.
-/

namespace VersionCatalog.Text

/-- The decimal digits of a number, without leading zeros. -/
def digits (n : Nat) : List Char :=
  Nat.toDigits 10 n

/-- The decimal digits of a number, filled up with zeros on the left to at least `width`. -/
def padded (width n : Nat) : List Char :=
  List.replicate (width - (digits n).length) '0' ++ digits n

/-- The number that a run of digits denotes; leading zeros are of no account. -/
def valueOf (cs : List Char) : Nat :=
  Nat.ofDigitChars 10 cs 0

/-- The run of digits at the start of a text, of length `limit` at most, and the rest. -/
def takeDigits : (limit : Nat) → List Char → List Char × List Char
  | 0, cs => ([], cs)
  | _ + 1, [] => ([], [])
  | limit + 1, c :: cs =>
    if c.isDigit then
      let (run, rest) := takeDigits limit cs
      (c :: run, rest)
    else ([], c :: cs)

/-- The number written by one to `limit` digits at the start of a text, and the rest. -/
def readNumber (limit : Nat) (cs : List Char) : Option (Nat × List Char) :=
  match takeDigits limit cs with
  | ([], _) => none
  | (run, rest) => some (valueOf run, rest)

/-- The value of a hexadecimal digit. -/
def hexValue? (c : Char) : Option Nat :=
  if '0' ≤ c ∧ c ≤ '9' then some (c.toNat - 48)
  else if 'a' ≤ c ∧ c ≤ 'f' then some (c.toNat - 87)
  else if 'A' ≤ c ∧ c ≤ 'F' then some (c.toNat - 55)
  else none

/-! ### Small laws -/

/-- Reading the digits of a number gives the number back. -/
@[simp] theorem valueOf_digits (n : Nat) : valueOf (digits n) = n :=
  Nat.ofDigitChars_ten_toDigits

end VersionCatalog.Text
