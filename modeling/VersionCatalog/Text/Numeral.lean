import VersionCatalog.Number
import VersionCatalog.Text.Digits

/-!
# Numerals

How a number is written: a sign, a whole part, a fraction after a point, and a power of ten after an
`e`. What number is made of them is for the format of the document to say, and so is how a number is
spread over them.
-/

namespace VersionCatalog.Text

/-- A written number, taken apart. -/
structure Numeral where
  negative : Bool
  /-- The digits before the point: a single zero, or digits that do not start with one. -/
  whole : List Char
  /-- The digits after the point. -/
  places : List Char
  /-- The power of ten, where one is written. -/
  power : Option Int

namespace Numeral

/-! ### Reading -/

/-- The whole part at the start of a text, and the rest. -/
def wholePart : List Char → Option (List Char × List Char)
  | '0' :: rest => some (['0'], rest)
  | cs =>
    match takeDigits cs.length cs with
    | ([], _) => none
    | (run, rest) => some (run, rest)

/-- The digits after a point, at least one; none where there is no point. -/
def fraction : List Char → Option (List Char × List Char)
  | '.' :: cs =>
    match takeDigits cs.length cs with
    | ([], _) => none
    | (run, rest) => some (run, rest)
  | cs => some ([], cs)

/-- The power of ten that is written up to the end of the text; `some none` where none is. -/
def exponent : List Char → Option (Option Int)
  | [] => some none
  | e :: cs =>
    if e = 'e' ∨ e = 'E' then
      let (negative, cs) := match cs with
        | '+' :: cs => (false, cs)
        | '-' :: cs => (true, cs)
        | cs => (false, cs)
      match takeDigits cs.length cs with
      | ([], _) | (_, _ :: _) => none
      | (run, []) =>
        let n : Int := valueOf run
        some (some (if negative then -n else n))
    else none

/-- The numeral that a whole text is. -/
def parse? (cs : List Char) : Option Numeral := do
  let (negative, cs) := match cs with
    | '-' :: cs => (true, cs)
    | cs => (false, cs)
  let (whole, cs) ← wholePart cs
  let (places, cs) ← fraction cs
  let power ← exponent cs
  return { negative, whole, places, power }

/-! ### Meaning -/

/-- Whether a numeral is its whole part alone. -/
def isWhole (n : Numeral) : Bool :=
  n.places.isEmpty && n.power.isNone

/-- The number that the sign and the whole part denote. -/
def wholeValue (n : Numeral) : Int :=
  let magnitude : Int := valueOf n.whole
  if n.negative then -magnitude else magnitude

/-- The number that a numeral denotes. -/
def toDecimal (n : Numeral) : Decimal :=
  ⟨n.negative, valueOf (n.whole ++ n.places), n.power.getD 0 - n.places.length⟩

/-! ### Writing -/

/-- The sign of a number, where one is written. -/
def sign (negative : Bool) : List Char :=
  if negative then ['-'] else []

/-- The text of a whole number. -/
def writeInt (n : Int) : List Char :=
  sign (decide (n < 0)) ++ digits n.natAbs

/-- The text of a numeral. -/
def write (n : Numeral) : List Char :=
  sign n.negative ++ (n.whole ++ ((if n.places.isEmpty then [] else '.' :: n.places) ++
    n.power.elim [] fun power => 'e' :: writeInt power))

/-- The numeral of a whole number. -/
def ofInt (n : Int) : Numeral :=
  ⟨decide (n < 0), digits n.natAbs, [], none⟩

/-- The numeral of some digits, of which so many stand after the point. -/
def ofDigits (negative : Bool) (n places : Nat) (power : Option Int) : Numeral where
  negative := negative
  whole := digits (n / Nat.pow 10 places)
  places := if places = 0 then [] else padded places (n % Nat.pow 10 places)
  power := power

end Numeral

end VersionCatalog.Text
