import VersionCatalog.Instant.Basic
import VersionCatalog.Text.Digits

/-!
# Instants as text

An instant is written in UTC after RFC 3339, with `Z` for the offset and 0, 3, 6 or 9 digits of the
second's fraction, the fewest that are exact; a year outside 0 to 9999 has a sign. Texts are read
with any offset below a day, and somewhat more freely than they are written: blanks may stand
between the parts, a blank may stand for the `T`, small letters for `T` and `Z`, `UTC` for `Z`, and
numbers may be short. Digits of the fraction after the ninth are dropped.
-/

namespace VersionCatalog.Instant

/-! ### Writing -/

/-- A year, in four digits or with a sign. -/
def writeYear (year : Int) : List Char :=
  if 0 ≤ year ∧ year ≤ 9999 then Text.padded 4 year.toNat
  else if year < 0 then '-' :: Text.padded 4 (-year).toNat
  else '+' :: Text.padded 4 year.toNat

/-- The fraction of a second, in the fewest groups of three digits that are exact. -/
def writeFraction (nano : Nat) : List Char :=
  if nano = 0 then []
  else if nano % 1000000 = 0 then '.' :: Text.padded 3 (nano / 1000000)
  else if nano % 1000 = 0 then '.' :: Text.padded 6 (nano / 1000)
  else '.' :: Text.padded 9 nano

/-- The characters of an instant's text. A leap second is written as second 60. -/
def write (t : Instant) : List Char :=
  let leap := 1000000000 ≤ t.nano
  writeYear t.date.year ++ '-' :: Text.padded 2 t.date.month ++ '-' :: Text.padded 2 t.date.day ++
    'T' :: Text.padded 2 (t.second / 3600) ++ ':' :: Text.padded 2 (t.second / 60 % 60) ++
    ':' :: Text.padded 2 (if leap then t.second % 60 + 1 else t.second % 60) ++
    writeFraction (if leap then t.nano - 1000000000 else t.nano) ++ ['Z']

/-- An instant's text. -/
def toText (t : Instant) : String :=
  String.ofList (t.write)

/-! ### Reading -/

/-- Blanks and then a given character. -/
def skip (c : Char) (cs : List Char) : Option (List Char) :=
  match Text.skipBlanks cs with
  | d :: rest => if d = c then some rest else none
  | [] => none

/-- Blanks and then a number of one or two digits. -/
def readPart (cs : List Char) : Option (Nat × List Char) :=
  Text.readNumber 2 (Text.skipBlanks cs)

/-- Blanks and then a year, of up to four digits or with a sign and any number of them. -/
def readYear (cs : List Char) : Option (Int × List Char) :=
  match Text.skipBlanks cs with
  | '-' :: rest => (Text.readNumber rest.length rest).map fun (n, rest) => (-n, rest)
  | '+' :: rest => (Text.readNumber rest.length rest).map fun (n, rest) => (n, rest)
  | rest => (Text.readNumber 4 rest).map fun (n, rest) => (n, rest)

/-- The day at the start of a text. -/
def readDay (cs : List Char) : Option (Day × List Char) := do
  let (year, cs) ← readYear cs
  let cs ← skip '-' cs
  let (month, cs) ← readPart cs
  let cs ← skip '-' cs
  let (day, cs) ← readPart cs
  let date ← Day.ofDate? year month day
  return (date, cs)

/-- The fraction of a second, as nanoseconds; none where there is no point. -/
def readFraction : List Char → Option (Nat × List Char)
  | '.' :: cs =>
    match Text.takeDigits 9 cs with
    | ([], _) => none
    | (run, rest) =>
      some (Text.valueOf run * Nat.pow 10 (9 - run.length), rest.dropWhile Char.isDigit)
  | cs => some (0, cs)

/-- The time of day at the start of a text, as second and nanoseconds. Second 60 is the leap second
after second 59. -/
def readTime (cs : List Char) : Option ((Nat × Nat) × List Char) := do
  let (hour, cs) ← readPart cs
  let cs ← skip ':' cs
  let (minute, cs) ← readPart cs
  let cs ← skip ':' cs
  let (second, cs) ← readPart cs
  let (nano, cs) ← readFraction cs
  if hour < 24 ∧ minute < 60 ∧ second ≤ 60 then
    if second = 60 then
      return ((hour * 3600 + minute * 60 + 59, nano + 1000000000), cs)
    else
      return ((hour * 3600 + minute * 60 + second, nano), cs)
  else none

/-- The sign of an offset; a minus may be a hyphen or the mathematical sign. -/
def readSign : List Char → Option (Bool × List Char)
  | '+' :: cs => some (false, cs)
  | '-' :: cs => some (true, cs)
  | '−' :: cs => some (true, cs)
  | _ => none

/-- Two digits. -/
def readPair : List Char → Option (Nat × List Char)
  | a :: b :: cs => if a.isDigit ∧ b.isDigit then some (Text.valueOf [a, b], cs) else none
  | _ => none

/-- The offset from UTC at the start of a text, in seconds. Colons and blanks may stand between its
hours and minutes. -/
def readOffset (cs : List Char) : Option (Int × List Char) :=
  match Text.skipBlanks cs with
  | 'Z' :: cs | 'z' :: cs => some (0, cs)
  | u :: t :: c :: cs =>
    if u.toUpper = 'U' ∧ t.toUpper = 'T' ∧ c.toUpper = 'C' then some (0, cs)
    else do
      let (negative, rest) ← readSign (u :: t :: c :: cs)
      let (hours, rest) ← readPair rest
      let (minutes, rest) ← readPair (rest.dropWhile fun c => c = ':' || Text.isBlank c)
      if minutes < 60 then
        let seconds : Int := hours * 3600 + minutes * 60
        return (if negative then -seconds else seconds, rest)
      else none
  | _ => none

/-- The instant at which clocks that are ahead of UTC by `offset` seconds show a day, a second and
nanoseconds. -/
def ofLocal? (date : Day) (second nano : Nat) (offset : Int) : Option Instant := do
  let shifted := (second : Int) - offset
  let (date, second) ←
    if shifted < 0 then (date.prev?).map fun d => (d, shifted + 86400)
    else if 86400 ≤ shifted then (date.next?).map fun d => (d, shifted - 86400)
    else some (date, shifted)
  if h : second.toNat < 86400 ∧ nano < 2000000000 ∧
      (1000000000 ≤ nano → second.toNat % 60 = 59) then
    return ⟨date, second.toNat, nano, h.1, h.2.1, h.2.2⟩
  else none

/-- The instant that a text denotes. -/
def parse? (s : String) : Option Instant := do
  let (date, cs) ← readDay s.toList
  let cs ← match cs with
    | c :: cs => if c = 'T' ∨ c = 't' ∨ c = ' ' then some cs else none
    | [] => none
  let ((second, nano), cs) ← readTime cs
  let (offset, cs) ← readOffset cs
  if (Text.skipBlanks cs).isEmpty ∧ -86400 < offset ∧ offset < 86400 then
    ofLocal? date second nano offset
  else none

end VersionCatalog.Instant
