import VersionCatalog.Text.Digits

/-!
# Spans of time

How long something lasts, in seconds and nanoseconds, and its human form: numbers with units, the
largest unit first, as in `1day 1h` or `1s 500ms`. A month counts 30.44 days and a year 365.25 days.
What is read may also name the units in other words and in any order, and its numbers may have a
fraction, as long as that comes out even: `1.5h` is read, and a third of a second cannot be written.
-/

namespace VersionCatalog

/-- A span of time. -/
structure Span where
  seconds : Nat
  nanos : Nat
  seconds_lt : seconds < 1 <<< 64 := by omega
  nanos_lt : nanos < 1000000000 := by omega
  deriving DecidableEq

namespace Span

/-- A span of whole seconds and further nanoseconds, if its seconds fit a 64-bit word. -/
def of? (seconds nanos : Nat) : Option Span :=
  if h : seconds + nanos / 1000000000 < 1 <<< 64 then
    some ⟨seconds + nanos / 1000000000, nanos % 1000000000, h, by omega⟩
  else none

/-- A span of whole seconds. -/
def ofSeconds (seconds : Nat) (h : seconds < 1 <<< 64) : Span :=
  ⟨seconds, 0, h, by omega⟩

/-- The whole span in nanoseconds. -/
def totalNanos (s : Span) : Nat :=
  s.seconds * 1000000000 + s.nanos

/-! ### Writing -/

/-- Seconds in a year. -/
def yearSeconds : Nat := 31557600

/-- Seconds in a month. -/
def monthSeconds : Nat := 2630016

/-- The parts of a span with their units, the largest first. -/
def parts (s : Span) : List (Nat × String) :=
  let inYear := s.seconds % yearSeconds
  let inMonth := inYear % monthSeconds
  let inDay := inMonth % 86400
  let plural (n : Nat) (unit : String) := (n, if n = 1 then unit else unit ++ "s")
  [plural (s.seconds / yearSeconds) "year", plural (inYear / monthSeconds) "month",
    plural (inMonth / 86400) "day", (inDay / 3600, "h"), (inDay % 3600 / 60, "m"),
    (inDay % 60, "s"), (s.nanos / 1000000, "ms"), (s.nanos / 1000 % 1000, "us"),
    (s.nanos % 1000, "ns")]

/-- The human form of a span: its parts other than zero, with a blank between them. -/
def toText (s : Span) : String :=
  let shown := s.parts.filter fun (n, _) => n ≠ 0
  if shown.isEmpty then "0s"
  else " ".intercalate (shown.map fun (n, unit) => String.ofList (Text.digits n) ++ unit)

/-! ### Reading -/

/-- What one of a unit adds to a span, in seconds and nanoseconds. -/
def unit? (name : String) : Option (Nat × Nat) :=
  if ["nanos", "nsec", "ns"].contains name then some (0, 1)
  else if ["usec", "us", "µs"].contains name then some (0, 1000)
  else if ["millis", "msec", "ms"].contains name then some (0, 1000000)
  else if ["seconds", "second", "secs", "sec", "s"].contains name then some (1, 0)
  else if ["minutes", "minute", "min", "mins", "m"].contains name then some (60, 0)
  else if ["hours", "hour", "hrs", "hr", "h"].contains name then some (3600, 0)
  else if ["days", "day", "d"].contains name then some (86400, 0)
  else if ["weeks", "week", "wks", "wk", "w"].contains name then some (604800, 0)
  else if ["months", "month", "M"].contains name then some (monthSeconds, 0)
  else if ["years", "year", "yrs", "yr", "y"].contains name then some (yearSeconds, 0)
  else none

/-- Seconds and nanoseconds added to a sum of them. The nanoseconds together and the sum's seconds
have to fit a 64-bit word. -/
def add? (sum : Nat × Nat) (seconds nanos : Nat) : Option (Nat × Nat) :=
  let total := sum.2 + nanos
  let sum := (sum.1 + seconds + total / 1000000000, total % 1000000000)
  if total < 1 <<< 64 ∧ sum.1 < 1 <<< 64 then some sum else none

/-- A fraction of a number: `numerator / 10 ^ places`. -/
structure Fraction where
  numerator : Nat
  places : Nat
  deriving DecidableEq

/-- A fraction with a further digit; its two parts have to fit a 64-bit word. -/
def Fraction.push? (f : Fraction) (digit : Nat) : Option Fraction :=
  let f : Fraction := ⟨f.numerator * 10 + digit, f.places + 1⟩
  if f.numerator < 1 <<< 64 ∧ Nat.pow 10 f.places < 1 <<< 64 then some f else none

/-- So much of a quantity, if that is a whole number and is found within a 64-bit word. -/
def Fraction.of? (f : Fraction) (quantity : Nat) : Option Nat :=
  let product := f.numerator * quantity
  let parts := Nat.pow 10 f.places
  if product < 1 <<< 64 ∧ product % parts = 0 then some (product / parts) else none

/-- A fraction of a unit, in seconds and nanoseconds. That of an hour or a longer unit has to come to
whole seconds, that of a shorter one to whole nanoseconds, and a nanosecond has none. -/
def Fraction.ofUnit? (f : Fraction) (unit : Nat × Nat) : Option (Nat × Nat) :=
  if 3600 ≤ unit.1 then (f.of? unit.1).map fun seconds => (seconds, 0)
  else if unit = (0, 1) then none
  else (f.of? (unit.1 * 1000000000 + unit.2)).map fun nanos => (0, nanos)

/-- A number of units. -/
structure Count where
  whole : Nat
  /-- The digits after the point, where there is one. -/
  fraction : Option Fraction
  deriving DecidableEq

/-- A count of one digit. -/
def Count.ofDigit (digit : Nat) : Count :=
  ⟨digit, none⟩

/-- A count with a further digit; its whole part has to fit a 64-bit word. -/
def Count.push? (n : Count) (digit : Nat) : Option Count :=
  match n.fraction with
  | some f => (f.push? digit).map fun f => { n with fraction := some f }
  | none =>
    let whole := n.whole * 10 + digit
    if whole < 1 <<< 64 then some { n with whole } else none

/-- A count after its point, of which there is one at most. -/
def Count.point? (n : Count) : Option Count :=
  match n.fraction with
  | some _ => none
  | none => some { n with fraction := some ⟨0, 0⟩ }

/-- Whether a digit follows the point, if there is one. -/
def Count.isComplete (n : Count) : Bool :=
  n.fraction.all fun f => f.places ≠ 0

/-- A number of units added to a sum of seconds and nanoseconds, the whole ones first. What they make
in the unit's measure has to fit a 64-bit word. -/
def addCount? (sum : Nat × Nat) (n : Count) (name : String) : Option (Nat × Nat) := do
  let unit ← unit? name
  let seconds := n.whole * unit.1
  let nanos := n.whole * unit.2
  if seconds < 1 <<< 64 ∧ nanos < 1 <<< 64 then
    let sum ← add? sum seconds nanos
    match n.fraction with
    | none => some sum
    | some f =>
      let (seconds, nanos) ← f.ofUnit? unit
      add? sum seconds nanos
  else none

/-- What the reader of a span is in the middle of. -/
inductive Reading where
  /-- Before a number. -/
  | start
  /-- Inside a number. Blanks between its digits are passed over. -/
  | number (n : Count)
  /-- Inside the name of a unit, whose last letter is kept in front. -/
  | unit (n : Count) (letters : List Char)
  deriving DecidableEq

/-- A letter of a unit's name. -/
def isLetter (c : Char) : Bool :=
  c.isAlpha || c = 'µ'

/-- The value of a decimal digit. -/
def digitValue (c : Char) : Nat :=
  c.toNat - 48

/-- The sum of the parts in a text, after those before it. A number ends where its unit's name
starts, and a name ends at a blank or at the digit of the next number. -/
def sum? : Reading → (sum : Nat × Nat) → List Char → Option (Nat × Nat)
  | .start, sum, [] => some sum
  | .number _, _, [] => none
  | .unit n letters, sum, [] => addCount? sum n (String.ofList letters.reverse)
  | .start, sum, c :: cs =>
    if c.isDigit then sum? (.number (.ofDigit (digitValue c))) sum cs
    else if Text.isBlank c then sum? .start sum cs
    else none
  | .number n, sum, c :: cs =>
    if c.isDigit then
      match n.push? (digitValue c) with
      | none => none
      | some n => sum? (.number n) sum cs
    else if Text.isBlank c then sum? (.number n) sum cs
    else if isLetter c then if n.isComplete then sum? (.unit n [c]) sum cs else none
    else if c = '.' then
      match n.point? with
      | none => none
      | some n => sum? (.number n) sum cs
    else none
  | .unit n letters, sum, c :: cs =>
    if c.isDigit then
      match addCount? sum n (String.ofList letters.reverse) with
      | none => none
      | some sum => sum? (.number (.ofDigit (digitValue c))) sum cs
    else if Text.isBlank c then
      match addCount? sum n (String.ofList letters.reverse) with
      | none => none
      | some sum => sum? .start sum cs
    else if isLetter c then sum? (.unit n (c :: letters)) sum cs
    else none

/-- The span that a text denotes. It has to name at least one part; only a zero may stand without a
unit. -/
def parse? (s : String) : Option Span := do
  if s = "0" then some (.ofSeconds 0 (by decide))
  else if Text.isBlankText s then none
  else
    let (seconds, nanos) ← sum? .start (0, 0) s.toList
    of? seconds nanos

end Span

end VersionCatalog
