import VersionCatalog.Double
import VersionCatalog.Keyed

/-!
# JSON values

A JSON document as a tree. Records keep their fields as they were written, with repeated names and
in the order of the text, because the readers of typed records refuse a repeated field. Where a
value is kept for its own sake, as the value of a property, it is kept in its canonical form
(`Json.canonical`): fields in the order of their names, the last of several fields of one name.

Whole numbers that fit a signed or an unsigned 64-bit word are `int`; every other number, with a
fraction, an exponent, a negative zero or more digits, is one of double precision.

A text can hold values that nothing can be made of: a number beyond double precision, half of a pair
of code units in a string, lists and records too deep in one another. Such a value is `unreadable`.
It does no harm where a reader of a typed record passes over it, and every other reader refuses it.
-/

namespace VersionCatalog

/-- A JSON document. -/
inductive Json where
  | null
  | bool (b : Bool)
  | int (n : Int)
  | real (d : Double)
  | text (s : String)
  | list (items : List Json)
  | record (fields : List (String × Json))
  | unreadable
  deriving Inhabited

namespace Json

/-! ### Decidable equality -/

mutual

/-- Equality of documents is decided by comparing them part by part. -/
def decEq : (a b : Json) → Decidable (a = b)
  | .null, .null => isTrue rfl
  | .bool a, .bool b => if h : a = b then isTrue (h ▸ rfl) else isFalse (by simpa using h)
  | .int a, .int b => if h : a = b then isTrue (h ▸ rfl) else isFalse (by simpa using h)
  | .real a, .real b => if h : a = b then isTrue (h ▸ rfl) else isFalse (by simpa using h)
  | .text a, .text b => if h : a = b then isTrue (h ▸ rfl) else isFalse (by simpa using h)
  | .list a, .list b =>
    match decEqItems a b with
    | isTrue h => isTrue (h ▸ rfl)
    | isFalse h => isFalse (by simpa using h)
  | .record a, .record b =>
    match decEqFields a b with
    | isTrue h => isTrue (h ▸ rfl)
    | isFalse h => isFalse (by simpa using h)
  | .unreadable, .unreadable => isTrue rfl
  | .null, .bool _ | .null, .int _ | .null, .real _ | .null, .text _ | .null, .list _
  | .null, .record _ | .bool _, .null | .bool _, .int _ | .bool _, .real _ | .bool _, .text _
  | .bool _, .list _ | .bool _, .record _ | .int _, .null | .int _, .bool _ | .int _, .real _
  | .int _, .text _ | .int _, .list _ | .int _, .record _ | .real _, .null | .real _, .bool _
  | .real _, .int _ | .real _, .text _ | .real _, .list _ | .real _, .record _ | .text _, .null
  | .text _, .bool _ | .text _, .int _ | .text _, .real _ | .text _, .list _ | .text _, .record _
  | .list _, .null | .list _, .bool _ | .list _, .int _ | .list _, .real _ | .list _, .text _
  | .list _, .record _ | .record _, .null | .record _, .bool _ | .record _, .int _
  | .record _, .real _ | .record _, .text _ | .record _, .list _ | .null, .unreadable
  | .bool _, .unreadable | .int _, .unreadable | .real _, .unreadable | .text _, .unreadable
  | .list _, .unreadable | .record _, .unreadable | .unreadable, .null | .unreadable, .bool _
  | .unreadable, .int _ | .unreadable, .real _ | .unreadable, .text _ | .unreadable, .list _
  | .unreadable, .record _ =>
    isFalse (by intro h; cases h)

/-- Equality of lists of documents. -/
def decEqItems : (a b : List Json) → Decidable (a = b)
  | [], [] => isTrue rfl
  | [], _ :: _ => isFalse (by simp)
  | _ :: _, [] => isFalse (by simp)
  | a :: as, b :: bs =>
    match decEq a b, decEqItems as bs with
    | isTrue h, isTrue hs => isTrue (h ▸ hs ▸ rfl)
    | isFalse h, _ => isFalse (by intro e; cases e; exact h rfl)
    | _, isFalse hs => isFalse (by intro e; cases e; exact hs rfl)

/-- Equality of lists of named documents. -/
def decEqFields : (a b : List (String × Json)) → Decidable (a = b)
  | [], [] => isTrue rfl
  | [], _ :: _ => isFalse (by simp)
  | _ :: _, [] => isFalse (by simp)
  | (k, a) :: as, (l, b) :: bs =>
    if hk : k = l then
      match decEq a b, decEqFields as bs with
      | isTrue h, isTrue hs => isTrue (hk ▸ h ▸ hs ▸ rfl)
      | isFalse h, _ => isFalse (by intro e; cases e; exact h rfl)
      | _, isFalse hs => isFalse (by intro e; cases e; exact hs rfl)
    else isFalse (by intro e; cases e; exact hk rfl)

end

instance : DecidableEq Json := decEq

/-! ### Canonical form -/

mutual

/-- The document with the fields of every record in the order of their names; of several fields
of one name only the last remains. -/
def canonical : Json → Json
  | .list items => .list (canonicalItems items)
  | .record fields => .record (Keyed.ofList (canonicalFields fields)).entries
  | other => other

/-- The canonical forms of a list's items. -/
def canonicalItems : List Json → List Json
  | [] => []
  | x :: xs => canonical x :: canonicalItems xs

/-- The canonical forms of a record's values. -/
def canonicalFields : List (String × Json) → List (String × Json)
  | [] => []
  | (k, x) :: xs => (k, canonical x) :: canonicalFields xs

end

/-! ### Depth and readability -/

mutual

/-- How many lists and records stand around the innermost part of a document. -/
def depth : Json → Nat
  | .list items => depthItems items + 1
  | .record fields => depthFields fields + 1
  | _ => 0

/-- The greatest depth of a list's items. -/
def depthItems : List Json → Nat
  | [] => 0
  | x :: xs => max (depth x) (depthItems xs)

/-- The greatest depth of a record's values. -/
def depthFields : List (String × Json) → Nat
  | [] => 0
  | (_, x) :: xs => max (depth x) (depthFields xs)

end

mutual

/-- Whether no part of a document is unreadable. -/
def isReadable : Json → Bool
  | .list items => readableItems items
  | .record fields => readableFields fields
  | .unreadable => false
  | _ => true

/-- Whether all items of a list are readable. -/
def readableItems : List Json → Bool
  | [] => true
  | x :: xs => isReadable x && readableItems xs

/-- Whether all values of a record are readable. -/
def readableFields : List (String × Json) → Bool
  | [] => true
  | (_, x) :: xs => isReadable x && readableFields xs

end

/-! ### Shorthands for writing documents -/

/-- The text of a choice, or `null`. -/
def textOrNull : Option String → Json
  | none => .null
  | some s => .text s

end Json

end VersionCatalog
