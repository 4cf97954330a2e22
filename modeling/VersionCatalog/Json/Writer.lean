import VersionCatalog.Json.Token

/-!
# Writing JSON

The text of a document, either without blanks between its tokens or with each part of a list or record on a
line of its own (`Layout`). In strings a quote, a backslash and the control characters are escaped, and
everything else stands for itself. What is unreadable is written as `null`.
-/

namespace VersionCatalog.Json

/-! ### Strings and numbers -/

/-- The hexadecimal digit of a number below sixteen. -/
def hexDigit (n : Nat) : Char :=
  Nat.digitChar n

/-- How a character is written in a string. -/
def escape (c : Char) : List Char :=
  match c with
  | '"' => ['\\', '"']
  | '\\' => ['\\', '\\']
  | '\x08' => ['\\', 'b']
  | '\t' => ['\\', 't']
  | '\n' => ['\\', 'n']
  | '\x0c' => ['\\', 'f']
  | '\r' => ['\\', 'r']
  | c =>
    if c.toNat < 0x20 then
      ['\\', 'u', '0', '0', hexDigit (c.toNat / 16), hexDigit (c.toNat % 16)]
    else [c]

/-- A string between quotes. -/
def writeText (s : String) : List Char :=
  '"' :: s.toList.flatMap escape ++ ['"']

/-- A whole number. -/
def writeInt (n : Int) : List Char :=
  (Text.Numeral.ofInt n).write

/-- A number of double precision. -/
def writeReal (d : Double) : List Char :=
  (numeral d).write

/-! ### Documents -/

/-- How a document is spread over lines. -/
inductive Layout where
  /-- All on one line, without blanks. -/
  | compact
  /-- Each part on a line of its own, two blanks further in than what it is a part of. -/
  | indented
  deriving DecidableEq

namespace Layout

/-- What stands before a part that is so many lists and records deep, and before the end of one. -/
def line : Layout → (depth : Nat) → List Char
  | compact, _ => []
  | indented, depth => '\n' :: List.replicate (2 * depth) ' '

/-- What stands between the name and the value of a field. -/
def colon : Layout → List Char
  | compact => [':']
  | indented => [':', ' ']

end Layout

mutual

/-- The text of a document inside so many lists and records. -/
def write (l : Layout) (depth : Nat) : Json → List Char
  | .null | .unreadable => "null".toList
  | .bool true => "true".toList
  | .bool false => "false".toList
  | .int n => writeInt n
  | .real d => writeReal d
  | .text s => writeText s
  | .list [] => ['[', ']']
  | .list (x :: xs) =>
    '[' :: (l.line (depth + 1) ++ (write l (depth + 1) x ++
      (writeItems l (depth + 1) xs ++ (l.line depth ++ [']']))))
  | .record [] => ['{', '}']
  | .record ((k, x) :: xs) =>
    '{' :: (l.line (depth + 1) ++ (writeText k ++ (l.colon ++ (write l (depth + 1) x ++
      (writeFields l (depth + 1) xs ++ (l.line depth ++ ['}']))))))

/-- The items of a list after its first one, each with a comma before it. -/
def writeItems (l : Layout) (depth : Nat) : List Json → List Char
  | [] => []
  | x :: xs => ',' :: (l.line depth ++ (write l depth x ++ writeItems l depth xs))

/-- The fields of a record after its first one, each with a comma before it. -/
def writeFields (l : Layout) (depth : Nat) : List (String × Json) → List Char
  | [] => []
  | (k, x) :: xs =>
    ',' :: (l.line depth ++ (writeText k ++ (l.colon ++ (write l depth x ++
      writeFields l depth xs))))

end

/-- The text of a document in a layout. -/
def toTextIn (l : Layout) (j : Json) : String :=
  String.ofList (write l 0 j)

/-- The text of a document on one line. -/
def toText (j : Json) : String :=
  j.toTextIn .compact

end VersionCatalog.Json
