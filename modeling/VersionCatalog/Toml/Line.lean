import VersionCatalog.Text.Numeral
import VersionCatalog.Toml.Value

/-!
# Lines of TOML

What one line of a plain TOML document says: it opens a table, opens the next table of a list, gives a
key a value, or says nothing. Values are strings in one line, numbers and truth values; a key may be a
path of keys with points between them.
-/

namespace VersionCatalog.Toml

/-- What a line says. -/
inductive Line where
  | blank
  /-- `[path]` -/
  | table (path : List String)
  /-- `[[path]]` -/
  | nextTable (path : List String)
  /-- `path = value` -/
  | value (path : List String) (value : Scalar)

/-- Whether a character may stand between the parts of a line. -/
def isGap (c : Char) : Bool :=
  c = ' ' || c = '\t'

/-- The text after the gap that it starts with. -/
def skipGap (cs : List Char) : List Char :=
  cs.dropWhile isGap

/-- Whether a character may not stand in a document at all. -/
def isControl (c : Char) : Bool :=
  (c.toNat < 0x20 && c ≠ '\t') || c.toNat = 0x7F

/-! ### Strings -/

/-- The character with a code given in hexadecimal digits. -/
def coded? (ds : List Char) : Option Char := do
  let values ← ds.mapM Text.hexValue?
  let n := values.foldl (fun n d => n * 16 + d) 0
  if n < 0xD800 ∨ (0xE000 ≤ n ∧ n < 0x110000) then some (Char.ofNat n) else none

/-- The character that a backslash and one letter stand for. -/
def escaped? : Char → Option Char
  | '"' => some '"'
  | '\\' => some '\\'
  | 'b' => some '\x08'
  | 'e' => some '\x1b'
  | 'f' => some '\x0c'
  | 'n' => some '\n'
  | 'r' => some '\r'
  | 't' => some '\t'
  | _ => none

/-- The rest of a string between double quotes, after the characters found so far (the last one in
front), and what follows it. -/
def quoted? (found : List Char) : List Char → Option (String × List Char)
  | [] => none
  | '"' :: rest => some (String.ofList found.reverse, rest)
  | '\\' :: 'x' :: a :: b :: rest => do quoted? ((← coded? [a, b]) :: found) rest
  | '\\' :: 'u' :: a :: b :: c :: d :: rest => do
    quoted? ((← coded? [a, b, c, d]) :: found) rest
  | '\\' :: 'U' :: a :: b :: c :: d :: e :: f :: g :: h :: rest => do
    quoted? ((← coded? [a, b, c, d, e, f, g, h]) :: found) rest
  | '\\' :: c :: rest => do quoted? ((← escaped? c) :: found) rest
  | c :: rest => if c = '\\' then none else quoted? (c :: found) rest

/-- The rest of a string between single quotes, in which every character stands for itself, and
what follows it. -/
def literal? (cs : List Char) : Option (String × List Char) :=
  match cs.dropWhile (· ≠ '\'') with
  | _ :: rest => some (String.ofList (cs.takeWhile (· ≠ '\'')), rest)
  | [] => none

/-! ### Keys -/

/-- Whether a character may stand in a key without quotes. -/
def isBare (c : Char) : Bool :=
  c.isAlphanum || c = '_' || c = '-'

/-- A single key, and what follows it. -/
def key? (cs : List Char) : Option (String × List Char) :=
  match cs with
  | '"' :: rest => quoted? [] rest
  | '\'' :: rest => literal? rest
  | _ =>
    match cs.takeWhile isBare with
    | [] => none
    | bare => some (String.ofList bare, cs.dropWhile isBare)

/-- The greatest number of keys in a path. -/
def maxKeys : Nat := 80

/-- A path of at most `limit` keys, and what follows it and the gap after it. -/
def path? : (limit : Nat) → List Char → Option (List String × List Char)
  | 0, _ => none
  | limit + 1, cs => do
    let (key, rest) ← key? (skipGap cs)
    match skipGap rest with
    | '.' :: rest =>
      let (keys, rest) ← path? limit rest
      return (key :: keys, rest)
    | rest => return ([key], rest)

/-! ### Values -/

/-- The digits of a number, where single underscores may stand between two of them. -/
def digits? (isDigit : Char → Bool) : List Char → Option (List Char)
  | [] => none
  | [c] => if isDigit c then some [c] else none
  | c :: '_' :: rest => if isDigit c then (digits? isDigit rest).map (c :: ·) else none
  | c :: rest => if isDigit c then (digits? isDigit rest).map (c :: ·) else none

/-- A whole number in another base. -/
def based? (base : Nat) (isDigit : Char → Bool) (cs : List Char) : Option Scalar := do
  let values ← (← digits? isDigit cs).mapM Text.hexValue?
  return .int (values.foldl (fun n d => n * base + d) 0 : Nat)

/-- The numeral of a decimal number, whole or not, without its underscores. -/
def numeral? (cs : List Char) : Option Text.Numeral := do
  let isPart (c : Char) := c.isDigit || c = '_'
  let whole ← digits? Char.isDigit (cs.takeWhile isPart)
  let rest := cs.dropWhile isPart
  let (places, rest) ← match rest with
    | '.' :: rest => do
      let places ← digits? Char.isDigit (rest.takeWhile isPart)
      pure ('.' :: places, rest.dropWhile isPart)
    | rest => pure ([], rest)
  let power ← match rest with
    | [] => some []
    | e :: rest =>
      if e = 'e' ∨ e = 'E' then
        match rest with
        | '+' :: rest => (digits? Char.isDigit rest).map ('e' :: ·)
        | '-' :: rest => (digits? Char.isDigit rest).map ('e' :: '-' :: ·)
        | rest => (digits? Char.isDigit rest).map ('e' :: ·)
      else none
  Text.Numeral.parse? (whole ++ places ++ power)

/-- The number that a numeral denotes. -/
def ofNumeral (n : Text.Numeral) : Scalar :=
  if n.isWhole then .int n.wholeValue else .real n.toDecimal

/-- A number after its sign, or without one. -/
def unsigned? (negative : Bool) (cs : List Char) : Option Scalar :=
  if cs = "inf".toList then some (.infinite negative)
  else if cs = "nan".toList then some .notANumber
  else (numeral? cs).map fun n => ofNumeral { n with negative }

/-- The value that a word or number denotes. -/
def plain? (cs : List Char) : Option Scalar :=
  match cs with
  | '+' :: rest => unsigned? false rest
  | '-' :: rest => unsigned? true rest
  | '0' :: 'x' :: rest => based? 16 (fun c => (Text.hexValue? c).isSome) rest
  | '0' :: 'o' :: rest => based? 8 (fun c => '0' ≤ c && c ≤ '7') rest
  | '0' :: 'b' :: rest => based? 2 (fun c => c = '0' || c = '1') rest
  | _ =>
    if cs = "true".toList then some (.bool true)
    else if cs = "false".toList then some (.bool false)
    else unsigned? false cs

/-- Whether a character may stand in a word or number. -/
def isPlain (c : Char) : Bool :=
  isBare c || c = '+' || c = '.'

/-- The value at the start of a text, and what follows it. -/
def value? (cs : List Char) : Option (Scalar × List Char) :=
  match cs with
  | '"' :: rest => (quoted? [] rest).map fun (s, rest) => (.text s, rest)
  | '\'' :: rest => (literal? rest).map fun (s, rest) => (.text s, rest)
  | _ => (plain? (cs.takeWhile isPlain)).map fun v => (v, cs.dropWhile isPlain)

/-! ### Whole lines -/

/-- Whether nothing but a comment follows. -/
def isEnd (cs : List Char) : Bool :=
  match skipGap cs with
  | [] | '#' :: _ => true
  | _ => false

/-- What a line says, if it is a line of a document. -/
def line? (cs : List Char) : Option Line := do
  if cs.any isControl then none
  else
    match skipGap cs with
    | [] | '#' :: _ => some .blank
    | '[' :: '[' :: rest =>
      let (path, rest) ← path? maxKeys rest
      match rest with
      | ']' :: ']' :: rest => if isEnd rest then some (.nextTable path) else none
      | _ => none
    | '[' :: rest =>
      let (path, rest) ← path? maxKeys rest
      match rest with
      | ']' :: rest => if isEnd rest then some (.table path) else none
      | _ => none
    | rest =>
      let (path, rest) ← path? maxKeys rest
      match rest with
      | '=' :: rest =>
        let (value, rest) ← value? (skipGap rest)
        if isEnd rest then some (.value path value) else none
      | _ => none

end VersionCatalog.Toml
