import VersionCatalog.Json.Number

/-!
# JSON tokens

The tokens of a JSON text, found in one pass over its characters. The pass keeps what it is in the
middle of (`Scan`) and needs no look-ahead: a word or number ends where a character that cannot
belong to it stands, and two words in a row are refused later, because no document has them.
-/

namespace VersionCatalog.Json

/-- The smallest parts of a JSON text. -/
inductive Token where
  | openRecord
  | closeRecord
  | openList
  | closeList
  | comma
  | colon
  /-- A string; one with half of a pair of code units in it has no characters to show. -/
  | text (s : Option String)
  | atom (value : Json)
  deriving DecidableEq

/-! ### Words -/

/-- The value that a word or number denotes. -/
def atom? (cs : List Char) : Option Json :=
  if cs = "true".toList then some (.bool true)
  else if cs = "false".toList then some (.bool false)
  else if cs = "null".toList then some .null
  else number? cs

/-! ### Strings -/

/-- The character that a backslash and one letter stand for. -/
def escaped? : Char → Option Char
  | '"' => some '"'
  | '\\' => some '\\'
  | '/' => some '/'
  | 'b' => some '\x08'
  | 'f' => some '\x0c'
  | 'n' => some '\n'
  | 'r' => some '\r'
  | 't' => some '\t'
  | _ => none

/-! ### The pass over the text -/

/-- What a scan is in the middle of. The characters of an unfinished word or string are kept with
the last one in front; those of a string are given up (`none`) at half of a pair of code units. -/
inductive Scan where
  /-- Between two tokens. -/
  | gap
  /-- Inside a word or number. -/
  | word (letters : List Char)
  /-- Inside a string. -/
  | text (done : Option (List Char))
  /-- Inside a string, after a backslash. -/
  | escape (done : Option (List Char))
  /-- Inside the four hexadecimal digits of an escape: how many are to come, and the value so far.
  `high` is the first half of a pair whose second half is being read. -/
  | code (done : Option (List Char)) (high : Option Nat) (left value : Nat)
  /-- After the first half of a pair, where a backslash should follow. -/
  | pair (done : Option (List Char)) (high : Nat)
  /-- After the first half of a pair and a backslash, where a `u` should follow. -/
  | pairEscape (done : Option (List Char)) (high : Nat)
  deriving DecidableEq

/-- Whether a character may stand between tokens. -/
def isGap (c : Char) : Bool :=
  c = ' ' || c = '\n' || c = '\t' || c = '\r'

/-- Whether a character may belong to a word or number. -/
def isWord (c : Char) : Bool :=
  c.isAlphanum || c = '-' || c = '+' || c = '.'

/-- The token that a single character makes up. -/
def punctuation? : Char → Option Token
  | '{' => some .openRecord
  | '}' => some .closeRecord
  | '[' => some .openList
  | ']' => some .closeList
  | ',' => some .comma
  | ':' => some .colon
  | _ => none

/-- What a character does between two tokens: the token that it is, if it is one, and what the scan
is in the middle of after it. -/
def Scan.start (c : Char) : Option (Option Token × Scan) :=
  if isGap c then some (none, .gap)
  else if c = '"' then some (none, .text (some []))
  else if isWord c then some (none, .word [c])
  else (punctuation? c).map fun t => (some t, .gap)

/-- The characters of a string and one more. -/
def push (c : Char) (done : Option (List Char)) : Option (List Char) :=
  done.map (c :: ·)

/-- What four hexadecimal digits add to a string. A code from the range of first halves waits for
its second half; any other half is no character. -/
def Scan.finishCode (done : Option (List Char)) (high : Option Nat) (value : Nat) : Scan :=
  match high with
  | none =>
    if 0xD800 ≤ value ∧ value < 0xDC00 then .pair done value
    else if 0xDC00 ≤ value ∧ value < 0xE000 then .text none
    else .text (push (Char.ofNat value) done)
  | some h =>
    if 0xDC00 ≤ value ∧ value < 0xE000 then
      .text (push (Char.ofNat (0x10000 + (h - 0xD800) * 0x400 + (value - 0xDC00))) done)
    else .text none

/-- What a character does in a string. -/
def Scan.inText (done : Option (List Char)) (c : Char) : Option (List Token × Scan) :=
  if c = '"' then some ([.text (done.map fun cs => String.ofList cs.reverse)], .gap)
  else if c = '\\' then some ([], .escape done)
  else if c.toNat < 0x20 then none
  else some ([], .text (push c done))

/-- What a character does after a backslash in a string. -/
def Scan.inEscape (done : Option (List Char)) (c : Char) : Option (List Token × Scan) :=
  if c = 'u' then some ([], .code done none 4 0)
  else (escaped? c).map fun c => ([], .text (push c done))

/-- One step of a scan: the tokens that a character completes, last one first, and what the scan is
in the middle of after it. -/
def Scan.step : Scan → Char → Option (List Token × Scan)
  | .gap, c => (start c).map fun (t, m) => (t.toList, m)
  | .word letters, c =>
    if isWord c then some ([], .word (c :: letters))
    else do
      let value ← atom? letters.reverse
      let (t, m) ← start c
      return (t.toList ++ [.atom value], m)
  | .text done, c => inText done c
  | .escape done, c => inEscape done c
  | .code done high left value, c => do
    let value := value * 16 + (← Text.hexValue? c)
    if left ≤ 1 then return ([], finishCode done high value)
    else return ([], .code done high (left - 1) value)
  | .pair done high, c => if c = '\\' then some ([], .pairEscape done high) else inText none c
  | .pairEscape done high, c =>
    if c = 'u' then some ([], .code done (some high) 4 0) else inEscape none c

/-- What the end of the text completes. -/
def Scan.finish : Scan → Option (List Token)
  | .gap => some []
  | .word letters => (atom? letters.reverse).map fun value => [.atom value]
  | _ => none

/-- The tokens of the rest of a text, after those found before it (last one first). -/
def scanFrom (found : List Token) : Scan → List Char → Option (List Token)
  | m, [] => m.finish.map fun last => (last ++ found).reverse
  | m, c :: cs =>
    match m.step c with
    | none => none
    | some (new, m) => scanFrom (new ++ found) m cs

/-- The tokens of a text. -/
def tokens? (cs : List Char) : Option (List Token) :=
  scanFrom [] .gap cs

end VersionCatalog.Json
