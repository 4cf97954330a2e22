import VersionCatalog.Json.Token

/-!
# Reading JSON

A document is read from its tokens with a stack of the lists and records that are still open.
Nothing may follow it but blanks. A list or record inside `maxDepth` others is unreadable, and so is a
record with a name that has no characters to show.
-/

namespace VersionCatalog.Json

/-- The greatest number of lists and records that stand in one another. -/
def maxDepth : Nat := 127

/-- A list or record that is still open, with its parts so far, the last one first. -/
inductive Frame where
  | list (items : List Json)
  /-- A record whose value for `name` is being read. -/
  | record (fields : List (Option String × Json)) (name : Option String)

/-- What may come next. -/
inductive Expect where
  /-- A value. -/
  | value
  /-- The first item of a list, or its end. -/
  | firstItem
  /-- The name of a field. -/
  | name (fields : List (Option String × Json))
  /-- The name of the first field of a record, or its end. -/
  | firstName
  /-- The colon after the name of a field. -/
  | colon (fields : List (Option String × Json)) (name : Option String)
  /-- A comma or the end, after a value that has been read. -/
  | after (value : Json)

/-- The value of a string. -/
def ofString : Option String → Json
  | some s => .text s
  | none => .unreadable

/-- The list of items inside those that are still open. -/
def closeList (stack : List Frame) (items : List Json) : Json :=
  if stack.length < maxDepth then .list items else .unreadable

/-- The record of fields inside those that are still open. -/
def closeRecord (stack : List Frame) (fields : List (Option String × Json)) : Json :=
  match fields.mapM fun (name, value) => name.map fun name => (name, value) with
  | some fields => if stack.length < maxDepth then .record fields else .unreadable
  | none => .unreadable

/-- What starts a value: a whole value, or the opening of a list or record. -/
def begin (stack : List Frame) : Token → Option (List Frame × Expect)
  | .text s => some (stack, .after (ofString s))
  | .atom value => some (stack, .after value)
  | .openList => some (stack, .firstItem)
  | .openRecord => some (stack, .firstName)
  | _ => none

/-- One step of the reading. An open list's frame is put on the stack with its first item, a
record's with the name of its first field. -/
def advance : List Frame → Expect → Token → Option (List Frame × Expect)
  | stack, .value, t => begin stack t
  | stack, .firstItem, .closeList => some (stack, .after (closeList stack []))
  | stack, .firstItem, t => begin (.list [] :: stack) t
  | stack, .firstName, .closeRecord => some (stack, .after (closeRecord stack []))
  | stack, .firstName, .text s => some (stack, .colon [] s)
  | _, .firstName, _ => none
  | stack, .name fields, .text s => some (stack, .colon fields s)
  | _, .name _, _ => none
  | stack, .colon fields s, .colon => some (.record fields s :: stack, .value)
  | _, .colon _ _, _ => none
  | .list items :: stack, .after v, .comma => some (.list (v :: items) :: stack, .value)
  | .list items :: stack, .after v, .closeList =>
    some (stack, .after (closeList stack (v :: items).reverse))
  | .record fields s :: stack, .after v, .comma => some (stack, .name ((s, v) :: fields))
  | .record fields s :: stack, .after v, .closeRecord =>
    some (stack, .after (closeRecord stack ((s, v) :: fields).reverse))
  | _, .after _, _ => none

/-- The document that tokens make up after those that led to `stack` and `expect`. -/
def ofTokensFrom? (stack : List Frame) (expect : Expect) : List Token → Option Json
  | [] =>
    match stack, expect with
    | [], .after v => some v
    | _, _ => none
  | t :: ts =>
    match advance stack expect t with
    | none => none
    | some (stack, expect) => ofTokensFrom? stack expect ts

/-- The document that tokens make up. -/
def ofTokens? (ts : List Token) : Option Json :=
  ofTokensFrom? [] .value ts

/-- The document that a text denotes. -/
def parse? (s : String) : Option Json :=
  (tokens? s.toList).bind ofTokens?

end VersionCatalog.Json
