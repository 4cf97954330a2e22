import VersionCatalog.Number

/-!
# TOML values

A document as a tree of tables and lists. A table's fields stand in the order of the text, each name
once. A date stands as what readers see of it, a table with a single field. Numbers of any size can be
written; whether one can also be read depends on what reads it (`fits`).
-/

namespace VersionCatalog.Toml

/-- A value without parts. -/
inductive Scalar where
  | text (s : String)
  | bool (b : Bool)
  | int (n : Int)
  | real (d : Decimal)
  | infinite (negative : Bool)
  | notANumber
  deriving DecidableEq

/-- A value. -/
inductive Value where
  | scalar (s : Scalar)
  | list (items : List Value)
  | table (fields : List (String × Value))

/-- The fields of a table. -/
abbrev Table := List (String × Value)

/-! ### Size of numbers -/

/-- Whether a number fits: a whole one a word of so many bits, a written decimal double precision. -/
def Scalar.fits (bits : Nat) : Scalar → Bool
  | .int n => fitsWord bits n
  | .real d => d.isFinite
  | _ => true

mutual

/-- Whether all numbers in a value fit. -/
def Value.fits (bits : Nat) : Value → Bool
  | .scalar s => s.fits bits
  | .list items => itemsFit bits items
  | .table fields => fieldsFit bits fields

/-- Whether all numbers in the items of a list fit. -/
def itemsFit (bits : Nat) : List Value → Bool
  | [] => true
  | v :: rest => v.fits bits && itemsFit bits rest

/-- Whether all numbers in the fields of a table fit. -/
def fieldsFit (bits : Nat) : List (String × Value) → Bool
  | [] => true
  | (_, v) :: rest => v.fits bits && fieldsFit bits rest

end

/-! ### Typed readings -/

/-- A text. -/
def Value.text? : Value → Option String
  | .scalar (.text s) => some s
  | _ => none

/-- One of the words that `read` knows: its text, or a table in which it names the only field, an
empty table or list. -/
def Value.word? {α : Type} (read : String → Option α) : Value → Option α
  | .scalar (.text s) => read s
  | .table [(s, .table [])] | .table [(s, .list [])] => read s
  | _ => none

/-- The fields of a record with some known fields. It may be a list, which holds the known fields' values
in their order; more of them are of no account. Other fields than the known ones are passed over, though
their numbers have to fit 128 bits. -/
def Value.fields? (known : List String) : Value → Option Table
  | .table fields =>
    if fields.all fun (name, v) => known.contains name || v.fits 128 then some fields else none
  | .list items => some (known.zip items)
  | .scalar _ => none

/-- The fields of a record that is taken in whole before it is read. All its numbers have to fit 64 bits,
whether they mean something or not, and a list must not hold more values than there are known fields. -/
def Value.wholeFields? (known : List String) (v : Value) : Option Table :=
  if v.fits 64 then
    match v with
    | .table fields => some fields
    | .list items => if items.length ≤ known.length then some (known.zip items) else none
    | .scalar _ => none
  else none

/-- A field that stands for `default` where it is missing. -/
def Table.withDefault {α : Type} (t : Table) (name : String) (read : Value → Option α)
    (default : α) : Option α :=
  match t.lookup name with
  | none => some default
  | some v => read v

end VersionCatalog.Toml
