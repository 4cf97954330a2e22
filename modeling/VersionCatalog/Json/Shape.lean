import VersionCatalog.Json.Basic

/-!
# Typed readings of a document

Readers for the parts that typed records are made of. A record is read from its fields by name, in
any order; unknown fields are of no account, but a known field must not be there twice. A record may
also be written as the list of its fields' values in their fixed order, where the last ones may be
missing if they have a default. One of a fixed set of words is read from its text, or from a record
whose only field has that word for its name and `null` for its value.
-/

namespace VersionCatalog.Json

/-! ### Single values -/

def text? : Json → Option String
  | .text s => some s
  | _ => none

def bool? : Json → Option Bool
  | .bool b => some b
  | _ => none

/-- A whole number from zero to `limit`. -/
def natUpTo? (limit : Nat) : Json → Option Nat
  | .int n => if 0 ≤ n ∧ n ≤ limit then some n.toNat else none
  | _ => none

/-- A document kept for its own sake. -/
def value? (j : Json) : Option Json :=
  if j.isReadable then some j.canonical else none

/-- A choice: `null` is read as no value. -/
def optional? {α : Type} (read : Json → Option α) : Json → Option (Option α)
  | .null => some none
  | j => (read j).map some

/-- One of the words that `read` knows. -/
def word? {α : Type} (read : String → Option α) : Json → Option α
  | .text s => read s
  | .record [(s, .null)] => read s
  | _ => none

/-- The items of a list, each read with `read`. -/
def list? {α : Type} (read : Json → Option α) : Json → Option (List α)
  | .list items => items.mapM read
  | _ => none

/-- A table: the fields of a record, each read with `read`; the last field of a name counts. -/
def keyed? {α : Type} (read : Json → Option α) : Json → Option (Keyed α)
  | .record fields => do
    let entries ← fields.mapM fun (k, j) => (read j).map fun x => (k, x)
    return Keyed.ofList entries
  | _ => none

/-! ### Records -/

/-- The known fields of a record that is being read. -/
structure Fields where
  /-- Whether the record was written as a list of values. -/
  isList : Bool
  /-- The known fields that are there. -/
  found : List (String × Json)

/-- The known fields of a document that is a record or the list of a record's values. -/
def fields? (names : List String) : Json → Option Fields
  | .record fields =>
    let known := fields.filter fun (k, _) => names.contains k
    if (known.map (·.1)).Nodup then some ⟨false, known⟩ else none
  | .list items =>
    if items.length ≤ names.length then some ⟨true, names.zip items⟩ else none
  | _ => none

namespace Fields

variable {α : Type}

/-- A field that has to be there. -/
def required (fs : Fields) (name : String) (read : Json → Option α) : Option α :=
  (fs.found.lookup name).bind read

/-- A field that stands for `default` where it is missing. -/
def withDefault (fs : Fields) (name : String) (read : Json → Option α) (default : α) : Option α :=
  match fs.found.lookup name with
  | none => some default
  | some j => read j

/-- A choice that may be missing from a record, though not from a list of values. -/
def optional (fs : Fields) (name : String) (read : Json → Option α) : Option (Option α) :=
  match fs.found.lookup name with
  | none => if fs.isList then none else some none
  | some j => j.optional? read

end Fields

end VersionCatalog.Json
