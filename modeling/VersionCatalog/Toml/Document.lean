import VersionCatalog.Toml.Line

/-!
# TOML documents

A document is built from its lines. A table may be opened once, and a key be given one value. How a
table came about decides what may still be done with it (`Origin`): one that was only passed through on
the way to an inner one may be opened, and one that the path of a key made may get further keys in
that way alone.
-/

namespace VersionCatalog.Toml

/-- How a table came about. -/
inductive Origin where
  /-- By a line that opens it. -/
  | opened
  /-- On the way to a table inside it. -/
  | passed
  /-- As a part of the path of a key. -/
  | dotted
  deriving DecidableEq

/-- A part of a document. -/
inductive Part where
  | value (value : Scalar)
  | table (origin : Origin) (parts : List (String × Part))
  /-- A list of tables, the last one first. -/
  | tables (rows : List (List (String × Part)))

/-- The parts of a table. -/
abbrev Parts := List (String × Part)

/-- Changes the part with a key, which may be missing; `f` refuses what must not be there. -/
def alter (key : String) (f : Option Part → Option Part) : Parts → Option Parts
  | [] => (f none).map fun p => [(key, p)]
  | (k, p) :: rest =>
    if k = key then (f (some p)).map fun p => (k, p) :: rest
    else (alter key f rest).map ((k, p) :: ·)

/-- Changes the table that a path leads to. Tables on the way are made, and of a list of tables the
last one is entered. -/
def within : List String → (Parts → Option Parts) → Parts → Option Parts
  | [], f, t => f t
  | key :: keys, f, t =>
    t |> alter key fun
      | none => (within keys f []).map (.table .passed)
      | some (.table origin parts) => (within keys f parts).map (.table origin)
      | some (.tables (row :: rows)) => (within keys f row).map fun row => .tables (row :: rows)
      | some (.tables []) | some (.value _) => none

/-- Opens the table that a path leads to. -/
def openTable (path : List String) (root : Parts) : Option Parts :=
  match path.getLast? with
  | none => none
  | some key =>
    root |> within path.dropLast (alter key fun
      | none => some (.table .opened [])
      | some (.table .passed parts) => some (.table .opened parts)
      | some _ => none)

/-- Opens the next one of the list of tables that a path leads to. -/
def openNext (path : List String) (root : Parts) : Option Parts :=
  match path.getLast? with
  | none => none
  | some key =>
    root |> within path.dropLast (alter key fun
      | none => some (.tables [[]])
      | some (.tables rows) => some (.tables ([] :: rows))
      | some _ => none)

/-- Gives a key that is not there yet a value. -/
def addValue (key : String) (value : Scalar) : Parts → Option Parts :=
  alter key fun
    | none => some (.value value)
    | some _ => none

/-- Gives the key at the end of a path a value. The path leads to a table that it makes, or that the
path of another key made. On the way there it makes tables too, goes through any that no line opened,
and enters the last one of a list of tables. -/
def setValue (value : Scalar) : List String → Parts → Option Parts
  | [], _ => none
  | [key], t => addValue key value t
  | [table, key], t =>
    t |> alter table fun
      | none => (addValue key value []).map (.table .dotted)
      | some (.table .dotted parts) => (addValue key value parts).map (.table .dotted)
      | some _ => none
  | table :: path, t =>
    t |> alter table fun
      | none => (setValue value path []).map (.table .dotted)
      | some (.table .opened _) => none
      | some (.table origin parts) => (setValue value path parts).map (.table origin)
      | some (.tables (row :: rows)) =>
        (setValue value path row).map fun row => .tables (row :: rows)
      | some (.tables []) | some (.value _) => none

/-- The document so far, and the path of the table that is open. -/
structure Draft where
  root : Parts
  current : List String

/-- Adds what a line says. -/
def Draft.add (d : Draft) : Line → Option Draft
  | .blank => some d
  | .table path => (openTable path d.root).map fun root => ⟨root, path⟩
  | .nextTable path => (openNext path d.root).map fun root => ⟨root, path⟩
  | .value path value =>
    (within d.current (setValue value path) d.root).map fun root => { d with root := root }

mutual

/-- A part as a value. -/
def Part.toValue : Part → Value
  | .value v => .scalar v
  | .table _ parts => .table (fields parts)
  | .tables rows => .list (rowTables rows).reverse

/-- The parts of a table as its fields. -/
def fields : List (String × Part) → List (String × Value)
  | [] => []
  | (k, p) :: rest => (k, p.toValue) :: fields rest

/-- The tables of a list as values. -/
def rowTables : List (List (String × Part)) → List Value
  | [] => []
  | t :: rest => .table (fields t) :: rowTables rest

end

/-- The lines of a text, without the characters that end them. A carriage return belongs to the end
of a line only before a line feed. -/
def lines : List Char → List (List Char)
  | [] => [[]]
  | '\n' :: rest => [] :: lines rest
  | '\r' :: '\n' :: rest => [] :: lines rest
  | c :: rest =>
    match lines rest with
    | [] => [[c]]
    | l :: ls => (c :: l) :: ls

/-- The document of a text. A mark of the byte order at its start is passed over. -/
def parse? (s : String) : Option Table := do
  let cs := match s.toList with
    | '\uFEFF' :: rest => rest
    | cs => cs
  let draft ← (lines cs).foldlM (fun d l => do d.add (← line? l)) (⟨[], []⟩ : Draft)
  return fields draft.root

end VersionCatalog.Toml
