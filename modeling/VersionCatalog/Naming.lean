import VersionCatalog.Error
import VersionCatalog.Text.Digits

/-!
# Names of versions

A version's name is `major.minor`, two whole numbers below 2 ^ 32. A new version is named one step
after its base, or after the calculator's seed when it has none: a major step goes to the next major
number and starts again at minor 0, a minor step goes to the next minor number. So `1.9` is followed
by `1.10`.
-/

namespace VersionCatalog

/-- The greatest number that a part of a name can be. -/
def maxLevel : Nat := 4294967295

/-- The name of a version. -/
structure VersionName where
  major : Nat
  minor : Nat
  major_le : major ≤ maxLevel := by decide
  minor_le : minor ≤ maxLevel := by decide
  deriving DecidableEq

/-- The steps from a name to a later one. -/
inductive Step where
  | major
  | minor
  deriving DecidableEq

namespace Step

/-- The word for a step. -/
def name : Step → String
  | major => "major"
  | minor => "minor"

/-- The step that a word names. -/
def ofName? : String → Option Step
  | "major" => some major
  | "minor" => some minor
  | _ => none

@[simp] theorem ofName?_name (s : Step) : ofName? s.name = some s := by
  cases s <;> rfl

end Step

namespace VersionName

/-! ### Text -/

/-- The text of a name, without leading zeros. -/
def toText (n : VersionName) : String :=
  String.ofList (Text.digits n.major ++ '.' :: Text.digits n.minor)

/-- The number that one part of a name denotes: ASCII digits, of which leading zeros are of no
account. -/
def level? (cs : List Char) : Option Nat :=
  if cs ≠ [] ∧ cs.all Char.isDigit ∧ Text.valueOf cs ≤ maxLevel then some (Text.valueOf cs)
  else none

/-- The two parts of a text, around its first point. -/
def halves? (cs : List Char) : Option (List Char × List Char) :=
  match cs.dropWhile (· ≠ '.') with
  | _ :: minor => some (cs.takeWhile (· ≠ '.'), minor)
  | [] => none

/-- The name that a text denotes. -/
def parse? (s : String) : Option VersionName := do
  let (major, minor) ← halves? s.toList
  let major ← level? major
  let minor ← level? minor
  if h : major ≤ maxLevel ∧ minor ≤ maxLevel then return ⟨major, minor, h.1, h.2⟩ else none

/-- The name that a text denotes; any other text is refused. -/
def parse (s : String) : Except EngineError VersionName :=
  match parse? s with
  | some n => .ok n
  | none => .error (.validation
      "Version string must be in the format of: {integer}.{integer}")

/-! ### Order and steps -/

/-- Names are ordered by their major, then by their minor number. -/
def compare (a b : VersionName) : Ordering :=
  (Ord.compare a.major b.major).then (Ord.compare a.minor b.minor)

/-- The name one step later, if its number is not the last one. -/
def next? (n : VersionName) : Step → Option VersionName
  | .major => if h : n.major + 1 ≤ maxLevel then some ⟨n.major + 1, 0, h, by decide⟩ else none
  | .minor => if h : n.minor + 1 ≤ maxLevel then some ⟨n.major, n.minor + 1, n.major_le, h⟩ else none

/-- The name one step later; after the last number there is none. -/
def next (n : VersionName) (step : Step) : Except EngineError VersionName :=
  match n.next? step with
  | some m => .ok m
  | none => .error (.validation s!"Version {n.toText} cannot be incremented")

end VersionName

/-- The rule for naming new versions. -/
structure Calculator where
  /-- The name after which a version without a base is named. -/
  seed : VersionName
  deriving DecidableEq

namespace Calculator

/-- The calculator that starts from `0.0`. -/
def standard : Calculator := ⟨⟨0, 0, by decide, by decide⟩⟩

/-- The calculator that starts from the name that a text denotes. -/
def ofSeed (s : String) : Except EngineError Calculator :=
  (VersionName.parse s).map fun n => ⟨n⟩

/-- The name of a version one step after its base, or after the seed. -/
def calculate (c : Calculator) (base : Option String) (step : Step) : Except EngineError String := do
  let base ← match base with
    | some s => VersionName.parse s
    | none => .ok c.seed
  let name ← base.next step
  return name.toText

end Calculator

end VersionCatalog
