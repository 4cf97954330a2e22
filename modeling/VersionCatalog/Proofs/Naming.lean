import VersionCatalog.Naming
import VersionCatalog.Proofs.Digits

/-!
# Names that are read back

A name's text is read back as the name, so different names have different texts. A step leads to a later
name: names have a rank (`VersionName.rank`), which every step raises, so no chain of steps comes back to
where it began.

## Main results

* `VersionName.parse?_toText`: a name's text is read back.
* `VersionName.rank_lt_of_next?`: a step raises the rank.
* `Calculator.calculate_of_start`: what is calculated from a name.
* `Calculator.calculate_none`, `Calculator.calculate_some`: what a calculated name is.
-/

namespace VersionCatalog

namespace VersionName

open Text

/-! ### Text -/

theorem level?_digits {n : Nat} (h : n ≤ maxLevel) : level? (digits n) = some n := by
  have hall : (digits n).all Char.isDigit = true :=
    List.all_eq_true.2 fun _ hc => isDigit_of_mem_digits hc
  rw [level?, valueOf_digits, if_pos ⟨digits_ne_nil n, hall, h⟩]

/-- A text is cut at its first point. -/
theorem halves?_append {major minor : List Char} (h : '.' ∉ major) :
    halves? (major ++ '.' :: minor) = some (major, minor) := by
  have hne : ∀ c ∈ major, decide (c ≠ '.') = true := by
    intro c hc
    rw [decide_eq_true_eq]
    rintro rfl
    exact h hc
  rw [halves?, List.dropWhile_append_of_pos hne, List.takeWhile_append_of_pos hne]
  simp

/-- **A name's text is read back as the name.** -/
@[simp] theorem parse?_toText (n : VersionName) : parse? n.toText = some n := by
  have hpoint : '.' ∉ digits n.major := fun h => absurd (isDigit_of_mem_digits h) (by decide)
  rw [parse?, toText, String.toList_ofList, halves?_append hpoint]
  simp [level?_digits n.major_le, level?_digits n.minor_le, n.major_le, n.minor_le]

theorem toText_injective {m n : VersionName} (h : m.toText = n.toText) : m = n := by
  have hparsed := parse?_toText m
  rw [h, parse?_toText] at hparsed
  exact (Option.some.inj hparsed).symm

/-! ### Steps -/

/-- The place of a name among all names. -/
def rank (n : VersionName) : Nat :=
  n.major * (maxLevel + 1) + n.minor

/-- A step leads to a later name. -/
theorem rank_lt_of_next? {m n : VersionName} {step : Step} (h : m.next? step = some n) :
    m.rank < n.rank := by
  have hminor := m.minor_le
  cases step with
  | major =>
      obtain ⟨_, hn⟩ := Option.dite_none_right_eq_some.1 h
      rw [← Option.some.inj hn, rank, rank, Nat.add_mul]
      dsimp only
      omega
  | minor =>
      obtain ⟨_, hn⟩ := Option.dite_none_right_eq_some.1 h
      rw [← Option.some.inj hn, rank, rank]
      dsimp only
      omega

theorem parse_eq_ok {s : String} {n : VersionName} : parse s = .ok n ↔ parse? s = some n := by
  rw [parse]
  cases parse? s <;> simp

end VersionName

namespace Calculator

variable {c : Calculator} {m : VersionName} {name : String} {step : Step}

/-- The name that is calculated from: the base, or else the seed. -/
def start? (c : Calculator) (base : Option String) : Option VersionName :=
  base.elim (some c.seed) VersionName.parse?

@[simp] theorem start?_toText (c : Calculator) (n : VersionName) : c.start? (some n.toText) = some n :=
  VersionName.parse?_toText n

/-- What a step leads to is the next name, or nothing. -/
theorem calculate_of_start {base : Option String} (h : c.start? base = some m) (step : Step) :
    c.calculate base step = match m.next? step with
      | some n => .ok n.toText
      | none => .error (.validation s!"Version {m.toText} cannot be incremented") := by
  have hbase : c.calculate base step = (m.next step).map VersionName.toText := by
    cases base with
    | none =>
        obtain rfl := Option.some.inj h
        rfl
    | some s =>
        rw [calculate, VersionName.parse_eq_ok.2 h]
        rfl
  rw [hbase, VersionName.next]
  cases m.next? step <;> rfl

theorem calculate_eq_ok {base : Option String} (h : c.start? base = some m) :
    c.calculate base step = .ok name ↔ ∃ n, m.next? step = some n ∧ name = n.toText := by
  rw [calculate_of_start h]
  cases m.next? step <;> simp [eq_comm]

/-- A version without a base is named one step after the seed. -/
theorem calculate_none : c.calculate none step = .ok name ↔
    ∃ n, c.seed.next? step = some n ∧ name = n.toText :=
  calculate_eq_ok rfl

/-- A version with a base is named one step after the name that the base's text denotes. -/
theorem calculate_some {base : String} : c.calculate (some base) step = .ok name ↔
    ∃ m n, VersionName.parse? base = some m ∧ m.next? step = some n ∧ name = n.toText := by
  cases hparse : VersionName.parse? base with
  | none => simp [calculate, VersionName.parse, hparse, bind, Except.bind]
  | some m =>
      have hstart : c.start? (some base) = some m := hparse
      simp [calculate_eq_ok hstart]

end Calculator

end VersionCatalog
