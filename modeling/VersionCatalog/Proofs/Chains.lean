import Mathlib.Data.List.Nodup
import VersionCatalog.Proofs.Naming

/-!
# Chains of names

A chain of names takes one step after another, each from the name that the last successful step made; a step
that fails leaves the name as it was. Every step that succeeds goes up, and so the names of a chain are all
different, however long it is and wherever it starts. A step fails at the last number only, and a failure does
not end the chain: the other step can still be open.

## Main results

* `VersionName.isLeast_of_next?`: a step leads to the least name above those it leaves behind.
* `Calculator.exists_ascending`: the names of a chain ascend.
* `Calculator.chain_append`: a chain goes on from the name that its first part ends with.
* `Calculator.chains_ascend`: all of it.
-/

namespace VersionCatalog

namespace VersionName

variable {a b c m n : VersionName} {step : Step}

/-! ### The order of names -/

theorem compare_eq_lt_iff :
    a.compare b = .lt ↔ a.major < b.major ∨ a.major = b.major ∧ a.minor < b.minor := by
  rw [compare, Ordering.then_eq_lt, Nat.compare_eq_lt, Nat.compare_eq_eq, Nat.compare_eq_lt]

/-- The order of names is the order of their ranks. -/
theorem compare_eq_lt_iff_rank : a.compare b = .lt ↔ a.rank < b.rank := by
  have ha := a.minor_le
  have hb := b.minor_le
  rw [compare_eq_lt_iff, rank, rank]
  simp only [maxLevel] at ha hb ⊢
  omega

theorem compare_trans (hab : a.compare b = .lt) (hbc : b.compare c = .lt) : a.compare c = .lt :=
  compare_eq_lt_iff_rank.2 (Nat.lt_trans (compare_eq_lt_iff_rank.1 hab) (compare_eq_lt_iff_rank.1 hbc))

theorem ne_of_compare_eq_lt (h : a.compare b = .lt) : a ≠ b := by
  rintro rfl
  exact absurd (compare_eq_lt_iff_rank.1 h) (Nat.lt_irrefl _)

/-! ### One step -/

/-- The number that a step goes on from. -/
def level (n : VersionName) : Step → Nat
  | .major => n.major
  | .minor => n.minor

/-- The names that a step leaves behind: a major step all names with the same major number, a minor step the
name alone. -/
def LeftBehind (m : VersionName) : Step → VersionName → Prop
  | .major, k => k.major = m.major
  | .minor, k => k = m

/-- A name is the least one above those of some kind. -/
structure IsLeastAbove (kind : VersionName → Prop) (n : VersionName) : Prop where
  above : ∀ k, kind k → k.compare n = .lt
  least : ∀ l, (∀ k, kind k → k.compare l = .lt) → l = n ∨ n.compare l = .lt

/-- There is no step from the last number, and only there. -/
theorem next?_eq_none_iff : m.next? step = none ↔ m.level step = maxLevel := by
  have hmajor := m.major_le
  have hminor := m.minor_le
  cases step <;> simp only [next?, level, dite_eq_right_iff, reduceCtorEq, imp_false] <;> omega

/-- **A step leads to the least name above those it leaves behind.** -/
theorem isLeast_of_next? (h : m.next? step = some n) : IsLeastAbove (m.LeftBehind step) n := by
  cases step with
  | major =>
      obtain ⟨_, hn⟩ := Option.dite_none_right_eq_some.1 h
      obtain rfl := Option.some.inj hn
      refine ⟨fun k hk => compare_eq_lt_iff.2 (.inl ?_), fun l hl => ?_⟩
      · exact Nat.lt_succ_of_le (Nat.le_of_eq hk)
      · -- the last name with this major number is below, so the major number is a greater one
        have hlast := compare_eq_lt_iff.1 (hl ⟨m.major, maxLevel, m.major_le, Nat.le_refl _⟩ rfl)
        have hl_minor := l.minor_le
        rw [compare_eq_lt_iff]
        obtain ⟨i, j, _, _⟩ := l
        simp only [mk.injEq] at hlast ⊢
        dsimp only at hl_minor
        omega
  | minor =>
      obtain ⟨_, hn⟩ := Option.dite_none_right_eq_some.1 h
      obtain rfl := Option.some.inj hn
      refine ⟨fun k hk => ?_, fun l hl => ?_⟩
      · rw [show k = m from hk]
        exact compare_eq_lt_iff.2 (.inr ⟨rfl, Nat.lt_succ_self _⟩)
      · have habove := compare_eq_lt_iff.1 (hl m rfl)
        rw [compare_eq_lt_iff]
        obtain ⟨i, j, _, _⟩ := l
        simp only [mk.injEq] at habove ⊢
        omega

theorem compare_of_next? (h : m.next? step = some n) : m.compare n = .lt :=
  compare_eq_lt_iff_rank.2 (rank_lt_of_next? h)

end VersionName

namespace Calculator

variable {c : Calculator} {seed : String} {base : Option String} {m n start : VersionName} {step : Step}

/-! ### Chains -/

/-- The outcomes of a chain of steps: a step that succeeds makes the next base, a step that fails keeps it. -/
def chain (c : Calculator) : Option String → List Step → List (Except EngineError String)
  | _, [] => []
  | base, step :: steps =>
    match c.calculate base step with
    | .ok name => .ok name :: c.chain (some name) steps
    | .error e => .error e :: c.chain base steps

/-- The names among the outcomes of a chain. -/
def names (outcomes : List (Except EngineError String)) : List String :=
  outcomes.filterMap Except.toOption

/-- The base that a chain leaves for the next step: the last name, or the one it started from. -/
def baseAfter (base : Option String) (outcomes : List (Except EngineError String)) : Option String :=
  (names outcomes).getLast?.or base

@[simp] theorem names_ok (name : String) (outcomes : List (Except EngineError String)) :
    names (.ok name :: outcomes) = name :: names outcomes := rfl

@[simp] theorem names_error (e : EngineError) (outcomes : List (Except EngineError String)) :
    names (.error e :: outcomes) = names outcomes := rfl

@[simp] theorem length_chain (c : Calculator) (base : Option String) (steps : List Step) :
    (c.chain base steps).length = steps.length := by
  induction steps generalizing base with
  | nil => rfl
  | cons step steps ih =>
      rw [chain]
      split <;> rw [List.length_cons, List.length_cons, ih]

theorem baseAfter_ok (name : String) (outcomes : List (Except EngineError String)) :
    baseAfter base (.ok name :: outcomes) = baseAfter (some name) outcomes := by
  rw [baseAfter, baseAfter, names_ok, List.getLast?_cons]
  cases (names outcomes).getLast? <;> rfl

/-- **A chain goes on from the name that its first part ends with.** -/
theorem chain_append (c : Calculator) (base : Option String) (earlier later : List Step) :
    c.chain base (earlier ++ later)
      = c.chain base earlier ++ c.chain (baseAfter base (c.chain base earlier)) later := by
  induction earlier generalizing base with
  | nil => rfl
  | cons step earlier ih =>
      rw [List.cons_append, chain, chain]
      cases c.calculate base step with
      | ok name =>
          rw [baseAfter_ok]
          exact congrArg _ (ih (some name))
      | error e => exact congrArg _ (ih base)

/-- The outcome in any place of a chain. -/
theorem getElem?_chain (c : Calculator) (base : Option String) (earlier : List Step) (step : Step)
    (later : List Step) : (c.chain base (earlier ++ step :: later))[earlier.length]?
      = some (c.calculate (baseAfter base (c.chain base earlier)) step) := by
  rw [chain_append, List.getElem?_append_right (Nat.le_of_eq (length_chain ..)), length_chain, Nat.sub_self,
    chain]
  split <;> rename_i houtcome <;> rw [houtcome, List.getElem?_cons_zero]

/-- A step fails at the last number only, and for this reason. -/
theorem calculate_eq_error_iff (h : c.start? base = some m) {e : EngineError} :
    c.calculate base step = .error e ↔ m.level step = maxLevel ∧
      e = .validation s!"Version {m.toText} cannot be incremented" := by
  rw [calculate_of_start h, ← VersionName.next?_eq_none_iff]
  cases m.next? step <;> simp [eq_comm]

/-- **The names of a chain ascend** from the one that it starts from, and the last of them is the base that it
leaves. -/
theorem exists_ascending (hstart : c.start? base = some start) (steps : List Step) :
    ∃ ns : List VersionName, names (c.chain base steps) = ns.map VersionName.toText ∧
      (start :: ns).Pairwise (fun a b => a.compare b = .lt) ∧
      c.start? (baseAfter base (c.chain base steps)) = some (ns.getLast?.getD start) := by
  induction steps generalizing base start with
  | nil => exact ⟨[], rfl, List.pairwise_singleton .., hstart⟩
  | cons step steps ih =>
      rw [chain, calculate_of_start hstart]
      cases hnext : start.next? step with
      | none => exact ih hstart
      | some n =>
          obtain ⟨ns, hnames, hascend, hlast⟩ := ih (c.start?_toText n)
          have hup := VersionName.compare_of_next? hnext
          refine ⟨n :: ns, congrArg _ hnames, List.pairwise_cons.2 ⟨?_, hascend⟩, ?_⟩
          · rintro k (_ | ⟨_, hk⟩)
            · exact hup
            · exact VersionName.compare_trans hup (List.rel_of_pairwise_cons hascend hk)
          · dsimp only
            rw [baseAfter_ok, hlast, List.getLast?_cons, Option.getD_some]

/-- **Chains of names ascend.** Take any seed that is accepted, any base that is accepted or none, and any
steps, one after another.

* The names that are made ascend strictly, from the one that the chain starts from.
* So they are different texts, and none of them is the base. Each is read back, and is what is written for the
  name that it is read as.
* A step fails exactly if the number that it goes on from is 4294967295, and it is refused for this reason.
* A step that succeeds makes the least name above those that it leaves behind, which for a major step are all
  names with the same major number.

The last two are about the step in any place of the chain, and about the name `m` that the steps before it have
led to. -/
theorem chains_ascend (hseed : ofSeed seed = .ok c)
    (hstart : VersionName.parse (base.getD seed) = .ok start) (steps : List Step) :
    (∃ ns : List VersionName, names (c.chain base steps) = ns.map VersionName.toText ∧
      (start :: ns).Pairwise (fun a b => a.compare b = .lt)) ∧
    (names (c.chain base steps)).Nodup ∧
    (∀ name ∈ names (c.chain base steps), name ≠ base.getD seed ∧
      ∃ n, VersionName.parse name = .ok n ∧ n.toText = name) ∧
    ∀ earlier step later, steps = earlier ++ step :: later → ∃ m outcome,
      VersionName.parse ((baseAfter base (c.chain base earlier)).getD seed) = .ok m ∧
      (c.chain base steps)[earlier.length]? = some outcome ∧
      (∀ e, outcome = .error e ↔ m.level step = 4294967295 ∧
        e = .validation s!"Version {m.toText} cannot be incremented") ∧
      ∀ name, outcome = .ok name →
        ∃ n, name = n.toText ∧ VersionName.IsLeastAbove (m.LeftBehind step) n := by
  have hparsed : VersionName.parse seed = .ok c.seed := by
    rw [ofSeed] at hseed
    cases hs : VersionName.parse seed with
    | error e => rw [hs] at hseed; cases hseed
    | ok n => rw [hs] at hseed; cases hseed; rfl
  -- a text is read as what the chain starts from, whether it is a base or the seed
  have hread : ∀ {b : Option String} {n},
      VersionName.parse (b.getD seed) = .ok n ↔ c.start? b = some n := by
    rintro (_ | b) n
    · rw [Option.getD_none, hparsed]
      exact ⟨fun h => congrArg some (Except.ok.inj h), fun h => congrArg Except.ok (Option.some.inj h)⟩
    · exact VersionName.parse_eq_ok
  obtain ⟨ns, hnames, hascend, -⟩ := exists_ascending (hread.1 hstart) steps
  obtain ⟨habove, hpairs⟩ := List.pairwise_cons.1 hascend
  refine ⟨⟨ns, hnames, hascend⟩, ?_, fun name hname => ?_, ?_⟩
  · rw [hnames]
    have hnodup : ns.Nodup := hpairs.imp VersionName.ne_of_compare_eq_lt
    exact hnodup.map fun _ _ => VersionName.toText_injective
  · rw [hnames] at hname
    obtain ⟨n, hn, rfl⟩ := List.mem_map.1 hname
    have hback : VersionName.parse n.toText = .ok n :=
      VersionName.parse_eq_ok.2 (VersionName.parse?_toText n)
    refine ⟨fun hsame => VersionName.ne_of_compare_eq_lt (habove n hn) ?_, n, hback, rfl⟩
    rw [← hsame, hback] at hstart
    exact (Except.ok.inj hstart).symm
  · rintro earlier step later rfl
    obtain ⟨before, -, -, hbase⟩ := exists_ascending (hread.1 hstart) earlier
    refine ⟨_, _, hread.2 hbase, getElem?_chain .., fun e => calculate_eq_error_iff hbase, fun name hname => ?_⟩
    obtain ⟨n, hnext, rfl⟩ := (calculate_eq_ok hbase).1 hname
    exact ⟨n, rfl, VersionName.isLeast_of_next? hnext⟩

/-- At the last major number the major steps fail, and the chain goes on with minor ones. -/
theorem chain_at_last_major :
    ∃ c, ofSeed "007.4" = .ok c ∧
      names (c.chain (some "4294967295.08") [.major, .minor, .major, .minor])
        = ["4294967295.9", "4294967295.10"] ∧
      (names (c.chain (some "4294967295.08") [.major, .minor, .major, .minor])).Nodup ∧
      ∃ m outcome, VersionName.parse "4294967295.9" = .ok m ∧
        (c.chain (some "4294967295.08") [.major, .minor, .major, .minor])[2]? = some outcome ∧
        ∃ e, outcome = .error e := by
  have hseed : ofSeed "007.4" = .ok ⟨⟨7, 4, by decide, by decide⟩⟩ := by decide +kernel
  have hstart : VersionName.parse ((some "4294967295.08").getD "007.4")
      = .ok ⟨4294967295, 8, by decide, by decide⟩ := by
    decide +kernel
  obtain ⟨-, hnodup, -, hplaces⟩ := chains_ascend hseed hstart [.major, .minor, .major, .minor]
  refine ⟨_, hseed, by decide +kernel, hnodup, ?_⟩
  obtain ⟨m, outcome, hm, houtcome, hfails, -⟩ := hplaces [.major, .minor] .major [.minor] rfl
  have hnine : VersionName.parse "4294967295.9" = .ok m := hm
  have hlevel : m.level .major = 4294967295 := by
    obtain rfl : m = ⟨4294967295, 9, by decide, by decide⟩ :=
      Except.ok.inj (hnine.symm.trans (by decide +kernel))
    rfl
  exact ⟨m, outcome, hnine, houtcome, _, (hfails _).2 ⟨hlevel, rfl⟩⟩

end Calculator

end VersionCatalog
