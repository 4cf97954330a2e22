import Mathlib.Data.List.Induction
import VersionCatalog.Proofs.Naming

/-!
# Spellings of names

A name can be written in more than one way, because a number may have zeros in front. What is read as a name
is a text of two decimal numerals (`Text.Denotes`) with a point between them, whose numbers are not beyond the
last one. A name has one plain spelling, its own text; any other one becomes that when the superfluous zeros are
taken out of it (`VersionName.plain`).

## Main results

* `Text.digits_valueOf`: a run of digits without superfluous zeros is what is written for its number.
* `VersionName.parse?_eq_some_iff`: the texts that are read as a name.
* `VersionName.toText_of_parse?`: what is written for a name that was read.
* `VersionName.spellings_of_names`: all of it.
-/

namespace VersionCatalog

namespace Text

variable {cs : List Char} {n : Nat} {c : Char}

/-! ### Decimal numerals -/

/-- A decimal numeral denotes a number: one digit its value, and a further digit at the end its value on top of
ten times the number that was there. -/
inductive Denotes : List Char → Nat → Prop
  | digit {c : Char} (hc : '0' ≤ c ∧ c ≤ '9') : Denotes [c] (c.toNat - '0'.toNat)
  | further {cs : List Char} {n : Nat} {c : Char} (hcs : Denotes cs n) (hc : '0' ≤ c ∧ c ≤ '9') :
      Denotes (cs ++ [c]) (10 * n + (c.toNat - '0'.toNat))

theorem isDigit_iff : c.isDigit = true ↔ '0' ≤ c ∧ c ≤ '9' := by
  simp only [Char.isDigit, Bool.and_eq_true, decide_eq_true_eq, ge_iff_le]
  rfl

theorem valueOf_concat (cs : List Char) (c : Char) :
    valueOf (cs ++ [c]) = 10 * valueOf cs + (c.toNat - '0'.toNat) := by
  rw [valueOf, Nat.ofDigitChars_append, Nat.ofDigitChars_cons, Nat.ofDigitChars_nil]
  rfl

theorem valueOf_singleton (c : Char) : valueOf [c] = c.toNat - '0'.toNat := by
  rw [valueOf, Nat.ofDigitChars_cons, Nat.ofDigitChars_nil, Nat.mul_zero, Nat.zero_add]

/-- The numerals are the runs of digits, and they denote the values of these. -/
theorem denotes_iff : Denotes cs n ↔ cs ≠ [] ∧ (∀ c ∈ cs, c.isDigit = true) ∧ valueOf cs = n := by
  constructor
  · intro h
    induction h with
    | digit hc => exact ⟨by simp, by simpa using isDigit_iff.2 hc, valueOf_singleton _⟩
    | @further cs n c _ hc ih =>
        obtain ⟨-, hdigits, rfl⟩ := ih
        refine ⟨by simp, fun d hd => ?_, valueOf_concat cs c⟩
        rcases List.mem_append.1 hd with hd | hd
        · exact hdigits d hd
        · rw [List.mem_singleton.1 hd]
          exact isDigit_iff.2 hc
  · rintro ⟨hne, hdigits, rfl⟩
    -- by induction from the end, where numerals grow
    induction cs using List.reverseRecOn with
    | nil => exact absurd rfl hne
    | append_singleton cs c ih =>
        have hc := isDigit_iff.1 (hdigits c (by simp))
        cases cs with
        | nil =>
            rw [List.nil_append, valueOf_singleton]
            exact .digit hc
        | cons d cs =>
            rw [valueOf_concat]
            exact .further (ih (by simp) fun e he => hdigits e (List.mem_append_left _ he)) hc

/-! ### Superfluous zeros -/

/-- A run of digits without its superfluous zeros: a zero in front goes if something follows it. -/
def trimZeros : List Char → List Char
  | '0' :: c :: cs => trimZeros (c :: cs)
  | cs => cs

/-- Nothing but zeros in front is taken away. -/
theorem exists_zeros_trimZeros (cs : List Char) : ∃ k, cs = List.replicate k '0' ++ trimZeros cs := by
  induction cs using trimZeros.induct with
  | case1 c cs ih =>
      obtain ⟨k, hk⟩ := ih
      refine ⟨k + 1, ?_⟩
      rw [trimZeros, List.replicate_succ, List.cons_append, ← hk]
  | case2 cs hother => exact ⟨0, by rw [trimZeros.eq_2 cs hother]; rfl⟩

/-- No zero remains in front of anything. -/
theorem trimZeros_ne_zero_cons (cs : List Char) (c : Char) (rest : List Char) :
    trimZeros cs ≠ '0' :: c :: rest := by
  induction cs using trimZeros.induct with
  | case1 d cs ih => rwa [trimZeros]
  | case2 cs hother =>
      rw [trimZeros.eq_2 cs hother]
      exact fun heq => hother c rest heq

theorem lt_ten_of_isDigit (hc : c.isDigit = true) : c.toNat - '0'.toNat < 10 := by
  have hhigh : c.toNat ≤ 57 := (isDigit_iff.1 hc).2
  change c.toNat - 48 < 10
  omega

theorem digitChar_of_isDigit (hc : c.isDigit = true) : Nat.digitChar (c.toNat - '0'.toNat) = c := by
  have hlow : '0'.toNat ≤ c.toNat := (isDigit_iff.1 hc).1
  refine Char.toNat_inj.1 ?_
  rw [Nat.toNat_digitChar_of_lt_ten (lt_ten_of_isDigit hc)]
  exact Nat.add_sub_of_le hlow

/-- A number that is not zero is continued digit by digit. -/
theorem digits_append (hn : 0 < n) (hcs : ∀ c ∈ cs, c.isDigit = true) :
    digits n ++ cs = digits (Nat.ofDigitChars 10 cs n) := by
  induction cs generalizing n with
  | nil => rw [List.append_nil, Nat.ofDigitChars_nil]
  | cons c cs ih =>
      obtain ⟨hc, hcs⟩ := List.forall_mem_cons.1 hcs
      have hlt := lt_ten_of_isDigit hc
      have hnext : digits n ++ [c] = digits (10 * n + (c.toNat - '0'.toNat)) := by
        rw [digits, digits, ← Nat.toDigits_append_toDigits (by omega) hn hlt, Nat.toDigits_of_lt_base hlt,
          digitChar_of_isDigit hc]
      calc digits n ++ c :: cs = (digits n ++ [c]) ++ cs := by rw [List.append_assoc, List.singleton_append]
        _ = digits (10 * n + (c.toNat - '0'.toNat)) ++ cs := by rw [hnext]
        _ = digits (Nat.ofDigitChars 10 (c :: cs) n) := by
            rw [ih (by omega) hcs, Nat.ofDigitChars_cons]

/-- **A run of digits without superfluous zeros is what is written for its number.** -/
theorem digits_valueOf (hne : cs ≠ []) (hcs : ∀ c ∈ cs, c.isDigit = true) :
    digits (valueOf cs) = trimZeros cs := by
  induction cs using trimZeros.induct with
  | case1 c cs ih =>
      rw [trimZeros, ← ih (by simp) (List.forall_mem_cons.1 hcs).2, valueOf, Nat.ofDigitChars_cons]
      rfl
  | case2 cs hother =>
      rw [trimZeros.eq_2 cs hother]
      obtain ⟨c, rest, rfl⟩ := List.exists_cons_of_ne_nil hne
      obtain ⟨hc, hrest⟩ := List.forall_mem_cons.1 hcs
      have hchar := digitChar_of_isDigit hc
      have hlt := lt_ten_of_isDigit hc
      have hfirst : digits (c.toNat - '0'.toNat) = [c] := by
        rw [digits, Nat.toDigits_of_lt_base hlt, hchar]
      by_cases hzero : c.toNat - '0'.toNat = 0
      · -- a zero stands alone
        obtain rfl : c = '0' := by rw [← hchar, hzero]; rfl
        cases rest with
        | nil => rfl
        | cons d rest => exact absurd rfl (hother d rest)
      · rw [valueOf, Nat.ofDigitChars_cons, Nat.mul_zero, Nat.zero_add,
          ← digits_append (by omega) hrest, hfirst, List.singleton_append]

end Text

namespace VersionName

open Text

variable {s t : String} {n : VersionName}

/-! ### Names -/

/-- A text without superfluous zeros: each of its parts between points is trimmed. -/
def plain (s : String) : String :=
  String.ofList (['.'].intercalate ((s.toList.splitOn '.').map trimZeros))

theorem level?_eq_some_iff {cs : List Char} {k : Nat} :
    level? cs = some k ↔ Denotes cs k ∧ k ≤ maxLevel := by
  rw [level?, Option.ite_none_right_eq_some, denotes_iff, List.all_eq_true, Option.some.injEq]
  constructor
  · rintro ⟨⟨hne, hdigits, hle⟩, rfl⟩
    exact ⟨⟨hne, hdigits, rfl⟩, hle⟩
  · rintro ⟨⟨hne, hdigits, rfl⟩, hle⟩
    exact ⟨⟨hne, hdigits, hle⟩, rfl⟩

/-- A text that is cut in two has a point at the place. -/
theorem eq_of_halves? {cs major minor : List Char} (h : halves? cs = some (major, minor)) :
    cs = major ++ '.' :: minor := by
  rw [halves?] at h
  split at h
  · rename_i c rest hrest
    have hpoint : c = '.' := by
      have hhead := List.head?_dropWhile_not (p := fun c => decide (c ≠ '.')) (l := cs)
      rw [hrest] at hhead
      simpa using hhead
    obtain ⟨rfl, rfl⟩ := Prod.mk.inj (Option.some.inj h)
    have hwhole := (List.takeWhile_append_dropWhile (p := fun c => decide (c ≠ '.')) (l := cs)).symm
    rwa [hrest, hpoint] at hwhole
  · cases h

theorem point_notMem {cs : List Char} {k : Nat} (h : Denotes cs k) : '.' ∉ cs := by
  intro hmem
  exact absurd ((denotes_iff.1 h).2.1 '.' hmem) (by decide)

/-- **What is read as a name**: two numerals with a point between them. -/
theorem parse?_eq_some_iff : parse? s = some n ↔ ∃ major minor,
    s.toList = major ++ '.' :: minor ∧ Denotes major n.major ∧ Denotes minor n.minor := by
  simp only [parse?, Option.bind_eq_bind, Option.bind_eq_some_iff, Prod.exists, level?_eq_some_iff]
  constructor
  · rintro ⟨major, minor, hhalves, i, ⟨hmajor, -⟩, j, ⟨hminor, -⟩, hn⟩
    obtain ⟨_, hn⟩ := Option.dite_none_right_eq_some.1 hn
    obtain rfl := Option.some.inj hn
    exact ⟨major, minor, eq_of_halves? hhalves, hmajor, hminor⟩
  · rintro ⟨major, minor, hs, hmajor, hminor⟩
    refine ⟨major, minor, ?_, n.major, ⟨hmajor, n.major_le⟩, n.minor, ⟨hminor, n.minor_le⟩, ?_⟩
    · rw [hs, halves?_append (point_notMem hmajor)]
    · rw [dif_pos ⟨n.major_le, n.minor_le⟩]
      rfl

/-- **What is written for a name that was read** is the text without superfluous zeros. -/
theorem toText_of_parse? (h : parse? s = some n) : n.toText = plain s := by
  obtain ⟨major, minor, hs, hmajor, hminor⟩ := parse?_eq_some_iff.1 h
  have hparts : s.toList.splitOn '.' = [major, minor] := by
    have hjoined : s.toList = ['.'].intercalate [major, minor] := by simpa using hs
    rw [hjoined]
    refine List.splitOn_intercalate '.' ?_ (by simp)
    simpa using ⟨point_notMem hmajor, point_notMem hminor⟩
  obtain ⟨hmajor_ne, hmajor_digits, hmajor_value⟩ := denotes_iff.1 hmajor
  obtain ⟨hminor_ne, hminor_digits, hminor_value⟩ := denotes_iff.1 hminor
  rw [plain, hparts, toText, ← hmajor_value, ← hminor_value, digits_valueOf hmajor_ne hmajor_digits,
    digits_valueOf hminor_ne hminor_digits]
  simp

/-- Texts of one name are the same without superfluous zeros, and only those. -/
theorem eq_iff_plain_eq {m n : VersionName} (hs : parse? s = some m) (ht : parse? t = some n) :
    m = n ↔ plain s = plain t := by
  rw [← toText_of_parse? hs, ← toText_of_parse? ht]
  exact ⟨congrArg toText, toText_injective⟩

/-- **How names are spelled.**

* A text is read as a name exactly if it is two decimal numerals with a point between them, and they denote the
  name's numbers.
* So a text is read as some name exactly if it is two decimal numerals with a point between them, whose numbers
  are at most 4294967295. Any other text is refused, always for the same reason.
* The text of a name is read back as the name.
* What is written for a name that was read is the text without its superfluous zeros.
* Two texts that are read denote the same name exactly if they are the same without these. -/
theorem spellings_of_names :
    (∀ (s : String) (n : VersionName), parse s = .ok n ↔ ∃ major minor,
      s.toList = major ++ '.' :: minor ∧ Denotes major n.major ∧ Denotes minor n.minor) ∧
    (∀ s : String, (∃ n, parse s = .ok n) ↔ ∃ major minor i j, s.toList = major ++ '.' :: minor ∧
      Denotes major i ∧ Denotes minor j ∧ i ≤ 4294967295 ∧ j ≤ 4294967295) ∧
    (∀ s : String, (∀ n, parse s ≠ .ok n) → parse s = .error (.validation
      "Version string must be in the format of: {integer}.{integer}")) ∧
    (∀ n : VersionName, parse n.toText = .ok n) ∧
    (∀ (s : String) (n : VersionName), parse s = .ok n → n.toText = plain s) ∧
    ∀ (s t : String) (m n : VersionName), parse s = .ok m → parse t = .ok n →
      (m = n ↔ plain s = plain t) := by
  simp only [ne_eq, parse_eq_ok]
  refine ⟨fun s n => parse?_eq_some_iff, fun s => ⟨?_, ?_⟩, fun s hnone => ?_, parse?_toText,
    fun s n => toText_of_parse?, fun s t m n => eq_iff_plain_eq⟩
  · rintro ⟨n, hn⟩
    obtain ⟨major, minor, hs, hmajor, hminor⟩ := parse?_eq_some_iff.1 hn
    exact ⟨major, minor, n.major, n.minor, hs, hmajor, hminor, n.major_le, n.minor_le⟩
  · rintro ⟨major, minor, i, j, hs, hmajor, hminor, hi, hj⟩
    exact ⟨⟨i, j, hi, hj⟩, parse?_eq_some_iff.2 ⟨major, minor, hs, hmajor, hminor⟩⟩
  · rw [parse, Option.eq_none_iff_forall_ne_some.2 hnone]

/-- Zeros in front make no difference, however many they are. -/
example : plain "000.0070" = "0.70" ∧ parse? "000.0070" = parse? "0.70" := by decide +kernel

end VersionName

end VersionCatalog
