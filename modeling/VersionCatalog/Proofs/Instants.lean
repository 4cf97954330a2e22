import VersionCatalog.Instant.Text
import VersionCatalog.Proofs.Digits

/-!
# Written instants

The text of an instant is read back as the same instant, to the nanosecond and in leap seconds too.

## Main results

* `Instant.parse?_toText`: a written instant is read back.
-/

namespace VersionCatalog.Instant

open Text (padded skipBlanks isBlank EndsRun padded_ne_nil isDigit_of_mem_padded valueOf_padded
  length_padded takeDigits_run readNumber_run readNumber_padded)

/-! ### Parts of a text -/

theorem isBlank_of_isDigit {c : Char} (h : c.isDigit = true) : isBlank c = false := by
  rw [Char.isDigit_iff_toNat] at h
  simp only [Char.reduceToNat] at h
  simp only [isBlank, Bool.or_eq_false_iff, Bool.and_eq_false_iff, decide_eq_false_iff_not,
    beq_eq_false_iff_ne]
  omega

theorem skipBlanks_cons {c : Char} (h : isBlank c = false) (cs : List Char) :
    skipBlanks (c :: cs) = c :: cs := by
  rw [skipBlanks, List.dropWhile_cons_of_neg (by simp [h])]

/-- No blanks stand before a written number. -/
theorem skipBlanks_padded (width n : Nat) (rest : List Char) :
    skipBlanks (padded width n ++ rest) = padded width n ++ rest := by
  obtain ⟨c, cs, hcs⟩ := List.exists_cons_of_ne_nil (padded_ne_nil width n)
  have hc := isDigit_of_mem_padded (hcs ▸ List.mem_cons_self)
  rw [hcs, List.cons_append, skipBlanks_cons (isBlank_of_isDigit hc)]

theorem skip_self {c : Char} (h : isBlank c = false) (cs : List Char) :
    skip c (c :: cs) = some cs := by
  simp [skip, skipBlanks_cons h]

theorem readPart_padded {n : Nat} (h : n < 100) (rest : List Char) :
    readPart (padded 2 n ++ rest) = some (n, rest) := by
  rw [readPart, skipBlanks_padded, readNumber_padded (by omega) (by omega)]

/-- A year ends before a hyphen, however many digits it has. -/
theorem readNumber_year (n : Nat) (rest : List Char) :
    Text.readNumber (padded 4 n ++ '-' :: rest).length (padded 4 n ++ '-' :: rest)
      = some (n, '-' :: rest) := by
  rw [readNumber_run (padded_ne_nil 4 n) (fun c hc => isDigit_of_mem_padded hc) (by simp)
    (.inl (.cons (by decide))), valueOf_padded]

theorem readYear_writeYear (year : Int) (rest : List Char) :
    readYear (writeYear year ++ '-' :: rest) = some (year, '-' :: rest) := by
  rw [writeYear]
  split
  · rename_i hyear
    obtain ⟨c, cs, hcs⟩ := List.exists_cons_of_ne_nil (padded_ne_nil 4 year.toNat)
    have hc := isDigit_of_mem_padded (hcs ▸ List.mem_cons_self)
    have hread : Text.readNumber 4 (padded 4 year.toNat ++ '-' :: rest)
        = some (year.toNat, '-' :: rest) :=
      readNumber_padded (by omega) (show year.toNat < 10000 by omega)
    rw [readYear, skipBlanks_padded, hcs, List.cons_append]
    split
    · rename_i heq
      rw [(List.cons.inj heq).1] at hc
      exact absurd hc (by decide)
    · rename_i heq
      rw [(List.cons.inj heq).1] at hc
      exact absurd hc (by decide)
    · rw [hcs, List.cons_append] at hread
      simp only [hread, Option.map_some, Int.toNat_of_nonneg hyear.1]
  · split
    · rw [List.cons_append, readYear, skipBlanks_cons (by decide)]
      simp only [readNumber_year, Option.map_some, Option.some.injEq, Prod.mk.injEq, and_true]
      omega
    · rw [List.cons_append, readYear, skipBlanks_cons (by decide)]
      simp only [readNumber_year, Option.map_some, Option.some.injEq, Prod.mk.injEq, and_true]
      omega

theorem readDay_write (d : Day) (rest : List Char) :
    readDay (writeYear d.year ++ '-' :: (padded 2 d.month ++ '-' :: (padded 2 d.day ++ rest)))
      = some (d, rest) := by
  have hmonth := d.month_range
  have hday := d.day_le
  rw [readDay, readYear_writeYear]
  simp [skip_self (show isBlank '-' = false by decide), readPart_padded (show d.month < 100 by omega),
    readPart_padded (show d.day < 100 by omega), Day.ofDate?_self]

/-- A fraction of `width` digits, of which all others are zeros. -/
theorem readFraction_padded {width n : Nat} (hwidth : 0 < width) (hle : width ≤ 9)
    (hn : n < Nat.pow 10 width) :
    readFraction ('.' :: (padded width n ++ ['Z'])) = some (n * Nat.pow 10 (9 - width), ['Z']) := by
  have hlength := length_padded hwidth hn
  rw [readFraction, takeDigits_run (fun c hc => isDigit_of_mem_padded hc) (by omega)
    (.inl (.cons (by decide)))]
  obtain ⟨c, cs, hcs⟩ := List.exists_cons_of_ne_nil (padded_ne_nil width n)
  have hvalue := valueOf_padded width n
  rw [hcs] at hlength hvalue ⊢
  simp only [hvalue, hlength]
  rfl

theorem readFraction_writeFraction {nano : Nat} (h : nano < 1000000000) :
    readFraction (writeFraction nano ++ ['Z']) = some (nano, ['Z']) := by
  rw [writeFraction]
  split
  · rename_i hzero
    rw [hzero]
    rfl
  · split
    · have hmillis : nano / 1000000 * 1000000 = nano := by omega
      rw [List.cons_append, readFraction_padded (by omega) (by omega)
        (show nano / 1000000 < 1000 by omega)]
      exact congrArg (fun n => some (n, ['Z'])) hmillis
    · split
      · have hmicros : nano / 1000 * 1000 = nano := by omega
        rw [List.cons_append, readFraction_padded (by omega) (by omega)
          (show nano / 1000 < 1000000 by omega)]
        exact congrArg (fun n => some (n, ['Z'])) hmicros
      · rw [List.cons_append, readFraction_padded (by omega) (by omega) h]
        exact congrArg (fun n => some (n, ['Z'])) (Nat.mul_one nano)

/-- The time of day, where `second` may be the sixtieth. -/
theorem readTime_write (hour minute second nano : Nat) (hhour : hour < 24) (hminute : minute < 60)
    (hsecond : second ≤ 60) (hnano : nano < 1000000000) :
    readTime (padded 2 hour ++ ':' :: (padded 2 minute ++ ':' :: (padded 2 second ++
        (writeFraction nano ++ ['Z'])))) =
      some (if second = 60 then (hour * 3600 + minute * 60 + 59, nano + 1000000000)
        else (hour * 3600 + minute * 60 + second, nano), ['Z']) := by
  rw [readTime, readPart_padded (by omega)]
  simp only [Option.bind_eq_bind, Option.bind_some, skip_self (show isBlank ':' = false by decide),
    readPart_padded (show minute < 100 by omega), readPart_padded (show second < 100 by omega),
    readFraction_writeFraction hnano, hhour, hminute, hsecond, and_self, if_true]
  split <;> rfl

/-! ### Instants -/

/-- In UTC an instant is what the clock shows. -/
theorem ofLocal?_self (t : Instant) : ofLocal? t.date t.second t.nano 0 = some t := by
  have hsecond := t.second_lt
  have hnano := t.nano_lt
  have hleap := t.leap_second
  have hshift : ¬ (t.second : Int) - 0 < 0 := by omega
  have hday : ¬ (86400 : Int) ≤ (t.second : Int) - 0 := by omega
  have htoNat : ((t.second : Int) - 0).toNat = t.second := by omega
  rw [ofLocal?]
  simp only [hshift, hday, if_false, Option.bind_eq_bind, Option.bind_some, htoNat]
  rw [dif_pos ⟨hsecond, hnano, hleap⟩]
  rfl

/-- **A written instant is read back.** -/
theorem parse?_toText (t : Instant) : parse? t.toText = some t := by
  have hsecond := t.second_lt
  have hnano := t.nano_lt
  have hleap := t.leap_second
  have hday := readDay_write t.date ('T' :: (padded 2 (t.second / 3600) ++ ':' ::
    (padded 2 (t.second / 60 % 60) ++ ':' ::
      (padded 2 (if 1000000000 ≤ t.nano then t.second % 60 + 1 else t.second % 60) ++
        (writeFraction (if 1000000000 ≤ t.nano then t.nano - 1000000000 else t.nano) ++ ['Z'])))))
  have htime := readTime_write (t.second / 3600) (t.second / 60 % 60)
    (if 1000000000 ≤ t.nano then t.second % 60 + 1 else t.second % 60)
    (if 1000000000 ≤ t.nano then t.nano - 1000000000 else t.nano)
    (by omega) (by omega) (by split <;> omega) (by split <;> omega)
  have hclock : (if (if 1000000000 ≤ t.nano then t.second % 60 + 1 else t.second % 60) = 60 then
      (t.second / 3600 * 3600 + t.second / 60 % 60 * 60 + 59,
        (if 1000000000 ≤ t.nano then t.nano - 1000000000 else t.nano) + 1000000000)
      else (t.second / 3600 * 3600 + t.second / 60 % 60 * 60 +
          (if 1000000000 ≤ t.nano then t.second % 60 + 1 else t.second % 60),
        if 1000000000 ≤ t.nano then t.nano - 1000000000 else t.nano)) = (t.second, t.nano) := by
    by_cases hnano : 1000000000 ≤ t.nano
    · have hlast := hleap hnano
      simp only [hnano, if_true, show t.second % 60 + 1 = 60 by omega, Prod.mk.injEq]
      omega
    · simp only [hnano, if_false, show ¬ t.second % 60 = 60 by omega, Prod.mk.injEq]
      exact ⟨by omega, trivial⟩
  rw [hclock] at htime
  have hwrite : t.toText.toList = _ := String.toList_ofList
  rw [parse?, hwrite, write]
  simp only [List.append_assoc, List.cons_append, hday, Option.bind_eq_bind, Option.bind_some,
    true_or, if_true, htime, readOffset, skipBlanks_cons (show isBlank 'Z' = false by decide)]
  simp [skipBlanks, ofLocal?_self]

end VersionCatalog.Instant
