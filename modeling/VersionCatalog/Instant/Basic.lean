/-!
# Instants

A point of time in UTC: a day of the Gregorian calendar, continued backwards without a break, the
second of that day, and nanoseconds. A leap second shares the number of the second before it and is
told apart by nanoseconds from a whole second upwards, so it lies between that second and the next
one. Instants are compared through `Instant.rank`, a single number that grows with time.
-/

namespace VersionCatalog

/-- Whether a year has a 29th of February. -/
def isLeapYear (year : Int) : Bool :=
  year % 4 == 0 && (year % 100 != 0 || year % 400 == 0)

/-- The number of days of a month. -/
def daysIn (year : Int) (month : Nat) : Nat :=
  if month = 2 then (if isLeapYear year then 29 else 28)
  else if month = 4 ∨ month = 6 ∨ month = 9 ∨ month = 11 then 30
  else 31

/-- A day of the calendar, within about 262 thousand years of the year 0. -/
structure Day where
  year : Int
  month : Nat
  day : Nat
  year_range : -262143 ≤ year ∧ year ≤ 262142 := by omega
  month_range : 1 ≤ month ∧ month ≤ 12 := by omega
  day_range : 1 ≤ day ∧ day ≤ daysIn year month := by decide
  deriving DecidableEq

namespace Day

/-- The day with this year, month and day of the month, if there is one. -/
def ofDate? (year : Int) (month day : Nat) : Option Day :=
  if hy : -262143 ≤ year ∧ year ≤ 262142 then
    if hm : 1 ≤ month ∧ month ≤ 12 then
      if hd : 1 ≤ day ∧ day ≤ daysIn year month then some ⟨year, month, day, hy, hm, hd⟩
      else none
    else none
  else none

/-- The day after this one, if it is in range. -/
def next? (d : Day) : Option Day :=
  if d.day < daysIn d.year d.month then ofDate? d.year d.month (d.day + 1)
  else if d.month < 12 then ofDate? d.year (d.month + 1) 1
  else ofDate? (d.year + 1) 1 1

/-- The day before this one, if it is in range. -/
def prev? (d : Day) : Option Day :=
  if 1 < d.day then ofDate? d.year d.month (d.day - 1)
  else if 1 < d.month then ofDate? d.year (d.month - 1) (daysIn d.year (d.month - 1))
  else ofDate? (d.year - 1) 12 31

/-- No month is longer than 31 days. -/
theorem day_le (d : Day) : d.day ≤ 31 := by
  have h := d.day_range.2
  unfold daysIn at h
  split at h
  · split at h <;> omega
  · split at h <;> omega

theorem ofDate?_self (d : Day) : ofDate? d.year d.month d.day = some d := by
  simp [ofDate?, d.year_range, d.month_range, d.day_range]

end Day

/-- A point of time. -/
structure Instant where
  date : Day
  /-- The second of the day. -/
  second : Nat
  /-- The nanoseconds since that second began; a whole second and more inside a leap second. -/
  nano : Nat
  second_lt : second < 86400 := by omega
  nano_lt : nano < 2000000000 := by omega
  /-- Leap seconds end a minute. -/
  leap_second : 1000000000 ≤ nano → second % 60 = 59 := by omega
  deriving DecidableEq

namespace Instant

/-- A number that grows with time: the fields of an instant as the digits of one number. -/
def rank (t : Instant) : Int :=
  (((t.date.year * 13 + t.date.month) * 32 + t.date.day) * 86400 + t.second) * 2000000000 + t.nano

instance : LT Instant := ⟨fun t u => t.rank < u.rank⟩

instance : LE Instant := ⟨fun t u => t.rank ≤ u.rank⟩

instance (t u : Instant) : Decidable (t < u) :=
  inferInstanceAs (Decidable (t.rank < u.rank))

instance (t u : Instant) : Decidable (t ≤ u) :=
  inferInstanceAs (Decidable (t.rank ≤ u.rank))

/-- Different instants have different ranks. -/
theorem rank_injective {t u : Instant} (h : t.rank = u.rank) : t = u := by
  obtain ⟨⟨y, m, d, hy, hm, hd⟩, s, n, hs, hn, hl⟩ := t
  obtain ⟨⟨y', m', d', hy', hm', hd'⟩, s', n', hs', hn', hl'⟩ := u
  have h1 : d ≤ 31 := Day.day_le ⟨y, m, d, hy, hm, hd⟩
  have h2 : d' ≤ 31 := Day.day_le ⟨y', m', d', hy', hm', hd'⟩
  simp only [rank] at h
  obtain ⟨rfl, rfl, rfl, rfl, rfl⟩ : y = y' ∧ m = m' ∧ d = d' ∧ s = s' ∧ n = n' := by omega
  rfl

/-- Compares two times of which either may be missing; a missing time comes before all others. -/
def compareOptional : Option Instant → Option Instant → Ordering
  | none, none => .eq
  | none, some _ => .lt
  | some _, none => .gt
  | some t, some u => compare t.rank u.rank

end Instant

end VersionCatalog
