import Jumpship.Lib.JsonText

/-!
# The proleptic Gregorian calendar

Days counted from 1970-01-01 over all years, and timestamps in UTC as they are written: a date, a time
of day and up to nine digits of a fraction of a second.
-/

namespace Calendar

/-! ## Days -/

section Days

def isLeap (year : ℤ) : Bool := year % 4 = 0 && (year % 100 ≠ 0 || year % 400 = 0)

def daysIn (month : ℕ) (year : ℤ) : ℕ :=
  if month = 2 then if isLeap year then 29 else 28
  else if month = 4 ∨ month = 6 ∨ month = 9 ∨ month = 11 then 30
  else 31

/-- The day a year starts on. -/
def yearStart (year : ℤ) : ℤ :=
  365 * (year - 1) + (year - 1) / 4 - (year - 1) / 100 + (year - 1) / 400 - 719162

/-- The days of a year before one of its months. -/
def monthStart (month : ℕ) (year : ℤ) : ℕ :=
  ((List.range (month - 1)).map fun m => daysIn (m + 1) year).sum

/-- The days from 1970-01-01 to a date. -/
def dayNumber (year : ℤ) (month day : ℕ) : ℤ := yearStart year + monthStart month year + (day - 1 : ℤ)

structure Date where
  year : ℤ
  month : ℕ
  day : ℕ
  month_pos : 1 ≤ month
  month_le : month ≤ 12
  day_pos : 1 ≤ day
  day_le : day ≤ daysIn month year

theorem isLeap_iff (year : ℤ) :
    isLeap year = true ↔ year % 4 = 0 ∧ (year % 100 ≠ 0 ∨ year % 400 = 0) := by
  simp [isLeap]

theorem daysIn_pos (month : ℕ) (year : ℤ) : 1 ≤ daysIn month year := by
  unfold daysIn
  split_ifs <;> omega

theorem daysIn_le (month : ℕ) (year : ℤ) : daysIn month year ≤ 31 := by
  unfold daysIn
  split_ifs <;> omega

theorem monthStart_succ (month : ℕ) (year : ℤ) (h : 1 ≤ month) :
    monthStart (month + 1) year = monthStart month year + daysIn month year := by
  obtain ⟨m, rfl⟩ := Nat.exists_eq_add_of_le h
  rw [monthStart, monthStart, Nat.add_sub_cancel, Nat.add_sub_cancel_left, Nat.add_comm 1 m,
    List.range_succ, List.map_append, List.sum_append, List.map_singleton, List.sum_singleton]

theorem yearStart_succ (year : ℤ) :
    yearStart (year + 1) = yearStart year + monthStart 13 year := by
  have hlen : monthStart 13 year = if isLeap year then 366 else 365 := by
    cases h : isLeap year <;> simp [monthStart, daysIn, h, List.range_succ]
  rw [hlen]
  unfold yearStart
  cases h : isLeap year with
  | true =>
    rw [isLeap_iff] at h
    simp only [if_true]
    omega
  | false =>
    rw [← Bool.not_eq_true, isLeap_iff] at h
    simp only [Bool.false_eq_true, if_false]
    omega

/-- The day after a date. -/
def Date.next (d : Date) : Date :=
  if h : d.day < daysIn d.month d.year then
    ⟨d.year, d.month, d.day + 1, d.month_pos, d.month_le, by omega, h⟩
  else if h' : d.month < 12 then
    ⟨d.year, d.month + 1, 1, by omega, h', le_rfl, daysIn_pos _ _⟩
  else ⟨d.year + 1, 1, 1, le_rfl, by omega, le_rfl, daysIn_pos _ _⟩

def Date.number (d : Date) : ℤ := dayNumber d.year d.month d.day

/-- The count goes up by one from a date to the next. -/
theorem number_next (d : Date) : d.next.number = d.number + 1 := by
  unfold Date.next
  have hlast := d.day_le
  split_ifs with h h'
  · simp only [Date.number, dayNumber]
    push_cast
    ring
  · simp only [Date.number, dayNumber, monthStart_succ _ _ d.month_pos]
    push_cast
    omega
  · have hmonth : d.month = 12 := by have := d.month_le; omega
    have hyear := monthStart_succ 12 d.year (by omega)
    have hfirst : monthStart 1 (d.year + 1) = 0 := rfl
    simp only [Date.number, dayNumber, yearStart_succ, hmonth, hfirst, hyear] at *
    push_cast
    omega

theorem dayNumber_epoch : dayNumber 1970 1 1 = 0 := by decide

end Days

/-! ## Timestamps -/

section Timestamps

open JsonText

/-- The digits of a timestamp. An absent fraction is the empty one. -/
structure Timestamp where
  (year month day hour minute second fraction : List Digit)

def fractionText (fraction : List Digit) : List Char :=
  if fraction = [] then [] else '.' :: fraction.map digitChar

def Timestamp.text (t : Timestamp) : List Char :=
  t.year.map digitChar ++ '-' :: (t.month.map digitChar ++ '-' :: (t.day.map digitChar ++ 'T' ::
    (t.hour.map digitChar ++ ':' :: (t.minute.map digitChar ++ ':' :: (t.second.map digitChar ++
      (fractionText t.fraction ++ ['Z']))))))

/-- The shape of a timestamp: `YYYY-MM-DDThh:mm:ss(.f)Z`, the fraction of one to nine digits. -/
structure Timestamp.Shaped (t : Timestamp) : Prop where
  year : t.year.length = 4
  month : t.month.length = 2
  day : t.day.length = 2
  hour : t.hour.length = 2
  minute : t.minute.length = 2
  second : t.second.length = 2
  fraction : t.fraction.length ≤ 9

/-- Its fields are those of a date and a time of day. -/
structure Timestamp.Valid (t : Timestamp) : Prop extends t.Shaped where
  month_pos : 1 ≤ Decimal.toNat t.month
  month_le : Decimal.toNat t.month ≤ 12
  day_pos : 1 ≤ Decimal.toNat t.day
  day_le : Decimal.toNat t.day ≤ daysIn (Decimal.toNat t.month) (Decimal.toNat t.year)
  hour_le : Decimal.toNat t.hour ≤ 23
  minute_le : Decimal.toNat t.minute ≤ 59
  second_le : Decimal.toNat t.second ≤ 59

/-- The nanoseconds of a fraction of a second. -/
def fractionNanos (fraction : List Digit) : ℕ :=
  Decimal.toNat fraction * 10 ^ (9 - fraction.length)

/-- The nanoseconds from 1970-01-01T00:00:00Z. -/
def Timestamp.sinceEpoch (t : Timestamp) : ℤ :=
  (((dayNumber (Decimal.toNat t.year) (Decimal.toNat t.month) (Decimal.toNat t.day) * 24
    + Decimal.toNat t.hour) * 60 + Decimal.toNat t.minute) * 60 + Decimal.toNat t.second) * 10 ^ 9
    + fractionNanos t.fraction

end Timestamps

end Calendar
