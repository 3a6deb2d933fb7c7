import Mathlib

/-!
# Date in UTC

The time values of ECMAScript and the methods of `Date` in UTC, under the names of its specification.
-/

namespace Js

/-- Milliseconds since 1970-01-01T00:00:00Z. An invalid date has none. -/
abbrev TimeValue := Option ℤ

/-! ## Days and years -/

def msPerDay : ℤ := 86400000

def day (t : ℤ) : ℤ := t / msPerDay

def timeWithinDay (t : ℤ) : ℤ := t % msPerDay

def daysInYear (year : ℤ) : ℤ :=
  if year % 4 ≠ 0 then 365
  else if year % 100 ≠ 0 then 366
  else if year % 400 ≠ 0 then 365
  else 366

def dayFromYear (year : ℤ) : ℤ :=
  365 * (year - 1970) + (year - 1969) / 4 - (year - 1901) / 100 + (year - 1601) / 400

/-- The last year that starts by a time: the estimate from the mean length of a year is off by at
most one. -/
def yearFromTime (t : ℤ) : ℤ :=
  let estimate := 1970 + 400 * day t / 146097
  if dayFromYear (estimate + 1) ≤ day t then estimate + 1
  else if dayFromYear estimate ≤ day t then estimate
  else estimate - 1

/-! ## Months and dates -/

def inLeapYear (year : ℤ) : ℤ := if daysInYear year = 366 then 1 else 0

/-- The day of its year that a month starts on, January being month 0. -/
def firstOfMonth (leap month : ℤ) : ℤ :=
  match month with
  | 0 => 0
  | 1 => 31
  | 2 => 59 + leap
  | 3 => 90 + leap
  | 4 => 120 + leap
  | 5 => 151 + leap
  | 6 => 181 + leap
  | 7 => 212 + leap
  | 8 => 243 + leap
  | 9 => 273 + leap
  | 10 => 304 + leap
  | _ => 334 + leap

def dayWithinYear (t : ℤ) : ℤ := day t - dayFromYear (yearFromTime t)

def monthOfDay (leap day : ℤ) : ℤ :=
  if day < 31 then 0
  else if day < 59 + leap then 1
  else if day < 90 + leap then 2
  else if day < 120 + leap then 3
  else if day < 151 + leap then 4
  else if day < 181 + leap then 5
  else if day < 212 + leap then 6
  else if day < 243 + leap then 7
  else if day < 273 + leap then 8
  else if day < 304 + leap then 9
  else if day < 334 + leap then 10
  else 11

def monthFromTime (t : ℤ) : ℤ := monthOfDay (inLeapYear (yearFromTime t)) (dayWithinYear t)

def dateFromTime (t : ℤ) : ℤ :=
  dayWithinYear t - firstOfMonth (inLeapYear (yearFromTime t)) (monthFromTime t) + 1

/-! ## The time of day -/

def hourFromTime (t : ℤ) : ℤ := t / 3600000 % 24

def minFromTime (t : ℤ) : ℤ := t / 60000 % 60

def secFromTime (t : ℤ) : ℤ := t / 1000 % 60

def msFromTime (t : ℤ) : ℤ := t % 1000

/-! ## Time values from their fields -/

def makeTime (hour min sec ms : ℤ) : ℤ := hour * 3600000 + min * 60000 + sec * 1000 + ms

/-- A month beyond its year counts on from it, and a date beyond its month likewise. -/
def makeDay (year month date : ℤ) : ℤ :=
  let ym := year + month / 12
  dayFromYear ym + firstOfMonth (inLeapYear ym) (month % 12) + date - 1

def makeDate (day time : ℤ) : ℤ := day * msPerDay + time

def timeClip (t : ℤ) : TimeValue := if 8640000000000000 < |t| then none else some t

def setUTCFullYear (t : TimeValue) (year month date : ℤ) : TimeValue :=
  timeClip (makeDate (makeDay year month date) (timeWithinDay (t.getD 0)))

def setUTCHours (t : TimeValue) (hour min sec ms : ℤ) : TimeValue := do
  timeClip (makeDate (day (← t)) (makeTime hour min sec ms))

end Js
