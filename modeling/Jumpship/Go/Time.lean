import Mathlib

/-!
# Instants

`time.Time` in UTC, as the nanoseconds since the zero time, and `time.Parse` of the layout
`RFC3339Nano` on what `contractTimestampPattern` lets through.
-/

namespace Go

/-- Nanoseconds since `0001-01-01T00:00:00Z`. -/
abbrev Time := ℤ

def Time.isZero (t : Time) : Bool := t = 0

def isDigit (c : Char) : Bool := '0' ≤ c && c ≤ '9'

def isLeap (year : ℕ) : Bool := year % 4 = 0 && (year % 100 ≠ 0 || year % 400 = 0)

def daysIn (month year : ℕ) : ℕ :=
  if month = 2 then if isLeap year then 29 else 28
  else if month ∈ [4, 6, 9, 11] then 30
  else 31

/-- Days from the zero time to the first of a year. -/
def daysBeforeYear (year : ℕ) : ℤ :=
  let y : ℤ := year - 1
  365 * y + y / 4 - y / 100 + y / 400

def daysBeforeMonth (month year : ℕ) : ℕ :=
  ((List.range (month - 1)).map fun m => daysIn (m + 1) year).sum

/-- `time.Date` in UTC. -/
def date (year month day hour minute second nanosecond : ℕ) : Time :=
  let days := daysBeforeYear year + daysBeforeMonth month year + (day - 1 : ℤ)
  ((days * 24 + hour) * 60 + minute) * 60 * 1000000000 + second * 1000000000 + nanosecond

/-- The number that so many digits write, and what comes after them. -/
def digits : ℕ → ℕ → List Char → Option (ℕ × List Char)
  | 0, n, s => some (n, s)
  | count + 1, n, c :: s => if isDigit c then digits count (10 * n + (c.toNat - 48)) s else none
  | _ + 1, _, [] => none

def literal (c : Char) : List Char → Option (List Char)
  | d :: s => if d = c then some s else none
  | [] => none

/-- A fraction of a second in nanoseconds: `(?:\.[0-9]{1,9})?Z$` -/
def fraction : List Char → Option ℕ
  | 'Z' :: [] => some 0
  | '.' :: s =>
    let text := s.takeWhile isDigit
    if s.drop text.length = ['Z'] && 1 ≤ text.length && text.length ≤ 9 then
      some (text.foldl (fun n c => 10 * n + (c.toNat - 48)) 0 * 10 ^ (9 - text.length))
    else none
  | _ => none

/-- `parseContractTime` -/
def parseContractTime (value : List Char) : Option Time := do
  let (year, s) ← digits 4 0 value
  let s ← literal '-' s
  let (month, s) ← digits 2 0 s
  let s ← literal '-' s
  let (day, s) ← digits 2 0 s
  let s ← literal 'T' s
  let (hour, s) ← digits 2 0 s
  let s ← literal ':' s
  let (minute, s) ← digits 2 0 s
  let s ← literal ':' s
  let (second, s) ← digits 2 0 s
  let nanosecond ← fraction s
  if month < 1 || 12 < month || day < 1 || daysIn month year < day || 23 < hour || 59 < minute ||
      59 < second then
    none
  else some (date year month day hour minute second nanosecond)

end Go
