import Jumpship.Js.Date
import Jumpship.Lib.Calendar

/-!
# The instants of the generated client

`strictRFC3339Nanos` of the generated TypeScript, on the code units of a string.
-/

namespace Client

open Calendar

/-! ## The pattern -/

/-- `\d` -/
def digitUnit? (u : ℕ) : Option Digit := if h : u - 48 < 10 ∧ 48 ≤ u then some ⟨u - 48, h.1⟩ else none

/-- `(\d{n})`: the digits of the group, and what comes after them. -/
def digitGroup : ℕ → List ℕ → Option (List Digit × List ℕ)
  | 0, units => some ([], units)
  | count + 1, u :: units => do
    let d ← digitUnit? u
    let (ds, rest) ← digitGroup count units
    some (d :: ds, rest)
  | _ + 1, [] => none

def unit (c : Char) : List ℕ → Option (List ℕ)
  | u :: units => if u = c.toNat then some units else none
  | [] => none

/-- `(\d*)` -/
def digitRun : List ℕ → List Digit × List ℕ
  | [] => ([], [])
  | u :: units =>
    (digitUnit? u).elim ([], u :: units) fun d => (d :: (digitRun units).1, (digitRun units).2)

/-- `(?:\.(\d{1,9}))?Z$`, an absent group being the empty one. -/
def fractionGroup (units : List ℕ) : Option (List Digit) :=
  if unit 'Z' units = some [] then some []
  else do
    let (ds, rest) := digitRun (← unit '.' units)
    if unit 'Z' rest = some [] && 1 ≤ ds.length && ds.length ≤ 9 then some ds else none

/-- `/^(\d{4})-(\d{2})-(\d{2})T(\d{2}):(\d{2}):(\d{2})(?:\.(\d{1,9}))?Z$/` -/
def timestampMatch (units : List ℕ) : Option Timestamp := do
  let (year, units) ← digitGroup 4 units
  let units ← unit '-' units
  let (month, units) ← digitGroup 2 units
  let units ← unit '-' units
  let (day, units) ← digitGroup 2 units
  let units ← unit 'T' units
  let (hour, units) ← digitGroup 2 units
  let units ← unit ':' units
  let (minute, units) ← digitGroup 2 units
  let units ← unit ':' units
  let (second, units) ← digitGroup 2 units
  let fraction ← fractionGroup units
  some ⟨year, month, day, hour, minute, second, fraction⟩

/-! ## strictRFC3339Nanos -/

/-- `padEnd(length, "0")` -/
def padEnd (length : ℕ) (ds : List Digit) : List Digit := ds ++ List.replicate (length - ds.length) 0

/-- The fields a time value is made from are the fields it has. -/
def hasFields (time : ℤ) (year month day hour minute second millisecond : ℕ) : Bool :=
  Js.yearFromTime time = year && Js.monthFromTime time = (month : ℤ) - 1 && Js.dateFromTime time = day &&
    Js.hourFromTime time = hour && Js.minFromTime time = minute && Js.secFromTime time = second &&
    Js.msFromTime time = millisecond

def strictRFC3339Nanos (value : List ℕ) : Option ℤ := do
  let groups ← timestampMatch value
  let year := Decimal.toNat groups.year
  let month := Decimal.toNat groups.month
  let day := Decimal.toNat groups.day
  let hour := Decimal.toNat groups.hour
  let minute := Decimal.toNat groups.minute
  let second := Decimal.toNat groups.second
  if month < 1 || 12 < month || day < 1 || 31 < day || 23 < hour || 59 < minute || 59 < second then none
  else
    let millisecond := Decimal.toNat ((padEnd 3 groups.fraction).take 3)
    let calendar := Js.setUTCFullYear (some 0) year (month - 1) day
    let time ← Js.setUTCHours calendar hour minute second millisecond
    if !hasFields time year month day hour minute second millisecond then none
    else some ((time - millisecond) * 1000000 + Decimal.toNat (padEnd 9 groups.fraction))

end Client
