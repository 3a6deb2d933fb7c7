import Jumpship.Client.Time
import Jumpship.Go.Time
import Jumpship.Lib.Unicode

/-!
# The instants of contract timestamps

The verifier and the generated client read the same timestamps. Both sides meet at the valid
timestamps of the calendar: the verifier counts a timestamp's nanoseconds from the zero time, and the
client counts them from 1970-01-01 by a date it makes from the fields and compares with them.
-/

namespace Client

open Calendar JsonText Decimal

/-! ## Dates -/

section Dates

open Js

theorem dayFromYear_eq (year : ℤ) : dayFromYear year = yearStart year := by
  unfold dayFromYear yearStart
  omega

theorem inLeapYear_eq (year : ℤ) : inLeapYear year = if isLeap year then 1 else 0 := by
  unfold inLeapYear daysInYear
  cases h : isLeap year with
  | true =>
    rw [isLeap_iff] at h
    rw [if_pos rfl, if_pos]
    split_ifs <;> omega
  | false =>
    rw [← Bool.not_eq_true, isLeap_iff] at h
    rw [if_neg Bool.false_ne_true, if_neg]
    split_ifs <;> omega

theorem yearFromTime_eq {t year : ℤ} (h : yearStart year ≤ day t) (h' : day t < yearStart (year + 1)) :
    yearFromTime t = year := by
  have hestimate : 400 * day t / 146097 = year - 1971 ∨ 400 * day t / 146097 = year - 1970
      ∨ 400 * day t / 146097 = year - 1969 := by
    unfold yearStart at h h'
    omega
  have hnext : yearStart (year + 1) < yearStart (year + 2) := by
    unfold yearStart
    omega
  unfold yearFromTime
  simp only [dayFromYear_eq]
  rcases hestimate with he | he | he <;> rw [he]
  · rw [show 1970 + (year - 1971) + 1 = year by ring, if_pos h]
  · rw [show 1970 + (year - 1970) = year by ring, if_neg (not_le.2 h'), if_pos h]
  · rw [show 1970 + (year - 1969) = year + 1 by ring, show year + 1 + 1 = year + 2 by ring,
      if_neg (by omega), if_neg (by omega)]
    ring

theorem firstOfMonth_eq {month : ℕ} (year : ℤ) (h : 1 ≤ month) (h' : month ≤ 12) :
    firstOfMonth (inLeapYear year) (month - 1) = monthStart month year := by
  rw [inLeapYear_eq, monthStart]
  interval_cases month <;> cases hl : isLeap year <;> simp only [daysIn, hl] <;> rfl

theorem monthOfDay_eq_iff {month : ℕ} {leap x : ℤ} (hl : 0 ≤ leap) (hx : 0 ≤ x) (h : 1 ≤ month)
    (h' : month ≤ 11) :
    monthOfDay leap x = month - 1
      ↔ firstOfMonth leap (month - 1) ≤ x ∧ x < firstOfMonth leap month := by
  unfold monthOfDay
  interval_cases month
  all_goals
    simp only [firstOfMonth]
    norm_num
    omega

/-- A day counted from the start of a month lies in that month when the month has it. -/
theorem monthOfDay_eq {month day : ℕ} (year : ℤ) (h : 1 ≤ month) (h' : month ≤ 12) (hd : 1 ≤ day)
    (hd' : day ≤ 31) :
    monthOfDay (inLeapYear year) (monthStart month year + (day - 1)) = month - 1
      ↔ day ≤ daysIn month year := by
  have hleap : 0 ≤ inLeapYear year := by
    unfold inLeapYear
    split_ifs <;> simp
  by_cases hm : month ≤ 11
  · have hnext := @firstOfMonth_eq (month + 1) year (by omega) (by omega)
    rw [Nat.cast_succ, add_sub_cancel_right, monthStart_succ month year h] at hnext
    rw [monthOfDay_eq_iff hleap (by omega) h hm, hnext, firstOfMonth_eq year h h']
    push_cast
    omega
  · obtain rfl : month = 12 := by omega
    have hstart := @firstOfMonth_eq 12 year (by omega) (by omega)
    have hlast : daysIn 12 year = 31 := rfl
    simp only [firstOfMonth] at hstart
    rw [← hstart, hlast]
    unfold monthOfDay
    norm_num
    omega

theorem dayNumber_in_year {month day : ℕ} (year : ℤ) (h : 1 ≤ month) (h' : month ≤ 12) (hd : 1 ≤ day)
    (hd' : day ≤ 31) :
    yearStart year ≤ dayNumber year month day ∧ dayNumber year month day < yearStart (year + 1) := by
  rw [yearStart_succ]
  unfold dayNumber
  interval_cases month <;> cases hl : isLeap year <;>
    simp [monthStart, daysIn, hl, List.range_succ] <;> omega

theorem makeDay_eq {month day : ℕ} (year : ℤ) (h : 1 ≤ month) (h' : month ≤ 12) :
    makeDay year (month - 1) day = dayNumber year month day := by
  have hyear : ((month : ℤ) - 1) / 12 = 0 := by omega
  have hmonth : ((month : ℤ) - 1) % 12 = month - 1 := by omega
  unfold makeDay dayNumber
  simp only [hyear, hmonth, add_zero]
  rw [dayFromYear_eq, firstOfMonth_eq year h h']
  ring

theorem day_makeDate {d time : ℤ} (h : 0 ≤ time) (h' : time < msPerDay) : day (makeDate d time) = d := by
  unfold day makeDate msPerDay at *
  omega

theorem makeTime_lt {hour min sec ms : ℕ} (hh : hour ≤ 23) (hm : min ≤ 59) (hs : sec ≤ 59)
    (hms : ms ≤ 999) :
    0 ≤ makeTime hour min sec ms ∧ makeTime hour min sec ms < msPerDay := by
  unfold makeTime msPerDay
  omega

/-- The time made from fields in their ranges has these fields when the month has the day. -/
theorem hasFields_makeDate {month day hour min sec ms : ℕ} (year : ℕ) (h : 1 ≤ month)
    (h' : month ≤ 12) (hd : 1 ≤ day) (hd' : day ≤ 31) (hh : hour ≤ 23) (hm : min ≤ 59)
    (hs : sec ≤ 59) (hms : ms ≤ 999) :
    hasFields (makeDate (dayNumber year month day) (makeTime hour min sec ms)) year month day hour min
        sec ms = true
      ↔ day ≤ daysIn month year := by
  obtain ⟨hpos, hlt⟩ := makeTime_lt hh hm hs hms
  have hday := day_makeDate (d := dayNumber year month day) hpos hlt
  have hyear : yearFromTime (makeDate (dayNumber year month day) (makeTime hour min sec ms)) = year := by
    obtain ⟨hlo, hhi⟩ := dayNumber_in_year year h h' hd hd'
    exact yearFromTime_eq (hday.symm ▸ hlo) (hday.symm ▸ hhi)
  have hwithin : dayWithinYear (makeDate (dayNumber year month day) (makeTime hour min sec ms))
      = monthStart month year + (day - 1) := by
    rw [dayWithinYear, hday, hyear, dayFromYear_eq, dayNumber]
    ring
  have htime : hourFromTime (makeDate (dayNumber year month day) (makeTime hour min sec ms)) = hour
      ∧ minFromTime (makeDate (dayNumber year month day) (makeTime hour min sec ms)) = min
      ∧ secFromTime (makeDate (dayNumber year month day) (makeTime hour min sec ms)) = sec
      ∧ msFromTime (makeDate (dayNumber year month day) (makeTime hour min sec ms)) = ms := by
    unfold hourFromTime minFromTime secFromTime msFromTime makeDate makeTime msPerDay
    omega
  rw [← monthOfDay_eq year h h' hd hd']
  simp only [hasFields, dateFromTime, monthFromTime, hyear, hwithin, htime, decide_true, Bool.true_and,
    Bool.and_true, Bool.and_eq_true, decide_eq_true_eq, and_iff_left_iff_imp]
  intro hmonth
  rw [hmonth, firstOfMonth_eq year h h']
  ring

/-- The setters hold no time value of these years for invalid. -/
theorem setUTCHours_setUTCFullYear {year month day hour min sec ms : ℕ} (hy : year < 10000)
    (h : 1 ≤ month) (h' : month ≤ 12) (hd : 1 ≤ day) (hd' : day ≤ 31) (hh : hour ≤ 23) (hm : min ≤ 59)
    (hs : sec ≤ 59) (hms : ms ≤ 999) :
    setUTCHours (setUTCFullYear (some 0) year (month - 1) day) hour min sec ms
      = some (makeDate (dayNumber year month day) (makeTime hour min sec ms)) := by
  obtain ⟨hpos, hlt⟩ := makeTime_lt hh hm hs hms
  have hbound : -719528 ≤ dayNumber year month day ∧ dayNumber year month day < 2932897 := by
    obtain ⟨hlo, hhi⟩ := dayNumber_in_year year h h' hd hd'
    unfold yearStart at hlo hhi
    omega
  have hclip : ∀ time : ℤ, 0 ≤ time → time < msPerDay →
      timeClip (makeDate (dayNumber year month day) time)
        = some (makeDate (dayNumber year month day) time) := by
    intro time hpos hlt
    unfold timeClip makeDate msPerDay at *
    rw [if_neg]
    rw [not_lt, abs_le]
    omega
  have hzero : timeWithinDay 0 = 0 := rfl
  rw [setUTCFullYear, makeDay_eq year h h', Option.getD_some, hzero,
    hclip 0 le_rfl (by unfold msPerDay; omega)]
  simp only [setUTCHours, Option.bind_eq_bind, Option.bind_some]
  rw [day_makeDate le_rfl (by unfold msPerDay; omega), hclip _ hpos hlt]

end Dates

/-! ## The pattern -/

section Pattern

/-- The code units of digits. -/
def digitUnits (ds : List Digit) : List ℕ := (ds.map digitChar).map Char.toNat

theorem digitUnit?_eq_some {u : ℕ} {d : Digit} : digitUnit? u = some d ↔ u = (digitChar d).toNat := by
  have hunit : (digitChar d).toNat = 48 + d := by
    revert d
    decide
  rw [hunit]
  unfold digitUnit?
  split_ifs with h
  · rw [Option.some_inj, Fin.ext_iff]
    simp only []
    omega
  · have := d.isLt
    simp only [false_iff]
    omega

theorem unit_cons (c : Char) (u : ℕ) (us : List ℕ) :
    unit c (u :: us) = if u = c.toNat then some us else none := rfl

theorem unit_eq_some {c : Char} {us rest : List ℕ} :
    unit c us = some rest ↔ us = c.toNat :: rest := by
  cases us with
  | nil => simp [unit]
  | cons u us =>
    rw [unit_cons]
    split_ifs with h <;> simp [h]

theorem digitUnits_cons (d : Digit) (ds : List Digit) :
    digitUnits (d :: ds) = (digitChar d).toNat :: digitUnits ds := rfl

theorem digitGroup_cons_eq_some {count u : ℕ} {us rest : List ℕ} {ds : List Digit} :
    digitGroup (count + 1) (u :: us) = some (ds, rest) ↔
      ∃ d ds', u = (digitChar d).toNat ∧ digitGroup count us = some (ds', rest) ∧ ds = d :: ds' := by
  simp only [digitGroup, Option.bind_eq_bind, Option.bind_eq_some_iff, Option.some_inj, Prod.mk.injEq,
    Prod.exists, digitUnit?_eq_some]
  constructor
  · rintro ⟨d, hu, ds', rest', hgroup, hds, hrest⟩
    exact ⟨d, ds', hu, by rw [hgroup, hrest], hds.symm⟩
  · rintro ⟨d, ds', hu, hgroup, hds⟩
    exact ⟨d, hu, ds', rest, hgroup, hds.symm, rfl⟩

theorem digitGroup_eq_some {count : ℕ} {us rest : List ℕ} {ds : List Digit} :
    digitGroup count us = some (ds, rest) ↔ ds.length = count ∧ us = digitUnits ds ++ rest := by
  induction count generalizing us ds with
  | zero =>
    rw [digitGroup, Option.some_inj, Prod.mk.injEq, List.length_eq_zero_iff]
    constructor
    · rintro ⟨hds, hus⟩
      exact ⟨hds.symm, by rw [← hds, hus]; rfl⟩
    · rintro ⟨hds, hus⟩
      exact ⟨hds.symm, by rw [hus, hds]; rfl⟩
  | succ count ih =>
    cases us with
    | nil => cases ds <;> simp [digitGroup, digitUnits]
    | cons u us =>
      rw [digitGroup_cons_eq_some]
      constructor
      · rintro ⟨d, ds', hu, hgroup, hds⟩
        obtain ⟨hlen, hus⟩ := ih.1 hgroup
        rw [hds, hu, hus, List.length_cons, hlen, digitUnits_cons]
        exact ⟨rfl, rfl⟩
      · rintro ⟨hlen, hus⟩
        cases ds with
        | nil => simp at hlen
        | cons d ds =>
          rw [digitUnits_cons, List.cons_append, List.cons.injEq] at hus
          exact ⟨d, ds, hus.1, ih.2 ⟨by simpa using hlen, hus.2⟩, rfl⟩

theorem digitRun_cons_none {u : ℕ} (h : digitUnit? u = none) (us : List ℕ) :
    digitRun (u :: us) = ([], u :: us) := by
  rw [digitRun, h, Option.elim_none]

theorem digitRun_cons_some {u : ℕ} {d : Digit} (h : digitUnit? u = some d) (us : List ℕ) :
    digitRun (u :: us) = (d :: (digitRun us).1, (digitRun us).2) := by
  rw [digitRun, h, Option.elim_some]

theorem digitRun_spec (us : List ℕ) :
    us = digitUnits (digitRun us).1 ++ (digitRun us).2 := by
  induction us with
  | nil => rfl
  | cons u us ih =>
    cases hu : digitUnit? u with
    | none =>
      rw [digitRun_cons_none hu]
      rfl
    | some d =>
      rw [digitRun_cons_some hu, digitUnits_cons, List.cons_append, ← ih,
        ← digitUnit?_eq_some.1 hu]

theorem digitRun_digitUnits (ds : List Digit) (us : List ℕ) :
    digitRun (digitUnits ds ++ 'Z'.toNat :: us) = (ds, 'Z'.toNat :: us) := by
  induction ds with
  | nil => exact digitRun_cons_none (by decide) us
  | cons d ds ih =>
    rw [digitUnits_cons, List.cons_append, digitRun_cons_some (digitUnit?_eq_some.2 rfl), ih]

theorem fractionGroup_eq_some {us : List ℕ} {ds : List Digit} :
    fractionGroup us = some ds
      ↔ ds.length ≤ 9 ∧ us = (fractionText ds ++ ['Z']).map Char.toNat := by
  unfold fractionGroup
  constructor
  · intro h
    split_ifs at h with hz
    · obtain rfl := Option.some.inj h
      rw [unit_eq_some] at hz
      exact ⟨Nat.zero_le 9, hz⟩
    · obtain ⟨rest, hdot, h⟩ := Option.bind_eq_some_iff.1 h
      simp only [] at h
      split_ifs at h with hrun
      obtain rfl := Option.some.inj h
      simp only [Bool.and_eq_true, decide_eq_true_eq, unit_eq_some] at hrun hdot
      obtain ⟨⟨hend, hpos⟩, hlen⟩ := hrun
      have hne : (digitRun rest).1 ≠ [] := List.length_pos_iff.1 hpos
      refine ⟨hlen, ?_⟩
      rw [hdot, fractionText, if_neg hne, List.map_append, List.map_cons, List.cons_append,
        List.map_singleton, ← hend]
      exact congrArg _ (digitRun_spec rest)
  · rintro ⟨hlen, rfl⟩
    by_cases hds : ds = []
    · subst hds
      rfl
    · have hpos := List.length_pos_iff.2 hds
      have hunits : (fractionText ds ++ ['Z']).map Char.toNat
          = '.'.toNat :: (digitUnits ds ++ ['Z'.toNat]) := by
        rw [fractionText, if_neg hds, List.map_append, List.map_cons, List.cons_append]
        rfl
      have hz : unit 'Z' ('.'.toNat :: (digitUnits ds ++ ['Z'.toNat])) ≠ some [] := by
        rw [Ne, unit_eq_some]
        simp
      have hdot : unit '.' ('.'.toNat :: (digitUnits ds ++ ['Z'.toNat]))
          = some (digitUnits ds ++ ['Z'.toNat]) := unit_eq_some.2 rfl
      have hend : unit 'Z' ['Z'.toNat] = some [] := unit_eq_some.2 rfl
      rw [hunits, if_neg hz, hdot]
      simp only [Option.bind_eq_bind, Option.bind_some, digitRun_digitUnits, hend, decide_true,
        Bool.true_and]
      rw [if_pos]
      simp only [Bool.and_eq_true, decide_eq_true_eq]
      omega

theorem timestampMatch_eq_some {us : List ℕ} {t : Timestamp} :
    timestampMatch us = some t ↔ t.Shaped ∧ us = t.text.map Char.toNat := by
  simp only [timestampMatch, Option.bind_eq_bind, Option.bind_eq_some_iff, Prod.exists,
    digitGroup_eq_some, unit_eq_some, fractionGroup_eq_some, Option.some_inj]
  constructor
  · rintro ⟨year, _, ⟨hyear, rfl⟩, _, rfl, month, _, ⟨hmonth, rfl⟩, _, rfl, day, _, ⟨hday, rfl⟩, _,
      rfl, hour, _, ⟨hhour, rfl⟩, _, rfl, minute, _, ⟨hminute, rfl⟩, _, rfl, second, _,
      ⟨hsecond, rfl⟩, fraction, ⟨hfraction, rfl⟩, rfl⟩
    refine ⟨⟨hyear, hmonth, hday, hhour, hminute, hsecond, hfraction⟩, ?_⟩
    simp only [Timestamp.text, List.map_append, List.map_cons, digitUnits]
  · rintro ⟨⟨hyear, hmonth, hday, hhour, hminute, hsecond, hfraction⟩, rfl⟩
    refine ⟨t.year, _, ⟨hyear, ?_⟩, _, rfl, t.month, _, ⟨hmonth, rfl⟩, _, rfl, t.day, _, ⟨hday, rfl⟩,
      _, rfl, t.hour, _, ⟨hhour, rfl⟩, _, rfl, t.minute, _, ⟨hminute, rfl⟩, _, rfl, t.second, _,
      ⟨hsecond, rfl⟩, t.fraction, ⟨hfraction, rfl⟩, rfl⟩
    simp only [Timestamp.text, List.map_append, List.map_cons, digitUnits]

end Pattern

/-! ## strictRFC3339Nanos -/

theorem millisecond_le (ds : List Digit) : toNat ((padEnd 3 ds).take 3) ≤ 999 := by
  have hlen : ((padEnd 3 ds).take 3).length = 3 := by
    rw [List.length_take, padEnd, List.length_append, List.length_replicate]
    omega
  have := toNat_lt ((padEnd 3 ds).take 3)
  rw [hlen] at this
  omega

theorem toNat_padEnd (ds : List Digit) : toNat (padEnd 9 ds) = fractionNanos ds := by
  rw [padEnd, toNat_append, toNat_replicate_zero, List.length_replicate, Nat.add_zero, fractionNanos]

/-- The time the client makes from the fields of a timestamp. -/
def madeTime (t : Timestamp) : ℤ :=
  Js.makeDate (dayNumber (toNat t.year) (toNat t.month) (toNat t.day))
    (Js.makeTime (toNat t.hour) (toNat t.minute) (toNat t.second) (toNat ((padEnd 3 t.fraction).take 3)))

theorem sinceEpoch_eq (t : Timestamp) :
    (madeTime t - toNat ((padEnd 3 t.fraction).take 3)) * 1000000 + toNat (padEnd 9 t.fraction)
      = t.sinceEpoch := by
  rw [toNat_padEnd, madeTime, Timestamp.sinceEpoch, Js.makeDate, Js.makeTime, Js.msPerDay]
  ring

/-- The client accepts the valid timestamps, each as its nanoseconds since 1970-01-01. -/
theorem strictRFC3339Nanos_eq_some {us : List ℕ} {x : ℤ} :
    strictRFC3339Nanos us = some x
      ↔ ∃ t : Timestamp, t.Valid ∧ us = t.text.map Char.toNat ∧ x = t.sinceEpoch := by
  simp only [strictRFC3339Nanos, Option.bind_eq_bind, Option.bind_eq_some_iff, timestampMatch_eq_some]
  refine exists_congr fun t => ?_
  by_cases hrange : toNat t.month < 1 ∨ 12 < toNat t.month ∨ toNat t.day < 1 ∨ 31 < toNat t.day
      ∨ 23 < toNat t.hour ∨ 59 < toNat t.minute ∨ 59 < toNat t.second
  · rw [if_pos (by simpa [or_assoc] using hrange)]
    simp only [reduceCtorEq, and_false, false_iff]
    rintro ⟨hvalid, -, -⟩
    have := hvalid.month_pos
    have := hvalid.month_le
    have := hvalid.day_pos
    have := hvalid.day_le.trans (daysIn_le _ _)
    have := hvalid.hour_le
    have := hvalid.minute_le
    have := hvalid.second_le
    omega
  rw [if_neg (by simpa [or_assoc] using hrange)]
  obtain ⟨hmonth, hmonth', hday, hday', hhour, hminute, hsecond⟩ :
      1 ≤ toNat t.month ∧ toNat t.month ≤ 12 ∧ 1 ≤ toNat t.day ∧ toNat t.day ≤ 31
        ∧ toNat t.hour ≤ 23 ∧ toNat t.minute ≤ 59 ∧ toNat t.second ≤ 59 := by
    omega
  have hms := millisecond_le t.fraction
  by_cases hshaped : t.Shaped
  · have hyear : toNat t.year < 10000 := by
      have := toNat_lt t.year
      rwa [hshaped.year] at this
    rw [setUTCHours_setUTCFullYear hyear hmonth hmonth' hday hday' hhour hminute hsecond hms,
      ← madeTime]
    simp only [Option.bind_some, Bool.not_eq_true', sinceEpoch_eq]
    have hfields := hasFields_makeDate (toNat t.year) hmonth hmonth' hday hday' hhour hminute hsecond hms
    rw [← madeTime] at hfields
    by_cases hlast : toNat t.day ≤ daysIn (toNat t.month) (toNat t.year)
    · rw [if_neg (by rw [hfields.2 hlast]; simp), Option.some_inj, and_assoc]
      have hvalid : t.Valid := ⟨hshaped, hmonth, hmonth', hday, hlast, hhour, hminute, hsecond⟩
      simp only [hshaped, hvalid, true_and, eq_comm]
    · rw [if_pos (Bool.eq_false_iff.2 fun h => hlast (hfields.1 h))]
      simp only [reduceCtorEq, and_false, false_iff]
      exact fun h => hlast h.1.day_le
  · exact ⟨fun h => absurd h.1.1 hshaped, fun h => absurd h.1.toShaped hshaped⟩

end Client

namespace Go

open Calendar JsonText Decimal

/-! ## parseContractTime -/

section Contract

theorem isDigit_eq_true {c : Char} : isDigit c = true ↔ ∃ d, c = digitChar d := by
  have hdigit : isDigit c = true ↔ 48 ≤ c.toNat ∧ c.toNat ≤ 57 := by
    rw [isDigit, Bool.and_eq_true, decide_eq_true_eq, decide_eq_true_eq]
    exact Iff.rfl
  rw [hdigit]
  constructor
  · rintro ⟨hlo, hhi⟩
    exact ⟨⟨c.toNat - 48, by omega⟩, digit?_eq_some.1 (by rw [digit?, dif_pos ⟨hlo, by omega⟩])⟩
  · rintro ⟨d, rfl⟩
    revert d
    decide

theorem digitChar_toNat_sub (d : Digit) : (digitChar d).toNat - 48 = d := by
  revert d
  decide

theorem digits_eq_some {count n m : ℕ} {s r : List Char} :
    digits count n s = some (m, r)
      ↔ ∃ ds : List Digit, ds.length = count ∧ s = ds.map digitChar ++ r
        ∧ m = n * 10 ^ count + toNat ds := by
  induction count generalizing n s with
  | zero =>
    simp only [digits, Option.some_inj, Prod.mk.injEq, List.length_eq_zero_iff, exists_eq_left,
      List.map_nil, List.nil_append, pow_zero, mul_one, toNat_nil, Nat.add_zero]
    exact ⟨fun h => ⟨h.2, h.1.symm⟩, fun h => ⟨h.2.symm, h.1⟩⟩
  | succ count ih =>
    cases s with
    | nil =>
      simp only [digits, reduceCtorEq, false_iff]
      rintro ⟨ds, hlen, hs, -⟩
      cases ds with
      | nil => simp at hlen
      | cons d ds => simp at hs
    | cons c s =>
      rw [digits]
      constructor
      · intro h
        split_ifs at h with hc
        obtain ⟨d, rfl⟩ := isDigit_eq_true.1 hc
        obtain ⟨ds, hlen, rfl, rfl⟩ := ih.1 h
        refine ⟨d :: ds, by rw [List.length_cons, hlen], rfl, ?_⟩
        rw [toNat_cons, hlen, digitChar_toNat_sub, pow_succ]
        ring
      · rintro ⟨ds, hlen, hs, rfl⟩
        cases ds with
        | nil => simp at hlen
        | cons d ds =>
          obtain ⟨rfl, rfl⟩ := List.cons.inj hs
          rw [List.length_cons, Nat.add_right_cancel_iff] at hlen
          rw [if_pos (isDigit_eq_true.2 ⟨d, rfl⟩)]
          refine ih.2 ⟨ds, hlen, rfl, ?_⟩
          rw [toNat_cons, hlen, digitChar_toNat_sub, pow_succ]
          ring

theorem literal_eq_some {c : Char} {s r : List Char} : literal c s = some r ↔ s = c :: r := by
  cases s with
  | nil => simp [literal]
  | cons d s =>
    rw [literal]
    split_ifs with h <;> simp [h]

theorem exists_digits {s : List Char} (h : ∀ c ∈ s, isDigit c = true) :
    ∃ ds : List Digit, s = ds.map digitChar := by
  induction s with
  | nil => exact ⟨[], rfl⟩
  | cons c s ih =>
    obtain ⟨d, rfl⟩ := isDigit_eq_true.1 (h c List.mem_cons_self)
    obtain ⟨ds, rfl⟩ := ih fun c hc => h c (List.mem_cons_of_mem _ hc)
    exact ⟨d :: ds, rfl⟩

theorem foldl_digitChar (ds : List Digit) :
    (ds.map digitChar).foldl (fun n c => 10 * n + (c.toNat - 48)) 0 = toNat ds := by
  rw [List.foldl_map]
  simp only [digitChar_toNat_sub]
  rfl

theorem takeWhile_digits (ds : List Digit) :
    (ds.map digitChar ++ ['Z']).takeWhile isDigit = ds.map digitChar := by
  rw [List.takeWhile_append_of_pos, List.takeWhile_cons_of_neg (by decide), List.append_nil]
  intro c hc
  obtain ⟨d, -, rfl⟩ := List.mem_map.1 hc
  exact isDigit_eq_true.2 ⟨d, rfl⟩

theorem fraction_eq_some {s : List Char} {n : ℕ} :
    fraction s = some n
      ↔ ∃ ds : List Digit, ds.length ≤ 9 ∧ s = fractionText ds ++ ['Z'] ∧ n = fractionNanos ds := by
  constructor
  · intro h
    unfold fraction at h
    split at h
    · obtain rfl := Option.some.inj h
      exact ⟨[], Nat.zero_le 9, rfl, rfl⟩
    · rename_i s
      simp only [] at h
      split_ifs at h with hrun
      simp only [Bool.and_eq_true, decide_eq_true_eq] at hrun
      obtain ⟨⟨hend, hpos⟩, hlen⟩ := hrun
      obtain ⟨ds, hds⟩ := exists_digits (s := s.takeWhile isDigit) fun c => List.mem_takeWhile_imp
      have hs : s = ds.map digitChar ++ ['Z'] := by
        rw [← hds, ← hend]
        exact (List.prefix_iff_eq_append.1 (List.takeWhile_prefix _)).symm
      rw [hds, List.length_map] at hpos hlen h
      refine ⟨ds, hlen, ?_, ?_⟩
      · rw [hs, fractionText, if_neg (List.length_pos_iff.1 hpos), List.cons_append]
      · rw [← Option.some.inj h, foldl_digitChar, fractionNanos]
    · simp at h
  · rintro ⟨ds, hlen, rfl, rfl⟩
    by_cases hds : ds = []
    · subst hds
      rfl
    · have hpos := List.length_pos_iff.2 hds
      rw [fractionText, if_neg hds, List.cons_append, fraction, takeWhile_digits, foldl_digitChar,
        List.length_map, if_pos, fractionNanos]
      simp only [Bool.and_eq_true, decide_eq_true_eq]
      exact ⟨⟨List.drop_left' (List.length_map digitChar), hpos⟩, hlen⟩

theorem daysIn_eq (month year : ℕ) : daysIn month year = Calendar.daysIn month year := by
  have hleap : isLeap year = Calendar.isLeap year := by
    rw [Bool.eq_iff_iff, Calendar.isLeap_iff]
    simp only [isLeap, Bool.and_eq_true, Bool.or_eq_true, decide_eq_true_eq]
    omega
  simp only [daysIn, Calendar.daysIn, hleap, List.mem_cons, List.not_mem_nil, or_false]

theorem date_eq (year month day hour minute second nanosecond : ℕ) :
    date year month day hour minute second nanosecond
      = (((dayNumber year month day * 24 + hour) * 60 + minute) * 60 + second) * 10 ^ 9 + nanosecond
        + 719162 * 86400 * 10 ^ 9 := by
  have hmonth : daysBeforeMonth month year = monthStart month year := by
    simp only [daysBeforeMonth, monthStart, daysIn_eq]
  simp only [date, daysBeforeYear, hmonth, dayNumber, yearStart]
  ring

/-- The verifier accepts the valid timestamps, each as its nanoseconds since the zero time. -/
theorem parseContractTime_eq_some {s : List Char} {a : Time} :
    parseContractTime s = some a
      ↔ ∃ t : Timestamp, t.Valid ∧ s = t.text ∧ a = t.sinceEpoch + 719162 * 86400 * 10 ^ 9 := by
  simp only [parseContractTime, Option.bind_eq_bind, Option.bind_eq_some_iff, Prod.exists,
    digits_eq_some, literal_eq_some, fraction_eq_some, zero_mul, Nat.zero_add]
  constructor
  · rintro ⟨_, _, ⟨year, hyear, rfl, rfl⟩, _, rfl, _, _, ⟨month, hmonth, rfl, rfl⟩, _, rfl, _, _,
      ⟨day, hday, rfl, rfl⟩, _, rfl, _, _, ⟨hour, hhour, rfl, rfl⟩, _, rfl, _, _,
      ⟨minute, hminute, rfl, rfl⟩, _, rfl, _, _, ⟨second, hsecond, rfl, rfl⟩, _,
      ⟨fraction, hfraction, rfl, rfl⟩, h⟩
    split_ifs at h with hrange
    simp only [Bool.or_eq_true, decide_eq_true_eq, not_or, not_lt, daysIn_eq] at hrange
    obtain ⟨⟨⟨⟨⟨⟨h1, h2⟩, h3⟩, h4⟩, h5⟩, h6⟩, h7⟩ := hrange
    refine ⟨⟨year, month, day, hour, minute, second, fraction⟩,
      ⟨⟨hyear, hmonth, hday, hhour, hminute, hsecond, hfraction⟩, h1, h2, h3, h4, h5, h6, h7⟩, rfl, ?_⟩
    rw [← Option.some.inj h, date_eq]
    rfl
  · rintro ⟨t, ht, rfl, rfl⟩
    refine ⟨_, _, ⟨t.year, ht.year, rfl, rfl⟩, _, rfl, _, _, ⟨t.month, ht.month, rfl, rfl⟩, _, rfl, _, _,
      ⟨t.day, ht.day, rfl, rfl⟩, _, rfl, _, _, ⟨t.hour, ht.hour, rfl, rfl⟩, _, rfl, _, _,
      ⟨t.minute, ht.minute, rfl, rfl⟩, _, rfl, _, _, ⟨t.second, ht.second, rfl, rfl⟩, _,
      ⟨t.fraction, ht.fraction, rfl, rfl⟩, ?_⟩
    rw [if_neg, date_eq]
    · rfl
    · simp only [Bool.or_eq_true, decide_eq_true_eq, not_or, not_lt, daysIn_eq]
      exact ⟨⟨⟨⟨⟨⟨ht.month_pos, ht.month_le⟩, ht.day_pos⟩, ht.day_le⟩, ht.hour_le⟩, ht.minute_le⟩,
        ht.second_le⟩

end Contract

end Go

namespace Client

open Calendar JsonText Decimal Unicode

/-! ## Agreement -/

theorem ascii_text (t : Timestamp) : ∀ c ∈ t.text, c.toNat < 128 := by
  have hdigits (ds : List Digit) : ∀ c ∈ ds.map digitChar, c.toNat < 128 := by
    intro c hc
    obtain ⟨d, -, rfl⟩ := List.mem_map.1 hc
    clear hc
    revert d
    decide
  have hfraction : ∀ c ∈ fractionText t.fraction, c.toNat < 128 := by
    unfold fractionText
    split_ifs
    · simp
    · exact List.forall_mem_cons.2 ⟨by decide, hdigits _⟩
  simp only [Timestamp.text, List.forall_mem_append, List.forall_mem_cons]
  exact ⟨hdigits _, by decide, hdigits _, by decide, hdigits _, by decide, hdigits _, by decide,
    hdigits _, by decide, hdigits _, hfraction, by decide, by simp⟩

/-- The same texts are accepted, and every accepted one as instants the same time apart. -/
theorem parseContractTime_eq_some_iff {s : List Char} {x : ℤ} :
    Go.parseContractTime s = some (x + 719162 * 86400 * 10 ^ 9)
      ↔ strictRFC3339Nanos (utf16 s) = some x := by
  rw [Go.parseContractTime_eq_some, strictRFC3339Nanos_eq_some]
  refine exists_congr fun t => and_congr_right fun _ => and_congr ?_ (add_left_inj _)
  rw [← utf16_map_toNat (ascii_text t)]
  exact utf16_injective.eq_iff.symm

/-- Both sides accept the same texts, and order the instants they give them alike. The instant of the
client is the nanoseconds of the timestamp since 1970-01-01. -/
theorem strictRFC3339Nanos_exact (s : List Char) :
    ((Go.parseContractTime s).isSome = true ↔ strictRFC3339Nanos (utf16 s) ≠ none)
      ∧ (∀ x, strictRFC3339Nanos (utf16 s) = some x →
          ∃ t : Timestamp, t.Valid ∧ s = t.text ∧ x = t.sinceEpoch)
      ∧ ∀ (t : List Char) (a b : Go.Time) (x y : ℤ), Go.parseContractTime s = some a →
          Go.parseContractTime t = some b → strictRFC3339Nanos (utf16 s) = some x →
          strictRFC3339Nanos (utf16 t) = some y → (a < b ↔ x < y) ∧ (a = b ↔ x = y) ∧ (b < a ↔ y < x) := by
  have hinstant (s : List Char) (a : Go.Time) (x : ℤ) (ha : Go.parseContractTime s = some a)
      (hx : strictRFC3339Nanos (utf16 s) = some x) : a = x + 719162 * 86400 * 10 ^ 9 := by
    rw [← parseContractTime_eq_some_iff, ha] at hx
    exact Option.some.inj hx
  refine ⟨?_, ?_, ?_⟩
  · rw [Option.isSome_iff_exists, Option.ne_none_iff_exists']
    constructor
    · rintro ⟨a, ha⟩
      refine ⟨a - 719162 * 86400 * 10 ^ 9, parseContractTime_eq_some_iff.1 ?_⟩
      rw [ha, sub_add_cancel]
    · rintro ⟨x, hx⟩
      exact ⟨_, parseContractTime_eq_some_iff.2 hx⟩
  · intro x hx
    obtain ⟨t, ht, hs, rfl⟩ := strictRFC3339Nanos_eq_some.1 hx
    rw [← utf16_map_toNat (ascii_text t)] at hs
    exact ⟨t, ht, utf16_injective hs, rfl⟩
  · intro t a b x y ha hb hx hy
    rw [hinstant s a x ha hx, hinstant t b y hb hy]
    exact ⟨add_lt_add_iff_right _, add_left_inj _, add_lt_add_iff_right _⟩

end Client
