import Jumpship.Canonical.Jcs

/-!
# canonicalNumber

What `canonicalNumber` writes depends only on the double, and is a number literal of that double.
-/

namespace Canonical

open Go JsonText Decimal

/-! ## strconv -/

section Strconv

def natDigits (n : ℕ) : List Digit := if n = 0 then [0] else ofNat n

theorem natText_eq (n : ℕ) : natText n = digitsText (natDigits n) := by
  unfold natText natDigits
  split_ifs <;> rfl

theorem natDigits_ne (n : ℕ) : natDigits n ≠ [] := by
  unfold natDigits
  split_ifs with h
  · simp
  · obtain ⟨d, ds, heq, -⟩ := ofNat_eq_cons (Nat.pos_of_ne_zero h)
    simp [heq]

@[simp] theorem toNat_natDigits (n : ℕ) : toNat (natDigits n) = n := by
  unfold natDigits
  split_ifs with h
  · rw [h]
    rfl
  · exact toNat_ofNat n

theorem digitsText_append (ds es : List Digit) :
    digitsText (ds ++ es) = digitsText ds ++ digitsText es := List.map_append

theorem digitsText_replicate (n : ℕ) : digitsText (List.replicate n 0) = List.replicate n '0' := by
  rw [digitsText, List.map_replicate]
  rfl

theorem digitChar_ne (d : Digit) : digitChar d ≠ 'e' ∧ digitChar d ≠ '+' ∧ digitChar d ≠ '-' := by
  revert d
  decide

theorem digitsValue_digitsText {ds : List Digit} (h : ds ≠ []) :
    digitsValue (digitsText ds) = some (toNat ds) := by
  have hmap : (digitsText ds).mapM digit? = some ds := by
    clear h
    induction ds with
    | nil => rfl
    | cons d ds ih =>
      rw [digitsText] at ih
      simp [digitsText, ih]
  rcases ds with _ | ⟨d, ds⟩
  · exact absurd rfl h
  · change ((digitsText (d :: ds)).mapM digit?).map toNat = _
    rw [hmap, Option.map_some]

theorem splitE_append {m : List Char} (h : ∀ c ∈ m, c ≠ 'e') (rest : List Char) :
    splitE (m ++ 'e' :: rest) = [m, rest] := by
  have hm : ∀ c ∈ m, decide (c ≠ 'e') = true := by simpa using h
  unfold splitE
  rw [List.dropWhile_append_of_pos hm, List.takeWhile_append_of_pos hm]
  simp

/-- The exponent that `scientificText` writes, read back. -/
theorem atoi_exponent (e : ℤ) : atoi ((if e < 0 then '-' else '+') ::
    ((if e.natAbs < 10 then ['0'] else []) ++ natText e.natAbs)) = some e := by
  have hdigits : digitsValue ((if e.natAbs < 10 then ['0'] else []) ++ natText e.natAbs)
      = some e.natAbs := by
    rw [natText_eq]
    split_ifs
    · have := digitsValue_digitsText (show 0 :: natDigits e.natAbs ≠ [] by simp)
      rw [toNat_cons, toNat_natDigits] at this
      simpa [digitsText, digitChar] using this
    · simpa using digitsValue_digitsText (natDigits_ne e.natAbs)
  generalize (if e.natAbs < 10 then ['0'] else []) ++ natText e.natAbs = t at hdigits ⊢
  split_ifs with he
  · rw [atoi, hdigits, Option.map_some, Option.some.injEq]
    omega
  · rw [atoi, hdigits, Option.map_some, Option.some.injEq]
    omega

end Strconv

/-! ## The text of a double -/

section Text

theorem mantissaText_ne (ds : List Digit) : ∀ c ∈ mantissaText ds, c ≠ 'e' := by
  have hdigits : ∀ es : List Digit, ∀ c ∈ digitsText es, c ≠ 'e' := by
    intro es c hc
    obtain ⟨d, -, rfl⟩ := List.mem_map.1 hc
    exact (digitChar_ne d).1
  intro c hc
  rcases List.mem_append.1 hc with hc | hc
  · exact hdigits _ c hc
  · split_ifs at hc
    · cases hc
    · rcases List.mem_cons.1 hc with rfl | hc
      · decide
      · exact hdigits _ c hc

theorem canonicalNumber_eq (raw : Number) : canonicalNumber raw =
    (parseFloat raw).elim (.error .unsupportedNumber) fun x => .ok (numberText x) := by
  unfold canonicalNumber
  rcases parseFloat raw with _ | x
  · rfl
  dsimp only [Option.elim]
  unfold numberText
  split_ifs with h0 h1
  · rfl
  · rfl
  · set ds := (shortest |x.value|).1 with hds
    set point := (shortest |x.value|).2 with hpoint
    set sign : List Char := if x.value < 0 then ['-'] else [] with hsign
    have hfmt : formatFloat scientificText x = (sign ++ mantissaText ds) ++
        'e' :: ((if point - 1 < 0 then '-' else '+') ::
          ((if (point - 1).natAbs < 10 then ['0'] else []) ++ natText (point - 1).natAbs)) := by
      simp only [formatFloat, scientificText, mantissaText, List.append_assoc]
      rfl
    have hne : ∀ c ∈ sign ++ mantissaText ds, c ≠ 'e' := by
      intro c hc
      rcases List.mem_append.1 hc with hc | hc
      · rw [hsign] at hc
        split_ifs at hc
        · rw [List.mem_singleton.1 hc]
          decide
        · cases hc
      · exact mantissaText_ne ds c hc
    rw [hfmt, splitE_append hne]
    dsimp only
    rw [atoi_exponent]
    simp only [formatFloat, exponentText, List.append_assoc]
    rfl

end Text

/-! ## Its literal -/

section Literal

variable {x : Binary64}

/-- A rational with the sign of `x` and the shortest digits of its magnitude rounds to `x`. -/
theorem nearest_of_shortest (hx : x.value ≠ 0) {q : ℚ}
    (hq : q = (if x.value < 0 then -1 else 1) *
      value (shortest |x.value|).1 (shortest |x.value|).2) : Binary64.nearest q = some x := by
  obtain ⟨d, ds, hds, hd⟩ := shortest_eq_cons x.isMagnitude (abs_pos.2 hx)
  have hpos : 0 < value (shortest |x.value|).1 (shortest |x.value|).2 := by
    rw [hds]
    exact (zpow_pos (by norm_num) _).trans_le (le_value hd ds _)
  have hround := roundMagnitude_shortest x.isMagnitude
  refine Binary64.nearest_eq_some ?_ ?_
  · rw [← hround, hq]
    split_ifs
    · rw [neg_one_mul, abs_neg, abs_of_pos hpos, hround]
    · rw [one_mul, abs_of_pos hpos, hround]
  · rw [hq]
    split_ifs with h
    · exact iff_of_true (by linarith) h
    · exact iff_of_false (by linarith) h

theorem value_append_zeros (ds : List Digit) (k : ℕ) :
    Decimal.toNat (ds ++ List.replicate k 0) = Decimal.toNat ds * 10 ^ k := by
  rw [toNat_append, toNat_replicate_zero, List.length_replicate, add_zero]

theorem value_zeros_append (ds : List Digit) (k : ℕ) :
    Decimal.toNat (List.replicate k 0 ++ ds) = Decimal.toNat ds := by
  rw [toNat_append, toNat_replicate_zero, zero_mul, zero_add]

/-- The digits before and after the point that `fixedText` writes. -/
theorem fixedText_parts {d : Digit} (hd : d ≠ 0) (ds : List Digit) (point : ℤ) :
    ∃ int frac, int ≠ [] ∧ (∀ es, int = 0 :: es → es = []) ∧
      fixedText (d :: ds) point = digitsText int ++ fracText frac ∧
      (toNat (int ++ frac) : ℚ) * 10 ^ (0 - (frac.length : ℤ)) = value (d :: ds) point := by
  unfold fixedText
  split_ifs with h1 h2
  · refine ⟨[0], List.replicate (-point).toNat 0 ++ (d :: ds), by simp, by simp, ?_, ?_⟩
    · rw [fracText, if_neg (by simp), List.map_append, List.map_replicate]
      rfl
    · have hval : Decimal.toNat ([0] ++ (List.replicate (-point).toNat 0 ++ (d :: ds)))
          = Decimal.toNat (d :: ds) := by
        rw [← List.append_assoc]
        exact value_zeros_append (d :: ds) ((-point).toNat + 1)
      rw [hval, value, List.length_append, List.length_replicate]
      congr 2
      push_cast
      omega
  · have hlen : point.toNat < (d :: ds).length := by omega
    refine ⟨(d :: ds).take point.toNat, (d :: ds).drop point.toNat, ?_, ?_, ?_, ?_⟩
    · rw [Ne, List.take_eq_nil_iff]
      simp
      omega
    · intro es hes
      obtain ⟨k, hk⟩ : ∃ k, point.toNat = k + 1 := ⟨point.toNat - 1, by omega⟩
      rw [hk, List.take_succ_cons, List.cons.injEq] at hes
      exact absurd hes.1 hd
    · rw [fracText, if_neg]
      · rfl
      · rw [List.drop_eq_nil_iff]
        omega
    · rw [List.take_append_drop, value, List.length_drop]
      congr 2
      omega
  · refine ⟨(d :: ds) ++ List.replicate (point - (d :: ds).length).toNat 0, [], by simp, ?_, ?_, ?_⟩
    · intro es hes
      rw [List.cons_append, List.cons.injEq] at hes
      exact absurd hes.1 hd
    · rw [digitsText_append, digitsText_replicate, fracText, if_pos rfl, List.append_nil]
    · rw [List.append_nil, value_append_zeros, value, List.length_nil]
      push_cast
      rw [mul_one, ← zpow_natCast, Int.toNat_of_nonneg (by omega)]

theorem Number.text_mk {neg : Bool} {int frac : List Digit} {exp : Option Exponent}
    (h : int ≠ []) (h0 : ∀ ds, int = 0 :: ds → ds = []) :
    (⟨neg, int, frac, exp, h, h0⟩ : Number).text
      = (if neg then ['-'] else []) ++ (digitsText int ++ (fracText frac ++ expText exp)) := rfl

theorem numberText_fixed (hx : x.value ≠ 0) :
    ∃ n : Number, formatFloat fixedText x = n.text ∧ Binary64.nearest n.value = some x := by
  obtain ⟨d, ds, hds, hd⟩ := shortest_eq_cons x.isMagnitude (abs_pos.2 hx)
  obtain ⟨int, frac, hne, h0, htext, hval⟩ := fixedText_parts hd ds (shortest |x.value|).2
  refine ⟨⟨decide (x.value < 0), int, frac, none, hne, h0⟩, ?_, nearest_of_shortest hx ?_⟩
  · rw [formatFloat, hds, htext, Number.text_mk, expText, List.append_nil]
    simp only [decide_eq_true_eq]
  · rw [Number.value, hds, ← hval]
    simp only [decide_eq_true_eq, Option.elim]

/-- The exponent part that JCS writes. -/
def jcsExponent (e : ℤ) : Exponent := ⟨false, some (decide (e < 0)), natDigits e.natAbs, natDigits_ne _⟩

theorem jcsExponent_value (e : ℤ) : (jcsExponent e).value = e := by
  unfold Exponent.value jcsExponent
  simp only [toNat_natDigits, Option.some.injEq, decide_eq_true_eq]
  split_ifs <;> omega

theorem jcsExponent_text (e : ℤ) :
    'e' :: ((if 0 ≤ e then ['+'] else []) ++ itoa e) = (jcsExponent e).text := by
  unfold Exponent.text jcsExponent itoa
  rw [natText_eq]
  by_cases h : e < 0
  · rw [if_neg (by omega), if_pos h]
    simp [h, signText, digitsText]
  · rw [if_pos (by omega), if_neg h]
    simp [h, signText, digitsText]

theorem numberText_exponent (hx : x.value ≠ 0) :
    ∃ n : Number, formatFloat exponentText x = n.text ∧ Binary64.nearest n.value = some x := by
  obtain ⟨d, ds, hds, hd⟩ := shortest_eq_cons x.isMagnitude (abs_pos.2 hx)
  set point := (shortest |x.value|).2 with hpoint
  refine ⟨⟨decide (x.value < 0), [d], ds, some (jcsExponent (point - 1)), by simp, by simp⟩, ?_,
    nearest_of_shortest hx ?_⟩
  · rw [formatFloat, hds, Number.text_mk, expText, exponentText, jcsExponent_text, mantissaText,
      fracText]
    rcases ds with _ | ⟨d', ds⟩
    · simp [digitsText, hpoint]
    · simp [digitsText, hpoint]
  · rw [Number.value, hds, ← hpoint, value]
    simp only [decide_eq_true_eq, Option.elim, jcsExponent_value, List.singleton_append,
      List.length_cons]
    congr 3
    push_cast
    omega

/-- The canonical text of a double is a number literal that rounds to it. -/
theorem numberOf_numberText (x : Binary64) (r : List Char) : NumberOf (numberText x ++ r) x r := by
  unfold numberText
  split_ifs with h0 h1
  · refine ⟨⟨false, [0], [], none, by simp, by simp⟩, rfl, ?_⟩
    rw [Binary64.value_eq_zero.1 h0]
    exact Binary64.nearest_eq_some (by simp [Number.value, toNat_cons, Binary64.roundMagnitude,
      Binary64.roundHalfEven]) (by simp [Number.value, toNat_cons])
  · obtain ⟨n, htext, hval⟩ := numberText_fixed h0
    exact ⟨n, by rw [htext], hval⟩
  · obtain ⟨n, htext, hval⟩ := numberText_exponent h0
    exact ⟨n, by rw [htext], hval⟩

end Literal

end Canonical
