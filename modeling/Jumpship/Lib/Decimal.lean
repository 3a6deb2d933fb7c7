import Jumpship.Lib.Binary64

/-!
# Decimal digits and the shortest decimal of a double

`shortest m` gives the digits and the decimal point of the decimal with the fewest digits that
rounds to the magnitude `m`, the nearer of two such: `0.d₁d₂… · 10^point`. The search goes down
one decimal place at a time; it ends because every double is a finite decimal, at the latest at
`10^-1074`.
-/

abbrev Digit := Fin 10

instance neZero_ten : NeZero 10 := ⟨by simp⟩

namespace Decimal

open Binary64

/-! ## Digit strings -/

section Digits

/-- The number a digit string writes. -/
def toNat (ds : List Digit) : ℕ := ds.foldl (fun a (d : Digit) => 10 * a + d.val) 0

theorem foldl_eq (ds : List Digit) (a : ℕ) :
    ds.foldl (fun a (d : Digit) => 10 * a + d.val) a = a * 10 ^ ds.length + toNat ds := by
  unfold toNat
  induction ds generalizing a with
  | nil => simp
  | cons d ds ih =>
    simp only [List.foldl_cons, List.length_cons]
    rw [ih (10 * a + d), ih (10 * 0 + d)]
    ring

@[simp] theorem toNat_nil : toNat [] = 0 := rfl

theorem toNat_cons (d : Digit) (ds : List Digit) :
    toNat (d :: ds) = d * 10 ^ ds.length + toNat ds := by
  rw [toNat, List.foldl_cons, foldl_eq]
  simp

theorem toNat_append (ds es : List Digit) :
    toNat (ds ++ es) = toNat ds * 10 ^ es.length + toNat es := by
  rw [toNat, List.foldl_append, foldl_eq]
  rfl

@[simp] theorem toNat_replicate_zero (n : ℕ) : toNat (List.replicate n 0) = 0 := by
  induction n with
  | zero => rfl
  | succ n ih => rw [List.replicate_succ, toNat_cons, ih]; simp

theorem toNat_lt (ds : List Digit) : toNat ds < 10 ^ ds.length := by
  induction ds with
  | nil => simp
  | cons d ds ih =>
    have hd := d.isLt
    rw [toNat_cons, List.length_cons, pow_succ]
    nlinarith [Nat.pow_pos (n := ds.length) (show 0 < 10 by norm_num)]

theorem le_toNat {d : Digit} (hd : d ≠ 0) (ds : List Digit) : 10 ^ ds.length ≤ toNat (d :: ds) := by
  have : 1 ≤ (d : ℕ) := Nat.one_le_iff_ne_zero.2 fun h => hd (Fin.ext h)
  rw [toNat_cons]
  nlinarith [Nat.pow_pos (n := ds.length) (show 0 < 10 by norm_num)]

/-- The decimal digits of a number, the most significant first. -/
def ofNat (n : ℕ) : List Digit := (Nat.digits 10 n).reverse.map (Fin.ofNat 10)

theorem toNat_reverse_map (ds : List ℕ) (h : ∀ d ∈ ds, d < 10) :
    toNat (ds.reverse.map (Fin.ofNat 10)) = Nat.ofDigits 10 ds := by
  induction ds with
  | nil => rfl
  | cons d ds ih =>
    have hd := h d List.mem_cons_self
    rw [List.reverse_cons, List.map_append, toNat_append, ih fun e he =>
      h e (List.mem_cons_of_mem _ he), Nat.ofDigits_cons]
    simp only [List.map_cons, List.map_nil, List.length_cons, List.length_nil, toNat_cons,
      Fin.val_ofNat, Nat.mod_eq_of_lt hd, toNat_nil]
    push_cast
    ring

@[simp] theorem toNat_ofNat (n : ℕ) : toNat (ofNat n) = n := by
  rw [ofNat, toNat_reverse_map _ fun d hd => Nat.digits_lt_base (by norm_num) hd,
    Nat.ofDigits_digits]

/-- The digits of a positive number start with a digit other than zero. -/
theorem ofNat_eq_cons {n : ℕ} (h : 0 < n) : ∃ d ds, ofNat n = d :: ds ∧ d ≠ 0 := by
  have hne : Nat.digits 10 n ≠ [] := by simpa [Nat.digits_eq_nil_iff_eq_zero] using h.ne'
  have hlast := Nat.getLast_digit_ne_zero 10 h.ne'
  have hlt : (Nat.digits 10 n).getLast hne < 10 :=
    Nat.digits_lt_base (by norm_num) (List.getLast_mem hne)
  refine ⟨Fin.ofNat 10 ((Nat.digits 10 n).getLast hne),
    (Nat.digits 10 n).dropLast.reverse.map (Fin.ofNat 10), ?_, fun h0 => hlast ?_⟩
  · rw [ofNat]
    conv_lhs => rw [← List.dropLast_append_getLast hne]
    simp
  · have := congrArg Fin.val h0
    rwa [Fin.val_ofNat, Nat.mod_eq_of_lt hlt] at this

end Digits

/-! ## The search -/

section Search

/-- The coefficient of a multiple of `10^e` that rounds to `m`, when the multiple below `m` or
the one above does; the nearer when both do, the even one between equals. -/
def coefficientAt (m : ℚ) (e : ℤ) : Option ℕ :=
  let low := ⌊m / 10 ^ e⌋₊
  let below := m - low * 10 ^ e
  let above := (low + 1) * 10 ^ e - m
  if roundMagnitude (low * 10 ^ e) = m then
    if roundMagnitude ((low + 1) * 10 ^ e) = m then
      if below < above then some low
      else if above < below then some (low + 1)
      else if low % 2 = 0 then some low else some (low + 1)
    else some low
  else if roundMagnitude ((low + 1) * 10 ^ e) = m then some (low + 1)
  else none

theorem roundMagnitude_of_coefficientAt {m : ℚ} {e : ℤ} {c : ℕ}
    (h : coefficientAt m e = some c) : roundMagnitude (c * 10 ^ e) = m := by
  unfold coefficientAt at h
  dsimp only at h
  split_ifs at h <;> obtain rfl := Option.some.inj h <;> push_cast <;> assumption

/-- The coefficient and exponent of the shortest decimal, looked for from `10^e` down. -/
def search (m : ℚ) : ℕ → ℤ → ℕ × ℤ
  | 0, e => (⌊m / 10 ^ e⌋₊, e)
  | fuel + 1, e =>
    match coefficientAt m e with
    | some c => (c, e)
    | none => search m fuel (e - 1)

/-- At `10^-1074` a double is an exact multiple, so the search never fails. -/
theorem roundMagnitude_search {m : ℚ} (hm : IsMagnitude m) : ∀ (fuel : ℕ) (e : ℤ),
    e - fuel ≤ -1074 → roundMagnitude ((search m fuel e).1 * 10 ^ (search m fuel e).2) = m
  | 0, e, he => by
    obtain ⟨n, f, hn, hf, rfl⟩ := id hm
    have hint : (n : ℚ) * 2 ^ f / 10 ^ e = ((n * 2 ^ (f - e).toNat * 5 ^ (-e).toNat : ℕ) : ℚ) := by
      push_cast
      rw [div_eq_iff (zpow_ne_zero _ (by norm_num))]
      have h10 : (10 : ℚ) ^ e = 2 ^ e * 5 ^ e := by
        rw [← mul_zpow]
        norm_num
      have h2 : (2 : ℚ) ^ (f - e).toNat * 2 ^ e = 2 ^ f := by
        rw [← zpow_natCast, ← zpow_add₀ (by norm_num)]
        congr 1
        omega
      have h5 : (5 : ℚ) ^ (-e).toNat * 5 ^ e = 1 := by
        rw [← zpow_natCast, ← zpow_add₀ (by norm_num), show ((-e).toNat : ℤ) + e = 0 by omega,
          zpow_zero]
      calc (n : ℚ) * 2 ^ f = n * (2 ^ (f - e).toNat * 2 ^ e) * (5 ^ (-e).toNat * 5 ^ e) := by
            rw [h2, h5, mul_one]
        _ = n * 2 ^ (f - e).toNat * 5 ^ (-e).toNat * 10 ^ e := by
            rw [h10]
            ring
    simp only [search]
    rw [hint, Nat.floor_natCast, ← hint, div_mul_cancel₀ _ (zpow_ne_zero _ (by norm_num))]
    exact roundMagnitude_of_isMagnitude hm
  | fuel + 1, e, he => by
    simp only [search]
    split
    · rename_i c hc
      exact roundMagnitude_of_coefficientAt hc
    · exact roundMagnitude_search hm fuel (e - 1) (by push_cast at he; omega)

end Search

/-! ## The shortest decimal -/

section Shortest

/-- `0.d₁d₂… · 10^point`. -/
def value (ds : List Digit) (point : ℤ) : ℚ := toNat ds * 10 ^ (point - ds.length)

/-- The digits and the decimal point of the shortest decimal that rounds to `m`. -/
def shortest (m : ℚ) : List Digit × ℤ :=
  let e := Int.log 10 m
  let (c, q) := search m (e + 1074).toNat e
  ((ofNat c).rdropWhile (· = 0), q + (ofNat c).length)

theorem exists_replicate (ds : List Digit) :
    ∃ j, ds = ds.rdropWhile (· = 0) ++ List.replicate j 0 := by
  refine ⟨(ds.reverse.takeWhile (· = 0)).length, ?_⟩
  have h : ds.reverse.takeWhile (fun d : Digit => d = 0)
      = List.replicate (ds.reverse.takeWhile (fun d : Digit => d = 0)).length 0 := by
    refine List.eq_replicate_of_mem fun d hd => ?_
    simpa using List.mem_takeWhile_imp hd
  conv_lhs => rw [← ds.reverse_reverse, ← List.takeWhile_append_dropWhile
    (p := fun d : Digit => decide (d = 0)) (l := ds.reverse), List.reverse_append, h,
    List.reverse_replicate]
  rfl

theorem value_shortest (m : ℚ) :
    value (shortest m).1 (shortest m).2 =
      (search m (Int.log 10 m + 1074).toNat (Int.log 10 m)).1
        * 10 ^ (search m (Int.log 10 m + 1074).toNat (Int.log 10 m)).2 := by
  simp only [shortest]
  set c := (search m (Int.log 10 m + 1074).toNat (Int.log 10 m)).1
  set q := (search m (Int.log 10 m + 1074).toNat (Int.log 10 m)).2
  obtain ⟨j, hj⟩ := exists_replicate (ofNat c)
  have hc : c = toNat ((ofNat c).rdropWhile (· = 0)) * 10 ^ j := by
    conv_lhs => rw [← toNat_ofNat c, hj, toNat_append]
    simp
  have hlen : (ofNat c).length = ((ofNat c).rdropWhile (· = 0)).length + j := by
    conv_lhs => rw [hj]
    simp
  have he : q + ((ofNat c).length : ℤ) - (((ofNat c).rdropWhile (· = 0)).length : ℤ) = j + q := by
    rw [hlen]
    push_cast
    ring
  rw [value, he, zpow_add₀ (by norm_num), zpow_natCast, ← mul_assoc]
  congr 1
  conv_rhs => rw [hc]
  push_cast
  ring

/-- The shortest decimal of a double reads back as the double. -/
theorem roundMagnitude_shortest {m : ℚ} (hm : IsMagnitude m) :
    roundMagnitude (value (shortest m).1 (shortest m).2) = m := by
  rw [value_shortest]
  exact roundMagnitude_search hm _ _ (by omega)

/-- The shortest decimal of a positive double starts with a digit other than zero. -/
theorem shortest_eq_cons {m : ℚ} (hm : IsMagnitude m) (hpos : 0 < m) :
    ∃ d ds, (shortest m).1 = d :: ds ∧ d ≠ 0 := by
  set c := (search m (Int.log 10 m + 1074).toNat (Int.log 10 m)).1 with hcdef
  have hc : 0 < c := by
    refine Nat.pos_of_ne_zero fun h0 => hpos.ne ?_
    have := roundMagnitude_shortest hm
    rw [value_shortest, ← hcdef, h0] at this
    simpa [roundMagnitude, roundHalfEven] using this
  obtain ⟨d, ds, hd, h0⟩ := ofNat_eq_cons hc
  obtain ⟨j, hj⟩ := exists_replicate (ofNat c)
  change ∃ d ds, (ofNat c).rdropWhile (· = 0) = d :: ds ∧ d ≠ 0
  rcases hr : (ofNat c).rdropWhile (· = 0) with _ | ⟨e, es⟩
  · rw [hr, hd, List.nil_append] at hj
    rcases j with _ | j
    · simp at hj
    · rw [List.replicate_succ, List.cons.injEq] at hj
      exact absurd hj.1 h0
  · rw [hr, hd, List.cons_append, List.cons.injEq] at hj
    exact ⟨e, es, hr, hj.1 ▸ h0⟩

theorem value_lt (ds : List Digit) (point : ℤ) : value ds point < 10 ^ point := by
  have h : (toNat ds : ℚ) < 10 ^ ds.length := by exact_mod_cast toNat_lt ds
  rw [value, zpow_sub₀ (by norm_num), zpow_natCast, mul_div_assoc', div_lt_iff₀ (by positivity),
    mul_comm]
  exact mul_lt_mul_of_pos_left h (zpow_pos (by norm_num) _)

theorem le_value {d : Digit} (hd : d ≠ 0) (ds : List Digit) (point : ℤ) :
    10 ^ (point - 1) ≤ value (d :: ds) point := by
  have h : (10 : ℚ) ^ ds.length ≤ toNat (d :: ds) := by exact_mod_cast le_toNat hd ds
  calc (10 : ℚ) ^ (point - 1)
      = 10 ^ ds.length * 10 ^ (point - ((d :: ds).length : ℤ)) := by
        rw [← zpow_natCast, ← zpow_add₀ (by norm_num)]
        congr 1
        simp only [List.length_cons]
        push_cast
        ring
    _ ≤ value (d :: ds) point :=
        mul_le_mul_of_nonneg_right h (zpow_nonneg (by norm_num) _)

end Shortest

end Decimal
