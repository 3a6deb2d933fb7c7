import Mathlib

/-!
# Finite IEEE-754 doubles

A finite double is a rational `± m · 2^e` with `m < 2^53` and `-1074 ≤ e`, below `2^1024`. The
value is all that is kept, so `-0` and `0` are one.

`nearest` rounds a rational to the nearest double, ties to even, and fails on overflow. Rounding
fixes the doubles (`roundMagnitude_of_isMagnitude`) and is monotone (`roundMagnitude_mono`).
-/

/-- A rational `m · 2^e` with a 53-bit `m`, no finer than the subnormals. -/
def IsMagnitude (q : ℚ) : Prop :=
  ∃ (m : ℕ) (e : ℤ), m < 2 ^ 53 ∧ -1074 ≤ e ∧ q = m * 2 ^ e

@[ext] structure Binary64 where
  value : ℚ
  isMagnitude : IsMagnitude |value|
  finite : |value| < 2 ^ 1024

namespace Binary64

instance : DecidableEq Binary64 := fun x y =>
  decidable_of_iff (x.value = y.value) Binary64.ext_iff.symm

/-! ## Rounding to an integer -/

section RoundHalfEven

/-- The nearest integer, ties to the even one. -/
def roundHalfEven (q : ℚ) : ℤ :=
  if q - ⌊q⌋ < 1 / 2 then ⌊q⌋
  else if 1 / 2 < q - ⌊q⌋ then ⌊q⌋ + 1
  else if ⌊q⌋ % 2 = 0 then ⌊q⌋ else ⌊q⌋ + 1

theorem floor_le_roundHalfEven (q : ℚ) : ⌊q⌋ ≤ roundHalfEven q := by
  unfold roundHalfEven
  split_ifs <;> omega

theorem roundHalfEven_le (q : ℚ) : roundHalfEven q ≤ ⌊q⌋ + 1 := by
  unfold roundHalfEven
  split_ifs <;> omega

@[simp] theorem roundHalfEven_intCast (n : ℤ) : roundHalfEven n = n := by
  simp [roundHalfEven]

@[simp] theorem roundHalfEven_natCast (n : ℕ) : roundHalfEven n = n := by
  exact_mod_cast roundHalfEven_intCast n

theorem roundHalfEven_mono {q r : ℚ} (h : q ≤ r) : roundHalfEven q ≤ roundHalfEven r := by
  rcases (Int.floor_le_floor h).lt_or_eq with hlt | heq
  · have h1 := roundHalfEven_le q
    have h2 := floor_le_roundHalfEven r
    omega
  · unfold roundHalfEven
    rw [heq]
    have hfr : q - ⌊r⌋ ≤ r - ⌊r⌋ := by linarith
    split_ifs <;> first | omega | (exfalso; linarith)

theorem roundHalfEven_nonneg {q : ℚ} (h : 0 ≤ q) : 0 ≤ roundHalfEven q :=
  (Int.floor_nonneg.2 h).trans (floor_le_roundHalfEven q)

end RoundHalfEven

/-! ## Rounding to a magnitude -/

section RoundMagnitude

/-- The exponent of the last place kept of a magnitude. -/
def ulpExponent (q : ℚ) : ℤ := max (Int.log 2 q - 52) (-1074)

/-- A non-negative rational rounded to 53 bits, or to the subnormal grid. -/
def roundMagnitude (q : ℚ) : ℚ :=
  roundHalfEven (q / 2 ^ ulpExponent q) * 2 ^ ulpExponent q

theorem two_zpow_pos (e : ℤ) : (0 : ℚ) < 2 ^ e := zpow_pos (by norm_num) e

theorem lt_two_zpow (q : ℚ) : q < 2 ^ (ulpExponent q + 53) := by
  have h := Int.lt_zpow_succ_log_self (b := 2) (by norm_num) q
  refine h.trans_le (zpow_le_zpow_right₀ (by norm_num) ?_)
  have := le_max_left (Int.log 2 q - 52) (-1074)
  unfold ulpExponent
  omega

theorem ulpExponent_mono {q r : ℚ} (hq : 0 < q) (h : q ≤ r) : ulpExponent q ≤ ulpExponent r := by
  have := Int.log_mono_right (b := 2) hq h
  unfold ulpExponent
  omega

/-- A magnitude past the subnormals has its leading bit in place. -/
theorem two_zpow_le {q : ℚ} (hq : 0 < q) (h : -1074 < ulpExponent q) :
    2 ^ (ulpExponent q + 52) ≤ q := by
  have h1 := Int.zpow_log_le_self (b := 2) (by norm_num) hq
  have h2 : ulpExponent q + 52 = Int.log 2 q := by
    unfold ulpExponent at h ⊢
    omega
  rw [h2]
  exact_mod_cast h1

/-- A multiple of the last place rounds to itself. -/
theorem roundMagnitude_of_mul {q : ℚ} (n : ℤ) (h : q = n * 2 ^ ulpExponent q) :
    roundMagnitude q = q := by
  have hp := two_zpow_pos (ulpExponent q)
  have hd : q / 2 ^ ulpExponent q = n := by
    rw [div_eq_iff hp.ne']
    exact h
  rw [roundMagnitude, hd, roundHalfEven_intCast, ← h]

theorem zpow_eq_intCast_mul {e f : ℤ} (h : f ≤ e) :
    (2 : ℚ) ^ e = ((2 ^ (e - f).toNat : ℤ) : ℚ) * 2 ^ f := by
  push_cast
  rw [← zpow_natCast, ← zpow_add₀ (by norm_num)]
  congr 1
  omega

/-- Rounding fixes the doubles. -/
theorem roundMagnitude_of_isMagnitude {q : ℚ} (h : IsMagnitude q) : roundMagnitude q = q := by
  obtain ⟨m, e, hm, he, rfl⟩ := h
  rcases Nat.eq_zero_or_pos m with rfl | hpos
  · simp [roundMagnitude, roundHalfEven]
  have hq : (0 : ℚ) < m * 2 ^ e := mul_pos (by exact_mod_cast hpos) (two_zpow_pos e)
  have hlog : Int.log 2 ((m : ℚ) * 2 ^ e) < e + 53 := by
    refine (Int.lt_zpow_iff_log_lt (by norm_num) hq).1 ?_
    push_cast
    rw [zpow_add₀ (by norm_num), mul_comm ((2 : ℚ) ^ e)]
    refine mul_lt_mul_of_pos_right ?_ (two_zpow_pos e)
    exact_mod_cast hm
  have hule : ulpExponent ((m : ℚ) * 2 ^ e) ≤ e := by
    unfold ulpExponent
    omega
  refine roundMagnitude_of_mul (m * 2 ^ (e - ulpExponent ((m : ℚ) * 2 ^ e)).toNat) ?_
  push_cast
  nth_rewrite 1 [zpow_eq_intCast_mul hule]
  push_cast
  ring

theorem roundMagnitude_nonneg {q : ℚ} (h : 0 ≤ q) : 0 ≤ roundMagnitude q := by
  have hp := two_zpow_pos (ulpExponent q)
  have := roundHalfEven_nonneg (div_nonneg h hp.le)
  unfold roundMagnitude
  positivity

theorem le_ulpExponent (q : ℚ) : -1074 ≤ ulpExponent q := le_max_right _ _

theorem roundHalfEven_div_le (q : ℚ) : roundHalfEven (q / 2 ^ ulpExponent q) ≤ 2 ^ 53 := by
  have hp := two_zpow_pos (ulpExponent q)
  have hlt : q / 2 ^ ulpExponent q ≤ ((2 ^ 53 : ℤ) : ℚ) := by
    rw [div_le_iff₀ hp]
    have := lt_two_zpow q
    rw [add_comm, zpow_add₀ (by norm_num)] at this
    push_cast
    exact_mod_cast this.le
  calc roundHalfEven (q / 2 ^ ulpExponent q) ≤ roundHalfEven ((2 ^ 53 : ℤ) : ℚ) :=
        roundHalfEven_mono hlt
    _ = 2 ^ 53 := roundHalfEven_intCast _

theorem isMagnitude_roundMagnitude {q : ℚ} (h : 0 ≤ q) : IsMagnitude (roundMagnitude q) := by
  have hn := roundHalfEven_nonneg (div_nonneg h (two_zpow_pos (ulpExponent q)).le)
  have hle := roundHalfEven_div_le q
  have he := le_ulpExponent q
  obtain ⟨n, hn'⟩ := Int.eq_ofNat_of_zero_le hn
  rw [hn'] at hle
  rw [roundMagnitude, hn']
  rcases Nat.lt_or_ge n (2 ^ 53) with hlt | hge
  · exact ⟨n, ulpExponent q, hlt, he, rfl⟩
  · have : n = 2 ^ 53 := by omega
    refine ⟨2 ^ 52, ulpExponent q + 1, by norm_num, by omega, ?_⟩
    rw [this, zpow_add₀ (by norm_num)]
    push_cast
    ring

/-- A power of two at or below a rational stays at or below its rounding. -/
theorem le_roundMagnitude_of_zpow_le {q : ℚ} {k : ℤ} (hk : -1074 ≤ k) (h : 2 ^ k ≤ q) :
    2 ^ k ≤ roundMagnitude q := by
  have hp := two_zpow_pos (ulpExponent q)
  have hq : 0 < q := (two_zpow_pos k).trans_le h
  rcases le_or_gt (ulpExponent q) k with hle | hgt
  · rw [zpow_eq_intCast_mul hle] at h ⊢
    have hd : ((2 ^ (k - ulpExponent q).toNat : ℤ) : ℚ) ≤ q / 2 ^ ulpExponent q := by
      rwa [le_div_iff₀ hp]
    have := roundHalfEven_mono hd
    rw [roundHalfEven_intCast] at this
    unfold roundMagnitude
    exact mul_le_mul_of_nonneg_right (by exact_mod_cast this) hp.le
  · have h52 := two_zpow_le hq (by omega)
    have hd : ((2 ^ 52 : ℤ) : ℚ) ≤ q / 2 ^ ulpExponent q := by
      rw [le_div_iff₀ hp]
      rw [add_comm, zpow_add₀ (by norm_num)] at h52
      push_cast
      exact_mod_cast h52
    have := roundHalfEven_mono hd
    rw [roundHalfEven_intCast] at this
    calc (2 : ℚ) ^ k ≤ 2 ^ (52 + ulpExponent q) :=
          zpow_le_zpow_right₀ (by norm_num) (by omega)
      _ = ((2 ^ 52 : ℤ) : ℚ) * 2 ^ ulpExponent q := by
          rw [zpow_add₀ (by norm_num)]
          norm_num
      _ ≤ roundMagnitude q := mul_le_mul_of_nonneg_right (by exact_mod_cast this) hp.le

theorem roundMagnitude_le (q : ℚ) : roundMagnitude q ≤ 2 ^ (ulpExponent q + 53) := by
  have hp := two_zpow_pos (ulpExponent q)
  have := roundHalfEven_div_le q
  calc roundMagnitude q ≤ ((2 ^ 53 : ℤ) : ℚ) * 2 ^ ulpExponent q :=
        mul_le_mul_of_nonneg_right (by exact_mod_cast this) hp.le
    _ = 2 ^ (ulpExponent q + 53) := by
        rw [add_comm, zpow_add₀ (by norm_num)]
        norm_num

/-- Rounding is monotone: within one last place because `roundHalfEven` is, across two because
the power of two between them is kept. -/
theorem roundMagnitude_mono {q r : ℚ} (hq : 0 ≤ q) (h : q ≤ r) :
    roundMagnitude q ≤ roundMagnitude r := by
  rcases hq.eq_or_lt with rfl | hpos
  · have h0 : roundMagnitude 0 = 0 := by simp [roundMagnitude, roundHalfEven]
    rw [h0]
    exact roundMagnitude_nonneg h
  rcases (ulpExponent_mono hpos h).eq_or_lt with heq | hlt
  · unfold roundMagnitude
    rw [heq]
    refine mul_le_mul_of_nonneg_right ?_ (two_zpow_pos _).le
    exact_mod_cast roundHalfEven_mono (div_le_div_of_nonneg_right h (two_zpow_pos _).le)
  · have he := le_ulpExponent q
    calc roundMagnitude q ≤ 2 ^ (ulpExponent q + 53) := roundMagnitude_le q
      _ ≤ 2 ^ (ulpExponent r + 52) := zpow_le_zpow_right₀ (by norm_num) (by omega)
      _ ≤ roundMagnitude r := by
          refine le_roundMagnitude_of_zpow_le (by omega) ?_
          exact two_zpow_le (hpos.trans_le h) (by omega)

end RoundMagnitude

/-! ## Rounding to a double -/

/-- The double nearest a rational, none on overflow. -/
def nearest (q : ℚ) : Option Binary64 :=
  if h : roundMagnitude |q| < 2 ^ 1024 then
    some
      { value := if q < 0 then -roundMagnitude |q| else roundMagnitude |q|
        isMagnitude := by
          have h1 := isMagnitude_roundMagnitude (abs_nonneg q)
          have h2 := abs_of_nonneg (roundMagnitude_nonneg (abs_nonneg q))
          split_ifs
          · rwa [abs_neg, h2]
          · rwa [h2]
        finite := by
          have h2 := abs_of_nonneg (roundMagnitude_nonneg (abs_nonneg q))
          split_ifs
          · rwa [abs_neg, h2]
          · rwa [h2] }
  else none

theorem abs_value_of_nearest {q : ℚ} {x : Binary64} (h : nearest q = some x) :
    |x.value| = roundMagnitude |q| := by
  have h2 := abs_of_nonneg (roundMagnitude_nonneg (abs_nonneg q))
  unfold nearest at h
  split_ifs at h <;> obtain rfl := Option.some.inj h
  · rw [abs_neg, h2]
  · exact h2

/-- A rational of the sign of a double that rounds to its magnitude is nearest that double. -/
theorem nearest_eq_some {q : ℚ} {x : Binary64} (hr : roundMagnitude |q| = |x.value|)
    (hs : q < 0 ↔ x.value < 0) : nearest q = some x := by
  unfold nearest
  rw [dif_pos (hr ▸ x.finite)]
  refine congrArg some (Binary64.ext ?_)
  dsimp only
  rw [hr]
  split_ifs with h
  · rw [abs_of_neg (hs.1 h), neg_neg]
  · exact abs_of_nonneg (not_lt.1 fun hx => h (hs.2 hx))

/-- A double is nearest itself. -/
theorem nearest_value (x : Binary64) : nearest x.value = some x :=
  nearest_eq_some (roundMagnitude_of_isMagnitude x.isMagnitude) Iff.rfl

instance : Zero Binary64 := ⟨⟨0, ⟨0, 0, by norm_num, by norm_num, by simp⟩, by norm_num⟩⟩

@[simp] theorem value_zero : (0 : Binary64).value = 0 := rfl

theorem value_eq_zero {x : Binary64} : x.value = 0 ↔ x = 0 :=
  ⟨fun h => Binary64.ext h, fun h => h ▸ rfl⟩

end Binary64
