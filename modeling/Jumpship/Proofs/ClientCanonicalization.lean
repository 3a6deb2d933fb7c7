import Jumpship.Proofs.Canonicalization
import Jumpship.Proofs.StrictParse

/-!
# The client's canonical JSON

`canonicalizeJson` reads the grammar `CanonicalizeJSON` reads and writes the same canonical form, so
the two agree on every well-formed text.
-/

namespace Client

open Canonical Go JsonText Unicode Decimal

/-! ## Strings and keys -/

section Strings

theorem quoteChar_eq (c : Char) : Js.quoteChar c = appendRune c := by
  unfold Js.quoteChar appendRune
  split
  · rename_i h
    rw [Canonical.toNat_eq h]
    rfl
  · rename_i h
    rw [Canonical.toNat_eq h]
    rfl
  · rename_i h
    rw [Canonical.toNat_eq h]
    rfl
  · rename_i h
    rw [Canonical.toNat_eq h]
    rfl
  · rename_i h
    rw [Canonical.toNat_eq h]
    rfl
  · rename_i h
    rw [Canonical.toNat_eq h]
    rfl
  · rename_i h
    rw [Canonical.toNat_eq h]
    rfl
  · rename_i h1 h2 h3 h4 h5 h6 h7
    have hq : ¬ (c = '"' ∨ c = '\\') := by
      rintro (rfl | rfl)
      · exact h6 rfl
      · exact h7 rfl
    rw [if_neg hq, if_neg h1, if_neg h2, if_neg h3, if_neg h4, if_neg h5]
    by_cases h : c.toNat < 0x20
    · have e1 : c.toNat / 4096 = 0 := by omega
      have e2 : c.toNat / 256 % 16 = 0 := by omega
      have e3 : c.toNat / 16 % 16 = c.toNat / 16 := by omega
      rw [if_pos h, if_pos h, e1, e2, e3]
      rfl
    · rw [if_neg h, if_neg h]

theorem unitLE_iff (a b : List Char) : UnitLE a b ↔ KeyLE a b := keyLE_iff.symm

theorem sortByName_unitLE {α : Type} (ms : List (List Char × α)) :
    Json.sortByName UnitLE ms = Json.sortByName KeyLE ms := by
  have h : UnitLE = KeyLE := by
    funext a b
    exact propext (unitLE_iff a b)
  unfold Json.sortByName
  congr 1
  funext m n
  rw [h]

end Strings

/-! ## Numbers -/

section Numbers

variable {x : Binary64}

/-- Both encoders leave positional notation at the same decimal points. -/
theorem layout_iff (hx : x.value ≠ 0) : (smallest ≤ |x.value| ∧ |x.value| < 10 ^ 21) ↔
    -6 < (shortest |x.value|).2 ∧ (shortest |x.value|).2 ≤ 21 := by
  obtain ⟨d, ds, hds, hd⟩ := shortest_eq_cons x.isMagnitude (abs_pos.2 hx)
  have hround := roundMagnitude_shortest x.isMagnitude
  have hlow := le_value hd ds (shortest |x.value|).2
  have hhigh := value_lt (d :: ds) (shortest |x.value|).2
  rw [hds] at hround
  generalize hpoint : (shortest |x.value|).2 = point at *
  generalize hD : value (d :: ds) point = D at *
  have hDpos : 0 < D := (zpow_pos (by norm_num) _).trans_le hlow
  have hbig : Binary64.roundMagnitude (10 ^ 21) = 10 ^ 21 :=
    Binary64.roundMagnitude_of_isMagnitude ⟨5 ^ 21, 21, by norm_num, by norm_num, by norm_num⟩
  have hsmall : smallest = Binary64.roundMagnitude (10 ^ (-6 : ℤ)) := by
    rw [smallest]
    norm_num
  constructor
  · rintro ⟨h1, h2⟩
    constructor
    · by_contra hle
      have hlt : D ≤ 10 ^ (-6 : ℤ) :=
        hhigh.le.trans (zpow_le_zpow_right₀ (by norm_num) (by omega))
      have hle' := Binary64.roundMagnitude_mono hDpos.le hlt
      rw [hround, ← hsmall] at hle'
      have heq : |x.value| = smallest := le_antisymm hle' h1
      have hshort : shortest smallest = ([1], -5) := by decide +kernel
      rw [heq, hshort] at hpoint
      omega
    · by_contra hle
      have hle' : (10 : ℚ) ^ 21 ≤ D := by
        refine le_trans ?_ hlow
        rw [← zpow_natCast]
        exact zpow_le_zpow_right₀ (by norm_num) (by push_cast; omega)
      have := Binary64.roundMagnitude_mono (by positivity) hle'
      rw [hround, hbig] at this
      exact absurd h2 (not_lt.2 this)
  · rintro ⟨h1, h2⟩
    constructor
    · have hle : (10 : ℚ) ^ (-6 : ℤ) ≤ D :=
        (zpow_le_zpow_right₀ (by norm_num) (by omega)).trans hlow
      have := Binary64.roundMagnitude_mono (by positivity) hle
      rwa [hround, ← hsmall] at this
    · have hlt : D ≤ 10 ^ 21 := by
        refine hhigh.le.trans ?_
        rw [← zpow_natCast]
        exact zpow_le_zpow_right₀ (by norm_num) (by push_cast; omega)
      have hle := Binary64.roundMagnitude_mono hDpos.le hlt
      rw [hround, hbig] at hle
      refine lt_of_le_of_ne hle fun heq => ?_
      have hshort : shortest (10 ^ 21) = ([1], 22) := by decide +kernel
      rw [heq, hshort] at hpoint
      omega

theorem exponent_eq (e : ℤ) : 'e' :: (if e < 0 then '-' else '+') :: Js.natToString e.natAbs
    = 'e' :: ((if 0 ≤ e then ['+'] else []) ++ itoa e) := by
  unfold itoa
  by_cases h : e < 0
  · rw [if_pos h, if_neg (by omega), if_pos h]
    rfl
  · rw [if_neg h, if_pos (by omega), if_neg h]
    rfl

theorem positiveToString_eq {ds : List Digit} (hds : ds ≠ []) (n : ℤ) :
    Js.positiveToString ds n
      = if -6 < n ∧ n ≤ 21 then fixedText ds n else exponentText ds n := by
  have hlen : 1 ≤ ds.length := List.length_pos_iff.2 hds
  unfold Js.positiveToString
  by_cases h1 : ds.length ≤ n ∧ n ≤ 21
  · rw [if_pos h1, if_pos (by omega), fixedText, if_neg (by omega), if_neg (by omega)]
    rfl
  rw [if_neg h1]
  by_cases h2 : 0 < n ∧ n ≤ 21
  · rw [if_pos h2, if_pos (by omega), fixedText, if_neg (by omega), if_pos (by omega)]
    rfl
  rw [if_neg h2]
  by_cases h3 : -6 < n ∧ n ≤ 0
  · rw [if_pos h3, if_pos (by omega), fixedText, if_pos h3.2]
    rfl
  rw [if_neg h3, if_neg (show ¬ (-6 < n ∧ n ≤ 21) by omega), exponentText, ← exponent_eq, mantissaText]
  dsimp only
  by_cases h4 : ds.length = 1
  · have htake : ds.take 1 = ds := List.take_of_length_le (by omega)
    rw [if_pos h4, if_pos (show ds.length ≤ 1 by omega), htake, List.append_nil]
    rfl
  · rw [if_neg h4, if_neg (show ¬ ds.length ≤ 1 by omega), List.append_assoc, List.cons_append]
    rfl

/-- `Number::toString` is the text JCS asks for. -/
theorem numberToString_eq (x : Binary64) : Js.numberToString x = numberText x := by
  unfold Js.numberToString numberText
  by_cases h0 : x.value = 0
  · rw [if_pos h0, if_pos h0]
  rw [if_neg h0, if_neg h0, if_congr (layout_iff h0) rfl rfl]
  obtain ⟨d, ds, hds, -⟩ := shortest_eq_cons x.isMagnitude (abs_pos.2 h0)
  have hne : (shortest |x.value|).1 ≠ [] := by
    rw [hds]
    simp
  have hlayout := positiveToString_eq hne (shortest |x.value|).2
  by_cases hneg : x.value < 0
  · rw [if_pos hneg, ← abs_of_neg hneg, hlayout, formatFloat, formatFloat, if_pos hneg]
    split_ifs <;> rfl
  · have habs := abs_of_nonneg (not_lt.1 hneg)
    rw [if_neg hneg, formatFloat, formatFloat, if_neg hneg, List.nil_append, List.nil_append,
      ← hlayout, habs]

end Numbers

/-! ## The canonical text -/

section Text

theorem canonicalElements_eq (xs : List JsonValue) :
    canonicalElements xs = xs.map canonicalValue := by
  induction xs with
  | nil => rfl
  | cons x xs ih => rw [canonicalElements, ih, List.map_cons]

theorem canonicalMembers_eq (ms : List (List Char × JsonValue)) :
    canonicalMembers ms = ms.map fun m => (m.1, canonicalValue m.2) := by
  induction ms with
  | nil => rfl
  | cons m ms ih => rw [canonicalMembers, ih, List.map_cons]

/-- The client writes the canonical form. -/
theorem canonicalValue_eq (v : JsonValue) : canonicalValue v = canonicalForm v := by
  have hquote : Js.quoteChar = appendRune := funext quoteChar_eq
  induction v using Json.induct with
  | null => rfl
  | bool b => rcases b with _ | _ <;> rfl
  | num x => exact numberToString_eq x
  | str s =>
    rw [canonicalValue, hquote]
    rfl
  | arr xs ih =>
    rw [canonicalValue, canonicalElements_eq, canonicalForm_arr, List.map_congr_left ih]
  | obj ms ih =>
    rw [canonicalValue, canonicalMembers_eq, canonicalForm_obj, sortByName_unitLE, hquote]
    congr 5
    exact List.map_congr_left fun m hm => by rw [ih m hm]

/-- On every well-formed text the Go and the TypeScript canonicalizers both fail or both answer the
same canonical text. -/
theorem canonicalizeJson_agrees (s : List Char) :
    (canonicalizeJSON (utf8 s)).toOption = (canonicalizeJson (utf16 s)).map utf8 := by
  refine Option.ext fun out => ?_
  have hgo : (canonicalizeJSON (utf8 s)).toOption = some out ↔
      canonicalizeJSON (utf8 s) = .ok out := by
    rcases canonicalizeJSON (utf8 s) with e | out'
    · simp [Except.toOption]
    · simp [Except.toOption]
  rw [hgo, canonicalizeJSON_eq_ok, canonicalizeJson, Option.map_map, Option.map_eq_some_iff]
  constructor
  · rintro ⟨w, ⟨text, htext, htw, hdist⟩, rfl⟩
    obtain rfl := utf8_injective htext
    exact ⟨w, strictParse_eq_some.2 ⟨htw, hdist⟩, congrArg utf8 (canonicalValue_eq w)⟩
  · rintro ⟨w, hw, rfl⟩
    obtain ⟨htw, hdist⟩ := strictParse_eq_some.1 hw
    exact ⟨w, ⟨s, rfl, htw, hdist⟩, congrArg utf8 (canonicalValue_eq w)⟩

end Text

end Client
