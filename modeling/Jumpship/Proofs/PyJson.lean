import Jumpship.Py.Json
import Jumpship.Proofs.Scanning
import Jumpship.Proofs.NumberText

/-!
# What json.dumps writes, json.loads reads

A value whose strings are those of a Python `str` and have no surrogate pair left to join is read
back from every layout of it, its members in the order they were written.
-/

namespace Py

open JsonText Decimal Unicode

/-! ## Numbers -/

section Numbers

theorem matchDigits_eq (t : List Char) : matchDigits t = Go.scanDigits t := by
  induction t with
  | nil => rfl
  | cons c t ih =>
    cases hc : digit? c with
    | none => simp [matchDigits, Go.scanDigits, hc]
    | some d => simp [matchDigits, Go.scanDigits, hc, ih]

theorem matchInt_eq (t : List Char) : matchInt t = Go.scanInt t := by
  unfold matchInt Go.scanInt
  rw [matchDigits_eq]
  all_goals split <;> split <;> simp_all

theorem matchFrac_of_scanFrac {t : List Char} {p : List Digit × List Char}
    (h : Go.scanFrac t = some p) : matchFrac t = p := by
  unfold Go.scanFrac at h
  split at h
  · rename_i u
    split_ifs at h with hne
    rw [matchFrac, matchDigits_eq, if_neg hne]
    exact Option.some.inj h
  · rw [matchFrac]
    · exact Option.some.inj h
    · assumption

theorem matchSign_eq (t : List Char) : matchSign t = Go.scanSign t := by
  unfold matchSign Go.scanSign
  split <;> (try split) <;> simp_all

theorem matchExp_of_scanExp {t : List Char} {p : Option Exponent × List Char}
    (h : Go.scanExp t = some p) : matchExp t = p := by
  unfold Go.scanExp Go.scanExpDigits at h
  split at h
  · split_ifs at h with hne
    simp only [matchExp, matchDigits_eq, matchSign_eq, true_or, if_true, dif_pos hne]
    exact Option.some.inj h
  · split_ifs at h with hne
    simp only [matchExp, matchDigits_eq, matchSign_eq, or_true, if_true, dif_pos hne]
    exact Option.some.inj h
  · rename_i he hE
    rw [← Option.some.inj h]
    unfold matchExp
    split
    · rename_i e u
      rw [if_neg]
      rintro (rfl | rfl)
      · exact he u rfl
      · exact hE u rfl
    · rfl

/-- Where Go takes a number literal, Python's pattern matches all of it. -/
theorem matchNumber_of_scanNumber {t : List Char} {p : JsonText.Number × List Char}
    (h : Go.scanNumber t = some p) : matchNumber t = some p := by
  have hminus : matchMinus t = Go.scanMinus t := by
    unfold matchMinus Go.scanMinus
    split <;> (try split) <;> simp_all
  unfold Go.scanNumber Go.scanUnsigned at h
  rw [matchNumber, hminus]
  unfold matchUnsigned
  simp only [matchInt_eq]
  split_ifs at h with hint
  rw [dif_neg hint]
  split at h
  · cases h
  · rename_i frac t' hfrac
    split at h
    · cases h
    · rename_i exp r hexp
      simp only [matchFrac_of_scanFrac hfrac, matchExp_of_scanExp hexp]
      exact h

theorem matchNumber_append (n : JsonText.Number) {r : List Char} (h : Go.Follow r) :
    matchNumber (n.text ++ r) = some (n, r) :=
  matchNumber_of_scanNumber (Go.scanNumber_append n h)

theorem natRepr_eq (n : ℕ) : natRepr n = (Canonical.natDigits n).map digitChar :=
  Canonical.natText_eq n

theorem intRepr_literal (z : ℤ) :
    ∃ n : JsonText.Number, intRepr z = n.text ∧ numberOf n = .int z := by
  have hzero : ∀ ds, Canonical.natDigits z.natAbs = 0 :: ds → ds = [] := by
    intro ds h
    unfold Canonical.natDigits at h
    split_ifs at h with h0
    · exact (List.cons.inj h).2.symm
    · obtain ⟨d, es, heq, hd⟩ := ofNat_eq_cons (Nat.pos_of_ne_zero h0)
      rw [heq] at h
      exact absurd (List.cons.inj h).1 hd
  refine ⟨⟨decide (z < 0), Canonical.natDigits z.natAbs, [], none, Canonical.natDigits_ne _, hzero⟩,
    ?_, ?_⟩
  · simp [intRepr, natRepr_eq, JsonText.Number.text, fracText, expText]
  · simp only [numberOf, intOf, Canonical.toNat_natDigits, and_self, if_true, decide_eq_true_eq,
      Number.int.injEq]
    split_ifs <;> omega

/-- The exponent `repr` writes has two digits at least. -/
theorem exponentRepr (e : ℤ) : ∃ x : Exponent, x.value = e ∧
    'e' :: ((if e < 0 then '-' else '+') ::
      ((if e.natAbs < 10 then ['0'] else []) ++ natRepr e.natAbs)) = x.text := by
  refine ⟨⟨false, some (decide (e < 0)),
    (if e.natAbs < 10 then [0] else []) ++ Canonical.natDigits e.natAbs, ?_⟩, ?_, ?_⟩
  · simp [Canonical.natDigits_ne]
  · have hdigits : Decimal.toNat ((if e.natAbs < 10 then [0] else []) ++ Canonical.natDigits e.natAbs)
        = e.natAbs := by
      split_ifs
      · rw [toNat_append]
        simp [toNat_cons]
      · simp
    simp only [Exponent.value, hdigits, Option.some.injEq, decide_eq_true_eq]
    split_ifs <;> omega
  · rw [Exponent.text, natRepr_eq]
    by_cases he : e < 0 <;> by_cases h10 : e.natAbs < 10 <;>
      simp [he, h10, signText] <;> rfl

/-- The digits before and after the point of `repr`, where it writes no exponent. -/
theorem positiveRepr_parts {d : Digit} (hd : d ≠ 0) (ds : List Digit) {point : ℤ}
    (hpoint : ¬ (point ≤ -4 ∨ 16 < point)) :
    ∃ int frac, int ≠ [] ∧ (∀ es, int = 0 :: es → es = []) ∧ frac ≠ [] ∧
      positiveRepr (d :: ds) point = int.map digitChar ++ fracText frac ∧
      (Decimal.toNat (int ++ frac) : ℚ) * 10 ^ (0 - (frac.length : ℤ)) = value (d :: ds) point := by
  rw [not_or] at hpoint
  by_cases hlen : 0 < point ∧ ((d :: ds).length : ℤ) ≤ point
  · obtain ⟨hpos, hlen⟩ := hlen
    refine ⟨(d :: ds) ++ List.replicate (point - (d :: ds).length).toNat 0, [0], by simp, ?_,
      by simp, ?_, ?_⟩
    · intro es hes
      exact absurd (List.cons.inj hes).1 hd
    · simp only [positiveRepr, hpoint.1, hpoint.2, or_self, if_false, not_le.2 hpos, hlen, if_true,
        List.map_append, List.map_replicate, fracText, List.append_assoc]
      rfl
    · rw [List.append_assoc, ← List.replicate_succ', Canonical.value_append_zeros, value]
      push_cast
      rw [mul_assoc, pow_succ', List.length_singleton, mul_comm (10 : ℚ), mul_assoc, ← zpow_natCast,
        Int.toNat_of_nonneg (by omega)]
      norm_num
  · obtain ⟨int, frac, hint, hzero, htext, hvalue⟩ := Canonical.fixedText_parts hd ds point
    have hfixed : positiveRepr (d :: ds) point = Go.fixedText (d :: ds) point := by
      unfold positiveRepr Go.fixedText
      simp only [hpoint.1, hpoint.2, or_self, if_false]
      by_cases hpos : point ≤ 0
      · simp [hpos, Go.digitsText]
      · have hlt : point < ((d :: ds).length : ℤ) := by omega
        simp only [hpos, if_false, not_le.2 hlt, hlt, if_true, Go.digitsText, List.map_take,
          List.map_drop]
    refine ⟨int, frac, hint, hzero, ?_, by rw [hfixed, htext, Go.digitsText], hvalue⟩
    rintro rfl
    -- A text with a point is not one of digits alone.
    have hmem : '.' ∈ Go.fixedText (d :: ds) point := by
      unfold Go.fixedText
      by_cases hpos : point ≤ 0
      · simp [hpos]
      · have hlt : point < ((d :: ds).length : ℤ) := by omega
        simp only [hpos, if_false, hlt, if_true]
        exact List.mem_append_right _ List.mem_cons_self
    rw [htext, fracText, if_pos rfl, List.append_nil] at hmem
    obtain ⟨e, -, he⟩ := List.mem_map.1 hmem
    revert he
    revert e
    decide

theorem floatRepr_literal {x : Binary64} (hx : x.value ≠ 0) : ∃ n : JsonText.Number,
    floatRepr (.finite x) = n.text ∧ numberOf n = .float (.finite x) := by
  obtain ⟨d, ds, hds, hd⟩ := shortest_eq_cons x.isMagnitude (abs_pos.2 hx)
  set point := (shortest |x.value|).2 with hpointdef
  have hnumber : ∀ n : JsonText.Number, (n.frac ≠ [] ∨ n.exp ≠ none) →
      Binary64.nearest n.value = some x → numberOf n = .float (.finite x) := by
    intro n hfloat hnear
    have hint : ¬ (n.frac = [] ∧ n.exp = none) := by tauto
    simp [numberOf, hint, floatOf, hnear, hx]
  by_cases hpoint : point ≤ -4 ∨ 16 < point
  · obtain ⟨e, hvalue, htext⟩ := exponentRepr (point - 1)
    refine ⟨⟨decide (x.value < 0), [d], ds, some e, by simp, by simp⟩, ?_, hnumber _ (by simp)
      (Canonical.nearest_of_shortest hx ?_)⟩
    · rw [floatRepr, if_neg hx, ← hpointdef, hds, Canonical.Number.text_mk, expText, positiveRepr]
      simp only [hpoint, if_true, htext, decide_eq_true_eq]
      rcases ds with _ | ⟨d', ds⟩
      · simp [fracText, Go.digitsText]
      · simp [fracText, Go.digitsText]
    · rw [JsonText.Number.value, hds, ← hpointdef, value]
      simp only [decide_eq_true_eq, Option.elim, hvalue, List.singleton_append, List.length_cons]
      congr 3
      push_cast
      omega
  · obtain ⟨int, frac, hint, hzero, hfrac, htext, hvalue⟩ := positiveRepr_parts hd ds hpoint
    refine ⟨⟨decide (x.value < 0), int, frac, none, hint, hzero⟩, ?_, hnumber _ (.inl hfrac)
      (Canonical.nearest_of_shortest hx ?_)⟩
    · rw [floatRepr, if_neg hx, ← hpointdef, hds, htext, Canonical.Number.text_mk, expText,
        List.append_nil, Go.digitsText]
      simp only [decide_eq_true_eq]
    · rw [JsonText.Number.value, hds, ← hpointdef, ← hvalue]
      simp only [decide_eq_true_eq, Option.elim]

/-- A number that is neither an infinity nor nan is written as a literal of itself. -/
theorem numberRepr_literal : ∀ {x : Number}, x.isFinite = true →
    ∃ n : JsonText.Number, numberRepr x = n.text ∧ numberOf n = x
  | .int z, _ => intRepr_literal z
  | .float .negZero, _ => ⟨⟨true, [0], [0], none, by simp, by simp⟩, rfl, by decide +kernel⟩
  | .float (.finite x), _ => by
    by_cases hx : x.value = 0
    · obtain rfl := Binary64.value_eq_zero.1 hx
      exact ⟨⟨false, [0], [0], none, by simp, by simp⟩, rfl, by decide +kernel⟩
    · exact floatRepr_literal hx

end Numbers

/-! ## Strings -/

section Strings

theorem scanString_eq (t : List Char) : scanString t = Go.scanString t := by
  fun_induction scanString t
  case case1 => rfl
  all_goals
    rw [Go.scanString.eq_def]
    simp_all

/-- The code points of a `str` that has no pair of surrogates left to join. -/
structure Readable (codes : List ℕ) : Prop where
  range : ∀ c ∈ codes, c < 0x110000
  apart : codes.IsChain fun c d => ¬ (isHighSurrogate c = true ∧ isLowSurrogate d = true)

theorem Readable.tail {c : ℕ} {codes : List ℕ} (h : Readable (c :: codes)) : Readable codes :=
  ⟨fun d hd => h.range d (List.mem_cons_of_mem _ hd), h.apart.tail⟩

theorem Readable.of_ascii {codes : List ℕ} (h : ∀ c ∈ codes, c < 0x80) : Readable codes where
  range := fun c hc => (h c hc).trans (by decide)
  apart := List.isChain_iff_forall_rel_of_append_cons_cons.2 fun c d l₁ l₂ hl => by
    have hc := h c (by simp [hl])
    simp only [isHighSurrogate, Bool.and_eq_true, decide_eq_true_eq]
    omega

theorem joinSurrogates_single {u : ℕ} {us : List ℕ}
    (h : ∀ v vs, us = v :: vs → ¬ (isHighSurrogate u = true ∧ isLowSurrogate v = true)) :
    joinSurrogates (u :: us) = u :: joinSurrogates us := by
  rcases us with _ | ⟨v, vs⟩
  · rfl
  · have hpair : ¬ (isHighSurrogate u && isLowSurrogate v) = true := by
      simpa using h v vs rfl
    rw [joinSurrogates, if_neg hpair]

theorem units_head (d : ℕ) (hd : d < 0x110000) : ∃ v vs, units d = v :: vs ∧
    (isLowSurrogate v = true → isLowSurrogate d = true) := by
  unfold units
  split_ifs
  · exact ⟨d, [], rfl, id⟩
  · refine ⟨_, _, rfl, ?_⟩
    simp only [isLowSurrogate, Bool.and_eq_true, decide_eq_true_eq]
    omega

/-- The code points are read back from their code units. -/
theorem joinSurrogates_units : ∀ {codes : List ℕ}, Readable codes →
    joinSurrogates (codes.flatMap units) = codes
  | [], _ => rfl
  | c :: codes, h => by
    have ih := joinSurrogates_units h.tail
    have hc : c < 0x110000 := h.range c List.mem_cons_self
    by_cases hbig : c < 0x10000
    · have hunits : units c = [c] := if_pos hbig
      rw [List.flatMap_cons, hunits, List.singleton_append, joinSurrogates_single, ih]
      intro v vs hv
      rcases codes with _ | ⟨d, codes⟩
      · cases hv
      · obtain ⟨v', vs', hd, hlow⟩ := units_head d (h.range d (by simp))
        rw [List.flatMap_cons, hd, List.cons_append] at hv
        obtain ⟨rfl, -⟩ := List.cons.inj hv
        exact fun hpair => (List.isChain_cons_cons.1 h.apart).1 ⟨hpair.1, hlow hpair.2⟩
    · have hunits : units c = [0xD800 + (c - 0x10000) / 0x400, 0xDC00 + (c - 0x10000) % 0x400] :=
        if_neg hbig
      have hpair : (isHighSurrogate (0xD800 + (c - 0x10000) / 0x400)
          && isLowSurrogate (0xDC00 + (c - 0x10000) % 0x400)) = true := by
        simp only [isHighSurrogate, isLowSurrogate, Bool.and_eq_true, decide_eq_true_eq]
        omega
      rw [List.flatMap_cons, hunits, List.cons_append, List.cons_append, List.nil_append,
        joinSurrogates, if_pos hpair, ih, List.cons.injEq]
      exact ⟨by omega, rfl⟩

/-- The head of joined code units is the first of them, unless they pair. -/
theorem joinSurrogates_head {u d : ℕ} {us ds : List ℕ} (h : joinSurrogates (u :: us) = d :: ds) :
    d = u ∨ 0x10000 ≤ d := by
  rcases us with _ | ⟨v, us⟩
  · rw [joinSurrogates, List.cons.injEq] at h
    exact .inl h.1.symm
  · rw [joinSurrogates] at h
    split_ifs at h
    · rw [List.cons.injEq] at h
      omega
    · exact .inl (List.cons.inj h).1.symm

theorem readable_joinSurrogates (us : List ℕ) (h : ∀ u ∈ us, u < 0x10000) :
    Readable (joinSurrogates us) := by
  fun_induction joinSurrogates us with
  | case1 => exact ⟨by simp, .nil⟩
  | case2 u =>
    have := h u (by simp)
    exact ⟨by simp; omega, .singleton u⟩
  | case3 u v us hpair ih =>
    have hus := ih fun w hw => h w (by simp [hw])
    simp only [isHighSurrogate, isLowSurrogate, Bool.and_eq_true, decide_eq_true_eq] at hpair
    refine ⟨List.forall_mem_cons.2 ⟨by omega, hus.range⟩, ?_⟩
    refine hus.apart.cons fun d _ hbad => ?_
    simp only [isHighSurrogate, Bool.and_eq_true, decide_eq_true_eq] at hbad
    omega
  | case4 u v us hpair ih =>
    have hus := ih fun w hw => h w (List.mem_cons_of_mem _ hw)
    have hu := h u (by simp)
    refine ⟨List.forall_mem_cons.2 ⟨by omega, hus.range⟩, ?_⟩
    refine hus.apart.cons fun d hd hbad => ?_
    rcases hjoin : joinSurrogates (v :: us) with _ | ⟨d', ds⟩
    · simp [hjoin] at hd
    · simp only [hjoin, List.head?_cons, Option.mem_def, Option.some.injEq] at hd
      subst hd
      obtain rfl | hbig := joinSurrogates_head hjoin
      · exact hpair (by simp [hbad])
      · simp only [isLowSurrogate, Bool.and_eq_true, decide_eq_true_eq] at hbad
        omega

theorem codes_ofCodes (codes : List ℕ) : (Str.ofCodes codes).codes = codes := by
  unfold Str.ofCodes
  split_ifs with h
  · rfl
  · simp only [not_exists, not_and, not_not] at h
    simp only [Str.codes, String.toList_ofList, List.map_map]
    conv_rhs => rw [← List.map_id codes]
    exact List.map_congr_left fun c hc => toNat_ofNat (h c hc)

theorem ofCodes_codes (s : Str) : Str.ofCodes s.codes = s := by
  cases s with
  | text s =>
    have hvalid : ¬ ∃ c ∈ (Str.text s).codes, ¬ c.isValidChar := by
      rintro ⟨n, hn, hbad⟩
      obtain ⟨c, -, rfl⟩ := List.mem_map.1 hn
      exact hbad c.valid
    rw [Str.ofCodes, dif_neg hvalid, Str.codes, List.map_map]
    congr 1
    conv_rhs => rw [← String.ofList_toList (s := s)]
    congr 1
    conv_rhs => rw [← List.map_id s.toList]
    exact List.map_congr_left fun c _ => Char.ofNat_toNat c
  | surrogates codes h => rw [Str.ofCodes, dif_pos (by exact h)]; rfl

theorem hex4_escapeUnit {u : ℕ} (h : u < 0x10000) : hex4 (Hex.digit (u / 4096))
    (Hex.digit (u / 256 % 16)) (Hex.digit (u / 16 % 16)) (Hex.digit (u % 16)) = some u := by
  have hdigit : ∀ n < 16, hexDigit? (Hex.digit n) = some n := by decide
  refine hex4_eq_some.2 ⟨_, _, _, _, hdigit _ (by omega), hdigit _ (by omega), hdigit _ (by omega),
    hdigit _ (by omega), by omega⟩

theorem stringBody_escapeUnits : ∀ {us vs : List ℕ} {t r : List Char}, (∀ u ∈ us, u < 0x10000) →
    StringBody t vs r → StringBody (us.flatMap escapeUnit ++ t) (us ++ vs) r
  | [], _, _, _, _, ht => ht
  | u :: us, vs, t, r, h, ht => by
    have ih := stringBody_escapeUnits (fun v hv => h v (List.mem_cons_of_mem _ hv)) ht
    exact .unicode (hex4_escapeUnit (h u List.mem_cons_self)) ih

theorem units_lt {c : ℕ} (hc : c < 0x110000) : ∀ u ∈ units c, u < 0x10000 := by
  unfold units
  split_ifs
  · simpa
  · simp only [List.mem_cons, List.not_mem_nil, or_false, forall_eq_or_imp, forall_eq]
    omega

/-- What is written for a code point denotes its code units. -/
theorem stringBody_escapeCode {c : ℕ} (hc : c < 0x110000) {t r : List Char} {us : List ℕ}
    (h : StringBody t us r) : StringBody (escapeCode c ++ t) (units c ++ us) r := by
  unfold escapeCode
  split
  iterate 7 exact .escape rfl h
  split_ifs with hplain
  · have hunit : utf16Char (Char.ofNat c) = [c] := by
      rw [utf16Char, toNat_ofNat (.inl (by omega)), if_pos (by omega)]
    have hchar : IsPlain (Char.ofNat c) := by
      refine ⟨?_, ?_, ?_⟩
      · rw [toNat_ofNat (.inl (by omega))]
        exact hplain.1
      · rintro heq
        have := congrArg Char.toNat heq
        rw [toNat_ofNat (.inl (by omega))] at this
        exact absurd this (by assumption)
      · rintro heq
        have := congrArg Char.toNat heq
        rw [toNat_ofNat (.inl (by omega))] at this
        exact absurd this (by assumption)
    have hunits : units c = utf16Char (Char.ofNat c) := by
      rw [hunit, units, if_pos (by omega)]
    rw [hunits]
    exact .plain hchar h
  · exact stringBody_escapeUnits (units_lt hc) h

theorem scanString_escape {codes : List ℕ} (h : Readable codes) (r : List Char) :
    scanString (codes.flatMap escapeCode ++ '"' :: r) = some (codes.flatMap units, r) := by
  rw [scanString_eq]
  refine Go.scanString_of_stringBody ?_
  have hrange := h.range
  clear h
  induction codes with
  | nil => exact .close r
  | cons c codes ih =>
    obtain ⟨hc, hcodes⟩ := List.forall_mem_cons.1 hrange
    rw [List.flatMap_cons, List.flatMap_cons, List.append_assoc]
    exact stringBody_escapeCode hc (ih hcodes)

/-- A string is read back from its quotation. -/
theorem scanString_quote {s : Str} (h : Readable s.codes) (r : List Char) :
    ∃ us, scanString (s.codes.flatMap escapeCode ++ '"' :: r) = some (us, r) ∧ strOf us = s :=
  ⟨_, scanString_escape h r, by rw [strOf, joinSurrogates_units h, ofCodes_codes]⟩

theorem readable_of_scanString {t r : List Char} {us : List ℕ} (h : scanString t = some (us, r)) :
    Readable (strOf us).codes := by
  rw [strOf, codes_ofCodes]
  rw [scanString_eq] at h
  exact readable_joinSurrogates us (Go.stringBody_of_scanString h).lt

end Strings

/-! ## Layouts -/

section Layouts

/-- Separators are their punctuation and whitespace. -/
structure Layout.Spaced (layout : Layout) : Prop where
  item : ∃ w, layout.itemSeparator = ',' :: w ∧ ∀ c ∈ w, isSpace c = true
  key : ∃ w, layout.keySeparator = ':' :: w ∧ ∀ c ∈ w, isSpace c = true

theorem Layout.spaced_plain : Layout.plain.Spaced :=
  ⟨⟨[' '], rfl, by simp [isSpace]⟩, ⟨[' '], rfl, by simp [isSpace]⟩⟩

theorem Layout.spaced_pretty : Layout.pretty.Spaced :=
  ⟨⟨[], rfl, by simp⟩, ⟨[' '], rfl, by simp [isSpace]⟩⟩

theorem Layout.isSpace_newline (layout : Layout) (depth : ℕ) :
    ∀ c ∈ layout.newline depth, isSpace c = true := by
  unfold Layout.newline
  split
  · simp
  · simp only [List.mem_cons, List.mem_replicate]
    rintro c (rfl | ⟨-, rfl⟩) <;> rfl

theorem skipSpace_append {w : List Char} (h : ∀ c ∈ w, isSpace c = true) (t : List Char) :
    skipSpace (w ++ t) = skipSpace t := by
  induction w with
  | nil => rfl
  | cons c w ih =>
    obtain ⟨hc, hw⟩ := List.forall_mem_cons.1 h
    rw [List.cons_append, skipSpace, if_pos hc, ih hw]

theorem Layout.order_map {α β : Type} (layout : Layout) (f : α → β) (ms : List (Str × α)) :
    layout.order (ms.map fun m => (m.1, f m.2))
      = (layout.order ms).map fun m => (m.1, f m.2) := by
  unfold Layout.order
  split_ifs
  · exact (List.map_insertionSort (fun m n : Str × α => KeyLE m.1 n.1)
      (fun m n : Str × β => KeyLE m.1 n.1) _ ms fun _ _ _ _ => Iff.rfl).symm
  · rfl

theorem Layout.perm_order {α : Type} (layout : Layout) (ms : List (Str × α)) :
    (layout.order ms).Perm ms := by
  unfold Layout.order
  split_ifs
  · exact Json.perm_sortByName _ ms
  · exact .refl _

/-- The value with the members of every object in the order they are written in. -/
def Layout.normal (layout : Layout) (v : Value) : Value :=
  if layout.sortKeys then Json.sortMembers KeyLE v else v

theorem Layout.normal_arr (layout : Layout) (xs : List Value) :
    layout.normal (.arr xs) = .arr (xs.map layout.normal) := by
  by_cases h : layout.sortKeys = true
  · simp [Layout.normal, h]
  · have hid : layout.normal = id := by
      funext v
      simp [Layout.normal, h]
    simp [hid]

theorem Layout.normal_obj (layout : Layout) (ms : Dict) :
    layout.normal (.obj ms) = .obj ((layout.order ms).map fun m => (m.1, layout.normal m.2)) := by
  rw [← layout.order_map]
  by_cases h : layout.sortKeys = true
  · simp [Layout.normal, Layout.order, h]
  · simp [Layout.normal, Layout.order, h]

end Layouts

/-! ## Values -/

section Values

mutual
/-- Every string in the value is readable, and no object repeats a name. -/
def ReadableValue : Value → Prop
  | .null | .bool _ | .num _ => True
  | .str s => Readable s.codes
  | .arr xs => ReadableList xs
  | .obj ms => (Json.names ms).Nodup ∧ ReadableMembers ms
def ReadableList : List Value → Prop
  | [] => True
  | x :: xs => ReadableValue x ∧ ReadableList xs
def ReadableMembers : List (Str × Value) → Prop
  | [] => True
  | (k, x) :: ms => (Readable k.codes ∧ ReadableValue x) ∧ ReadableMembers ms
end

@[simp] theorem readableValue_arr {xs : List Value} :
    ReadableValue (.arr xs) ↔ ∀ x ∈ xs, ReadableValue x := by
  rw [ReadableValue]
  induction xs with
  | nil => simp [ReadableList]
  | cons x xs ih => simp [ReadableList, ih]

@[simp] theorem readableValue_obj {ms : Dict} : ReadableValue (.obj ms) ↔
    (Json.names ms).Nodup ∧ ∀ m ∈ ms, Readable m.1.codes ∧ ReadableValue m.2 := by
  have hmembers : ReadableMembers ms ↔ ∀ m ∈ ms, Readable m.1.codes ∧ ReadableValue m.2 := by
    induction ms with
    | nil => simp [ReadableMembers]
    | cons m ms ih => simp [ReadableMembers, ih]
  rw [ReadableValue, hmembers]

theorem dumpsElements_eq (layout : Layout) (depth : ℕ) (xs : List Value) :
    dumpsElements layout depth xs = xs.map (dumpsAt layout depth) := by
  induction xs with
  | nil => rfl
  | cons x xs ih => rw [dumpsElements, ih, List.map_cons]

theorem dumpsMembers_eq (layout : Layout) (depth : ℕ) (ms : Dict) :
    dumpsMembers layout depth ms = ms.map fun m => (m.1, dumpsAt layout depth m.2) := by
  induction ms with
  | nil => rfl
  | cons m ms ih => rw [dumpsMembers, ih, List.map_cons]

/-- A written value starts with a character that neither is whitespace nor closes anything. -/
theorem dumpsAt_start (layout : Layout) (depth : ℕ) (v : Value) : ∃ c t,
    dumpsAt layout depth v = c :: t ∧ isSpace c = false ∧ c ≠ ']' ∧ c ≠ '}' := by
  cases v with
  | null => exact ⟨_, _, rfl, by decide⟩
  | bool b => cases b <;> exact ⟨_, _, rfl, by decide⟩
  | str s => exact ⟨_, _, rfl, by decide⟩
  | arr xs => exact ⟨_, _, rfl, by decide⟩
  | obj ms => exact ⟨_, _, rfl, by decide⟩
  | num x =>
    by_cases hx : x.isFinite = true
    · obtain ⟨n, htext, -⟩ := numberRepr_literal hx
      obtain ⟨c, t, ht, hspace, hsep⟩ := n.text_start []
      rw [List.append_nil] at ht
      rw [dumpsAt, htext, ht]
      refine ⟨c, t, rfl, hspace, ?_, ?_⟩
      · rintro rfl
        exact hsep (by simp [IsSeparator])
      · rintro rfl
        exact hsep (by simp [IsSeparator])
    · rcases x with n | x | _ | _ | _
      · simp [Number.isFinite, Number.value?] at hx
      · simp [Number.isFinite, Number.value?] at hx
      · simp [Number.isFinite, Number.value?] at hx
      · rename_i negative
        cases negative <;> exact ⟨_, _, rfl, by decide⟩
      · exact ⟨_, _, rfl, by decide⟩

theorem skipSpace_dumpsAt (layout : Layout) (depth : ℕ) (v : Value) (r : List Char) :
    skipSpace (dumpsAt layout depth v ++ r) = dumpsAt layout depth v ++ r := by
  obtain ⟨c, t, ht, hc, -⟩ := dumpsAt_start layout depth v
  rw [ht, List.cons_append, skipSpace_cons hc]

theorem dictOf_eq {ms : Dict} (h : (Json.names ms).Nodup) : dictOf ms = ms := by
  have hset : ∀ (d : Dict) (k : Str) (v : Value), k ∉ Json.names d →
      setItem d k v = d ++ [(k, v)] := by
    intro d k v hk
    induction d with
    | nil => rfl
    | cons m d ih =>
      simp only [Json.names_cons, List.mem_cons, not_or] at hk
      rw [setItem, if_neg (Ne.symm hk.1), ih hk.2, List.cons_append]
  have hfold : ∀ (ms d : Dict), (Json.names (d ++ ms)).Nodup →
      ms.foldl (fun d m => setItem d m.1 m.2) d = d ++ ms := by
    intro ms
    induction ms with
    | nil => simp
    | cons m ms ih =>
      intro d hnd
      have hm : m.1 ∉ Json.names d := by
        simp only [Json.names_append, Json.names_cons, List.nodup_append, List.mem_cons] at hnd
        exact fun hmem => hnd.2.2 _ hmem _ (.inl rfl) rfl
      rw [List.foldl_cons, hset d m.1 m.2 hm, ih]
      · simp
      · simpa using hnd
  rw [dictOf, hfold ms [] (by simpa using h), List.nil_append]

/-- Reading back one value, whatever follows it. -/
def ReadsBack (layout : Layout) (depth : ℕ) (v : Value) : Prop :=
  ∀ fuel r, Go.Follow r → (dumpsAt layout depth v).length < fuel →
    scanValue fuel (dumpsAt layout depth v ++ r) = some (layout.normal v, r)

theorem follow_of_space {w : List Char} (hw : ∀ c ∈ w, isSpace c = true) {r : List Char}
    (hr : Go.Follow r) : Go.Follow (w ++ r) := by
  rcases w with _ | ⟨c, w⟩
  · exact hr
  · have hc := hw c (by simp)
    simp only [isSpace, Bool.or_eq_true, decide_eq_true_eq] at hc
    obtain ((rfl | rfl) | rfl) | rfl := hc <;> exact ⟨rfl, by decide, by decide, by decide⟩

theorem intercalate_start {p t : List Char} {c : Char} (hp : p = c :: t) (sep : List Char)
    (ps : List (List Char)) (r : List Char) :
    ∃ t', List.intercalate sep (p :: ps) ++ r = c :: t' := by
  subst hp
  rcases ps with _ | ⟨p', ps⟩
  · rw [List.intercalate_singleton]
    exact ⟨_, rfl⟩
  · simp only [List.intercalate_cons_cons, List.cons_append]
    exact ⟨_, rfl⟩

theorem skipSpace_intercalate {p t : List Char} {c : Char} (hp : p = c :: t)
    (hc : isSpace c = false) (sep : List Char) (ps : List (List Char)) (r : List Char) :
    skipSpace (List.intercalate sep (p :: ps) ++ r) = List.intercalate sep (p :: ps) ++ r := by
  obtain ⟨t', ht'⟩ := intercalate_start hp sep ps r
  rw [ht', skipSpace_cons hc]

theorem scanElements_parts {layout : Layout} {depth : ℕ} {sep after : List Char}
    (hsep : ∀ c ∈ sep, isSpace c = true) (hafter : ∀ c ∈ after, isSpace c = true) :
    ∀ {xs : List Value}, xs ≠ [] → (∀ x ∈ xs, ReadsBack layout depth x) → ∀ fuel r,
      (List.intercalate (',' :: sep) (xs.map (dumpsAt layout depth))).length + 1 < fuel →
      scanElements fuel (List.intercalate (',' :: sep) (xs.map (dumpsAt layout depth))
        ++ (after ++ ']' :: r)) = some (xs.map layout.normal, r)
  | [], hne, _, _, _, _ => absurd rfl hne
  | [x], _, ih, 0, _, hfuel => absurd hfuel (by omega)
  | [x], _, ih, fuel + 1, r, hfuel => by
    simp only [List.map_cons, List.map_nil, List.intercalate_singleton] at hfuel ⊢
    have hx := ih x (by simp) fuel (after ++ ']' :: r)
      (follow_of_space hafter ⟨rfl, by decide, by decide, by decide⟩) (by omega)
    have hskip : skipSpace (after ++ ']' :: r) = ']' :: r := by
      rw [skipSpace_append hafter]
      rfl
    rw [scanElements, hx]
    simp [hskip]
  | x :: y :: xs, _, ih, 0, _, hfuel => absurd hfuel (by omega)
  | x :: y :: xs, _, ih, fuel + 1, r, hfuel => by
    have hrest := @scanElements_parts layout depth _ _ hsep hafter (y :: xs)
      (by simp) (fun z hz => ih z (List.mem_cons_of_mem _ hz)) fuel r
    simp only [List.map_cons, List.intercalate_cons_cons, List.length_append, List.length_cons,
      List.append_assoc, List.cons_append] at hfuel hrest ⊢
    have hx := ih x (by simp) fuel (',' :: (sep ++ (List.intercalate (',' :: sep)
      (dumpsAt layout depth y :: xs.map (dumpsAt layout depth)) ++ (after ++ ']' :: r))))
      ⟨rfl, by decide, by decide, by decide⟩ (by omega)
    have hskip : skipSpace (sep ++ (List.intercalate (',' :: sep)
        (dumpsAt layout depth y :: xs.map (dumpsAt layout depth)) ++ (after ++ ']' :: r)))
        = List.intercalate (',' :: sep)
          (dumpsAt layout depth y :: xs.map (dumpsAt layout depth)) ++ (after ++ ']' :: r) := by
      obtain ⟨c, t, ht, hc, -⟩ := dumpsAt_start layout depth y
      rw [skipSpace_append hsep, skipSpace_intercalate ht hc]
    rw [scanElements, hx]
    simp only [Option.bind_eq_bind, Option.bind_some,
      skipSpace_cons (show isSpace ',' = false by decide)]
    rw [hskip, hrest (by omega)]
    simp

theorem scanMembers_parts {layout : Layout} {depth : ℕ} {sep after key : List Char}
    (hsep : ∀ c ∈ sep, isSpace c = true) (hafter : ∀ c ∈ after, isSpace c = true)
    (hkey : layout.keySeparator = ':' :: key) (hspace : ∀ c ∈ key, isSpace c = true) :
    ∀ {ms : Dict}, ms ≠ [] → (∀ m ∈ ms, Readable m.1.codes ∧ ReadsBack layout depth m.2) →
      ∀ fuel r,
      (List.intercalate (',' :: sep)
        (ms.map fun m => layout.member (m.1, dumpsAt layout depth m.2))).length + 1 < fuel →
      scanMembers fuel (List.intercalate (',' :: sep)
          (ms.map fun m => layout.member (m.1, dumpsAt layout depth m.2)) ++ (after ++ '}' :: r))
        = some (ms.map fun m => (m.1, layout.normal m.2), r) := by
  have hmember : ∀ (m : Str × Value) (fuel : ℕ) (t : List Char), Readable m.1.codes →
      ReadsBack layout depth m.2 → Go.Follow t → (dumpsAt layout depth m.2).length < fuel →
      ∃ us, scanString (m.1.codes.flatMap escapeCode ++
          '"' :: (':' :: (key ++ (dumpsAt layout depth m.2 ++ t))))
          = some (us, ':' :: (key ++ (dumpsAt layout depth m.2 ++ t))) ∧ strOf us = m.1 ∧
        scanValue fuel (skipSpace (key ++ (dumpsAt layout depth m.2 ++ t)))
          = some (layout.normal m.2, t) := by
    intro m fuel t hm hback ht hfuel
    obtain ⟨us, hscan, hstr⟩ := scanString_quote hm
      (':' :: (key ++ (dumpsAt layout depth m.2 ++ t)))
    refine ⟨us, hscan, hstr, ?_⟩
    rw [skipSpace_append hspace, skipSpace_dumpsAt, hback fuel t ht hfuel]
  intro ms
  induction ms with
  | nil => exact fun hne => absurd rfl hne
  | cons m ms ih =>
    intro _ hms fuel r hfuel
    obtain ⟨⟨hm, hback⟩, hms⟩ := List.forall_mem_cons.1 hms
    rcases fuel with _ | fuel
    · omega
    rcases ms with _ | ⟨m', ms⟩
    · simp only [List.map_cons, List.map_nil, List.intercalate_singleton, Layout.member, quote, hkey,
        List.append_assoc, List.cons_append, List.nil_append, List.length_append, List.length_cons]
        at hfuel ⊢
      obtain ⟨us, hscan, hstr, hvalue⟩ := hmember m fuel (after ++ '}' :: r) hm hback
        (follow_of_space hafter ⟨rfl, by decide, by decide, by decide⟩) (by omega)
      have hskip : skipSpace (after ++ '}' :: r) = '}' :: r := by
        rw [skipSpace_append hafter]
        rfl
      rw [scanMembers, hscan]
      simp only [Option.bind_eq_bind, Option.bind_some,
        skipSpace_cons (show isSpace ':' = false by decide), hvalue, hskip, hstr]
    · have hrest := ih (by simp) hms fuel r
      have hskip : ∀ t, skipSpace (sep ++ (List.intercalate (',' :: sep)
          ((m' :: ms).map fun m => layout.member (m.1, dumpsAt layout depth m.2)) ++ t))
          = List.intercalate (',' :: sep)
            ((m' :: ms).map fun m => layout.member (m.1, dumpsAt layout depth m.2)) ++ t := by
        intro t
        rw [skipSpace_append hsep, List.map_cons,
          skipSpace_intercalate (c := '"') (by rw [Layout.member, quote, List.cons_append]; rfl)
            (by decide)]
      set rest := List.intercalate (',' :: sep)
        ((m' :: ms).map fun m => layout.member (m.1, dumpsAt layout depth m.2)) with hrestdef
      have hsplit : List.intercalate (',' :: sep)
          ((m :: m' :: ms).map fun m => layout.member (m.1, dumpsAt layout depth m.2))
          = layout.member (m.1, dumpsAt layout depth m.2) ++ (',' :: sep) ++ rest := by
        rw [hrestdef]
        simp only [List.map_cons, List.intercalate_cons_cons]
      rw [hsplit] at hfuel ⊢
      simp only [Layout.member, quote, hkey, List.append_assoc, List.cons_append, List.nil_append,
        List.length_append, List.length_cons] at hfuel ⊢
      obtain ⟨us, hscan, hstr, hvalue⟩ := hmember m fuel
        (',' :: (sep ++ (rest ++ (after ++ '}' :: r)))) hm hback
        ⟨rfl, by decide, by decide, by decide⟩ (by omega)
      rw [scanMembers, hscan]
      simp only [Option.bind_eq_bind, Option.bind_some,
        skipSpace_cons (show isSpace ':' = false by decide),
        skipSpace_cons (show isSpace ',' = false by decide), hvalue, hskip, hstr]
      rw [hrest (by omega)]
      simp

theorem scanValue_number (n : JsonText.Number) {r : List Char} (hr : Go.Follow r) (fuel : ℕ) :
    scanValue (fuel + 1) (n.text ++ r) = some (.num (numberOf n), r) := by
  have hmatch := matchNumber_append n hr
  obtain ⟨d, ds, hd⟩ := int_eq_cons n
  have hdigit : ∀ d : Digit, digitChar d ∉ ['"', '{', '[', 'n', 't', 'f', 'N', 'I', '-'] := by decide
  have hstart : ∃ t, n.text ++ r = digitChar d :: t ∨ n.text ++ r = '-' :: digitChar d :: t := by
    rw [JsonText.Number.text, hd]
    rcases n.neg with _ | _
    · exact ⟨_, .inl rfl⟩
    · exact ⟨_, .inr rfl⟩
  unfold scanValue
  split
  case h_10 => rw [hmatch, Option.map_some]
  all_goals
    rename_i heq
    have hd := hdigit d
    obtain ⟨t, ht | ht⟩ := hstart
    · rw [ht, List.cons.injEq] at heq
      simp [heq] at hd
    · rw [ht] at heq
      first
      | exact absurd (List.cons.inj heq).1 (by decide)
      | simp only [List.cons.injEq] at heq
        simp [heq] at hd

theorem scanValue_arr {c : Char} {t t' : List Char} (h : skipSpace t = c :: t') (hc : c ≠ ']')
    (fuel : ℕ) : scanValue (fuel + 1) ('[' :: t)
      = (scanElements fuel (c :: t')).map fun p => (.arr p.1, p.2) := by
  rw [scanValue, h]
  split
  · rename_i heq
    exact absurd (List.cons.inj heq).1 hc
  · rfl

theorem scanValue_obj {c : Char} {t t' : List Char} (h : skipSpace t = c :: t') (hc : c ≠ '}')
    (fuel : ℕ) : scanValue (fuel + 1) ('{' :: t)
      = (scanMembers fuel (c :: t')).map fun p => (.obj (dictOf p.1), p.2) := by
  rw [scanValue, h]
  split
  · rename_i heq
    exact absurd (List.cons.inj heq).1 hc
  · rfl

theorem Layout.body_cons (layout : Layout) (depth : ℕ) (p : List Char) (ps : List (List Char)) :
    layout.body depth (p :: ps) = layout.newline (depth + 1) ++
      List.intercalate (layout.itemSeparator ++ layout.newline (depth + 1)) (p :: ps)
      ++ layout.newline depth := if_neg (by simp)

theorem Layout.Spaced.isSpace {layout : Layout} (hl : layout.Spaced) (depth : ℕ) :
    ∃ sep, layout.itemSeparator ++ layout.newline depth = ',' :: sep ∧
      ∀ c ∈ sep, isSpace c = true := by
  obtain ⟨w, hitem, hw⟩ := hl.item
  refine ⟨w ++ layout.newline depth, by rw [hitem, List.cons_append], ?_⟩
  intro c hc
  obtain hc | hc := List.mem_append.1 hc
  · exact hw c hc
  · exact layout.isSpace_newline depth c hc

theorem readsBack_arr {layout : Layout} (hl : layout.Spaced) {depth : ℕ} {xs : List Value}
    (ih : ∀ x ∈ xs, ReadsBack layout (depth + 1) x) : ReadsBack layout depth (.arr xs) := by
  rintro (_ | fuel) r - hfuel
  · omega
  rw [layout.normal_arr]
  rw [dumpsAt, dumpsElements_eq] at hfuel ⊢
  rcases xs with _ | ⟨x, xs⟩
  · simp [Layout.body, scanValue, skipSpace_cons (show isSpace ']' = false by decide)]
  obtain ⟨sep, hsep, hspace⟩ := hl.isSpace (depth + 1)
  obtain ⟨c, t, ht, hc, hclose, -⟩ := dumpsAt_start layout (depth + 1) x
  have hread := scanElements_parts hspace (layout.isSpace_newline depth) (by simp) ih fuel r
  rw [List.map_cons, layout.body_cons, hsep] at hfuel ⊢
  rw [List.map_cons] at hread
  simp only [List.length_cons, List.length_append] at hfuel
  obtain ⟨t', ht'⟩ := intercalate_start ht (',' :: sep) (xs.map (dumpsAt layout (depth + 1)))
    (layout.newline depth ++ ']' :: r)
  simp only [List.cons_append, List.append_assoc, List.nil_append]
  rw [scanValue_arr (by rw [skipSpace_append (layout.isSpace_newline _), ht', skipSpace_cons hc])
    hclose, ← ht', hread (by omega), Option.map_some]

theorem readsBack_obj {layout : Layout} (hl : layout.Spaced) {depth : ℕ} {ms : Dict}
    (hnd : (Json.names ms).Nodup)
    (ih : ∀ m ∈ ms, Readable m.1.codes ∧ ReadsBack layout (depth + 1) m.2) :
    ReadsBack layout depth (.obj ms) := by
  rintro (_ | fuel) r - hfuel
  · omega
  obtain ⟨key, hkey, hkeyspace⟩ := hl.key
  obtain ⟨sep, hsep, hspace⟩ := hl.isSpace (depth + 1)
  have hperm := layout.perm_order ms
  rw [layout.normal_obj]
  rw [dumpsAt, dumpsMembers_eq, layout.order_map, List.map_map] at hfuel ⊢
  have hdict : dictOf ((layout.order ms).map fun m => (m.1, layout.normal m.2))
      = (layout.order ms).map fun m => (m.1, layout.normal m.2) := by
    refine dictOf_eq ?_
    rw [Json.names, List.map_map]
    exact (hperm.map Prod.fst).nodup_iff.2 hnd
  have hread := @scanMembers_parts layout (depth + 1) _ _ _ hspace (layout.isSpace_newline depth) hkey
    hkeyspace (layout.order ms)
  replace ih : ∀ m ∈ layout.order ms, Readable m.1.codes ∧ ReadsBack layout (depth + 1) m.2 :=
    fun m hm => ih m (hperm.mem_iff.1 hm)
  rcases horder : layout.order ms with _ | ⟨m, ns⟩
  · simp [Layout.body, scanValue, skipSpace_cons (show isSpace '}' = false by decide)]
  rw [horder] at ih hread hdict hfuel
  have hread := hread (by simp) ih fuel r
  rw [List.map_cons, layout.body_cons, hsep] at hfuel ⊢
  rw [List.map_cons] at hread
  simp only [List.length_cons, List.length_append, Function.comp_apply] at hfuel
  have hstart : ∃ t, layout.member (m.1, dumpsAt layout (depth + 1) m.2) = '"' :: t := by
    rw [Layout.member, quote]
    exact ⟨_, rfl⟩
  obtain ⟨t, ht⟩ := hstart
  obtain ⟨t', ht'⟩ := intercalate_start ht (',' :: sep)
    (ns.map fun m => layout.member (m.1, dumpsAt layout (depth + 1) m.2))
    (layout.newline depth ++ '}' :: r)
  simp only [List.cons_append, List.append_assoc, List.nil_append, Function.comp_def] at hfuel ⊢
  rw [scanValue_obj (by rw [skipSpace_append (layout.isSpace_newline _), ht']; rfl) (by decide),
    ← ht', hread (by omega), Option.map_some, hdict]

/-- What is written for a value is read back, on from any depth and whatever follows. -/
theorem readsBack_dumpsAt {layout : Layout} (hl : layout.Spaced) (v : Value) :
    ReadableValue v → ∀ depth, ReadsBack layout depth v := by
  induction v using Json.induct with
  | null =>
    rintro - depth (_ | fuel) r - hfuel
    · omega
    · cases hs : layout.sortKeys <;> simp [dumpsAt, scanValue, Layout.normal, hs, Json.sortMembers]
  | bool b =>
    rintro - depth (_ | fuel) r - hfuel
    · omega
    · cases b <;> cases hs : layout.sortKeys <;>
        simp [dumpsAt, scanValue, Layout.normal, hs, Json.sortMembers]
  | num n =>
    rintro - depth (_ | fuel) r hr hfuel
    · omega
    have hnormal : layout.normal (.num n) = .num n := by
      cases hs : layout.sortKeys <;> simp [Layout.normal, hs, Json.sortMembers]
    rw [hnormal, dumpsAt]
    by_cases hn : n.isFinite = true
    · obtain ⟨literal, htext, hvalue⟩ := numberRepr_literal hn
      rw [htext, scanValue_number literal hr, hvalue]
    · rcases n with n | x | _ | _ | _
      · simp [Number.isFinite, Number.value?] at hn
      · simp [Number.isFinite, Number.value?] at hn
      · simp [Number.isFinite, Number.value?] at hn
      · rename_i negative
        cases negative <;> rfl
      · rfl
  | str s =>
    rintro hs depth (_ | fuel) r - hfuel
    · omega
    have hnormal : layout.normal (.str s) = .str s := by
      cases hs : layout.sortKeys <;> simp [Layout.normal, hs, Json.sortMembers]
    obtain ⟨us, hscan, hstr⟩ := scanString_quote hs r
    rw [hnormal, dumpsAt, quote]
    simp only [List.cons_append, List.append_assoc, List.nil_append, scanValue]
    rw [hscan, Option.map_some, hstr]
  | arr xs ih =>
    intro hxs depth
    exact readsBack_arr hl fun x hx => ih x hx (readableValue_arr.1 hxs x hx) (depth + 1)
  | obj ms ih =>
    intro hms depth
    obtain ⟨hnd, hms⟩ := readableValue_obj.1 hms
    exact readsBack_obj hl hnd fun m hm => ⟨(hms m hm).1, ih m hm (hms m hm).2 (depth + 1)⟩

/-- `json.loads(json.dumps(value))`, its members in the order of the layout. -/
theorem loads_dumps {layout : Layout} (hl : layout.Spaced) {v : Value} (hv : ReadableValue v)
    {t : List Char} (ht : ∀ c ∈ t, isSpace c = true) :
    loads (dumps layout v ++ t) = some (layout.normal v) := by
  have hread := readsBack_dumpsAt hl v hv 0 ((dumps layout v ++ t).length + 1) t
    (by simpa using follow_of_space ht (r := []) trivial)
    (by rw [dumps, List.length_append]; omega)
  have hskip : skipSpace t = [] := by
    rw [← List.append_nil t, skipSpace_append ht]
    rfl
  unfold dumps at hread ⊢
  rw [loads, skipSpace_dumpsAt, hread]
  simp [hskip]

theorem mem_setItem {d : Dict} {k : Str} {v : Value} {m : Str × Value} (h : m ∈ setItem d k v) :
    m = (k, v) ∨ m ∈ d := by
  induction d with
  | nil => exact .inl (List.mem_singleton.1 h)
  | cons n d ih =>
    rw [setItem] at h
    split_ifs at h with hk
    · obtain rfl | h := List.mem_cons.1 h
      · exact .inl (by rw [hk])
      · exact .inr (List.mem_cons_of_mem _ h)
    · obtain rfl | h := List.mem_cons.1 h
      · exact .inr List.mem_cons_self
      · exact (ih h).imp_right (List.mem_cons_of_mem _)

theorem names_setItem (d : Dict) (k : Str) (v : Value) :
    Json.names (setItem d k v) = if k ∈ Json.names d then Json.names d else Json.names d ++ [k] := by
  induction d with
  | nil => rfl
  | cons n d ih =>
    rw [setItem]
    by_cases hk : n.1 = k
    · simp [hk]
    · simp only [hk, if_false, Json.names_cons, ih, List.mem_cons, Ne.symm hk, false_or]
      split_ifs <;> rfl

theorem dictOf_spec (ms : List (Str × Value)) :
    (Json.names (dictOf ms)).Nodup ∧ ∀ m ∈ dictOf ms, m ∈ ms := by
  have hfold : ∀ (ms : List (Str × Value)) (d : Dict), (Json.names d).Nodup →
      (Json.names (ms.foldl (fun d m => setItem d m.1 m.2) d)).Nodup ∧
        ∀ m ∈ ms.foldl (fun d m => setItem d m.1 m.2) d, m ∈ d ∨ m ∈ ms := by
    intro ms
    induction ms with
    | nil => exact fun d hd => ⟨hd, fun m hm => .inl hm⟩
    | cons n ms ih =>
      intro d hd
      have hset : (Json.names (setItem d n.1 n.2)).Nodup := by
        rw [names_setItem]
        split_ifs with hmem
        · exact hd
        · refine List.nodup_append.2 ⟨hd, by simp, fun a ha b hb heq => hmem ?_⟩
          rwa [← List.mem_singleton.1 hb, ← heq]
      obtain ⟨hnd, hmem⟩ := ih _ hset
      refine ⟨hnd, fun m hm => ?_⟩
      obtain hm | hm := hmem m hm
      · obtain rfl | hm := mem_setItem hm
        · exact .inr List.mem_cons_self
        · exact .inl hm
      · exact .inr (List.mem_cons_of_mem _ hm)
  obtain ⟨hnd, hmem⟩ := hfold ms [] List.nodup_nil
  exact ⟨hnd, fun m hm => (hmem m hm).resolve_left List.not_mem_nil⟩

/-- What is scanned is readable, by the calls in progress. -/
theorem readable_scan (fuel : ℕ) :
    (∀ t v r, scanValue fuel t = some (v, r) → ReadableValue v) ∧
    (∀ t ms r, scanMembers fuel t = some (ms, r) →
      ∀ m ∈ ms, Readable m.1.codes ∧ ReadableValue m.2) ∧
    (∀ t xs r, scanElements fuel t = some (xs, r) → ∀ x ∈ xs, ReadableValue x) := by
  induction fuel with
  | zero => simp [scanValue, scanMembers, scanElements]
  | succ fuel ih =>
    obtain ⟨hvalue, hmembers, helements⟩ := ih
    refine ⟨fun t v r h => ?_, fun t ms r h => ?_, fun t xs r h => ?_⟩
    · unfold scanValue at h
      split at h
      · obtain ⟨p, hp, heq⟩ := Option.map_eq_some_iff.1 h
        obtain ⟨rfl, -⟩ := Prod.mk.inj heq
        exact readable_of_scanString hp
      · split at h
        · obtain ⟨rfl, -⟩ := Prod.mk.inj (Option.some.inj h)
          simp
        · obtain ⟨p, hp, heq⟩ := Option.map_eq_some_iff.1 h
          obtain ⟨rfl, -⟩ := Prod.mk.inj heq
          obtain ⟨hnd, hmem⟩ := dictOf_spec p.1
          exact readableValue_obj.2 ⟨hnd, fun m hm => hmembers _ _ _ hp m (hmem m hm)⟩
      · split at h
        · obtain ⟨rfl, -⟩ := Prod.mk.inj (Option.some.inj h)
          simp
        · obtain ⟨p, hp, heq⟩ := Option.map_eq_some_iff.1 h
          obtain ⟨rfl, -⟩ := Prod.mk.inj heq
          exact readableValue_arr.2 (helements _ _ _ hp)
      case h_10 =>
        obtain ⟨p, hp, heq⟩ := Option.map_eq_some_iff.1 h
        obtain ⟨rfl, -⟩ := Prod.mk.inj heq
        trivial
      all_goals
        obtain ⟨rfl, -⟩ := Prod.mk.inj (Option.some.inj h)
        trivial
    · unfold scanMembers at h
      split at h
      · cases h
      · rename_i heq
        obtain rfl := Nat.succ.inj heq
        simp only [Option.bind_eq_bind, Option.bind_eq_some_iff] at h
        obtain ⟨⟨key, t⟩, hkey, h⟩ := h
        split at h
        · simp only [Option.bind_eq_some_iff] at h
          obtain ⟨⟨value, t⟩, hv, h⟩ := h
          have hmember := And.intro (readable_of_scanString hkey) (hvalue _ _ _ hv)
          split at h
          · obtain ⟨rfl, -⟩ := Prod.mk.inj (Option.some.inj h)
            simpa using hmember
          · obtain ⟨p, hp, heq⟩ := Option.map_eq_some_iff.1 h
            obtain ⟨rfl, -⟩ := Prod.mk.inj heq
            exact List.forall_mem_cons.2 ⟨hmember, hmembers _ _ _ hp⟩
          · cases h
        · cases h
      · cases h
    · simp only [scanElements, Option.bind_eq_bind, Option.bind_eq_some_iff] at h
      obtain ⟨⟨value, t⟩, hv, h⟩ := h
      split at h
      · obtain ⟨rfl, -⟩ := Prod.mk.inj (Option.some.inj h)
        simpa using hvalue _ _ _ hv
      · obtain ⟨p, hp, heq⟩ := Option.map_eq_some_iff.1 h
        obtain ⟨rfl, -⟩ := Prod.mk.inj heq
        exact List.forall_mem_cons.2 ⟨hvalue _ _ _ hv, helements _ _ _ hp⟩
      · cases h

theorem readableValue_of_loads {text : List Char} {v : Value} (h : loads text = some v) :
    ReadableValue v := by
  simp only [loads, Option.bind_eq_bind, Option.bind_eq_some_iff] at h
  obtain ⟨⟨w, rest⟩, hscan, h⟩ := h
  dsimp only at h
  split_ifs at h
  obtain rfl := Option.some.inj h
  exact (readable_scan _).1 _ _ _ hscan

end Values

end Py
