import Jumpship.Go.TokenStream

/-!
# The scanner reads the grammar

`scanString` reads a string literal's rest exactly, and `scanNumber` a number literal up to a
character that cannot continue it.
-/

namespace Go

open JsonText Unicode

/-! ## Strings -/

section Strings

theorem simpleEscape?_u : simpleEscape? 'u' = none := rfl

theorem scanString_close (t : List Char) : scanString ('"' :: t) = some ([], t) := by
  rw [scanString.eq_def]
  rfl

theorem scanString_unicode {a b c d : Char} {u : ℕ} (h : hex4 a b c d = some u) (t : List Char) :
    scanString ('\\' :: 'u' :: a :: b :: c :: d :: t)
      = (scanString t).map fun p => (u :: p.1, p.2) := by
  rw [scanString, if_neg (by decide), if_pos rfl, h]

theorem scanString_escape {e : Char} {u : ℕ} (h : simpleEscape? e = some u) (t : List Char) :
    scanString ('\\' :: e :: t) = (scanString t).map fun p => (u :: p.1, p.2) := by
  have he : e ≠ 'u' := by
    rintro rfl
    cases h
  rw [scanString, if_neg (by decide), if_pos rfl, h]
  exact fun _ _ _ _ _ heq => absurd heq he

theorem scanString_plain {c : Char} (h : IsPlain c) (t : List Char) :
    scanString (c :: t) = (scanString t).map fun p => (utf16Char c ++ p.1, p.2) := by
  have := h.1
  rw [scanString.eq_def]
  dsimp only
  rw [if_neg h.2.1, if_neg h.2.2, if_neg (by omega)]

theorem scanString_of_stringBody {t : List Char} {us : List ℕ} {r : List Char}
    (h : StringBody t us r) : scanString t = some (us, r) := by
  induction h with
  | close r => rw [scanString_close]
  | plain hc _ ih => rw [scanString_plain hc, ih, Option.map_some]
  | escape he _ ih => rw [scanString_escape he, ih, Option.map_some]
  | unicode hx _ ih => rw [scanString_unicode hx, ih, Option.map_some]

theorem stringBody_of_scanString : ∀ {t : List Char} {us : List ℕ} {r : List Char},
    scanString t = some (us, r) → StringBody t us r := by
  intro t
  induction t using scanString.induct with
  | case1 =>
    intro us r h
    simp [scanString] at h
  | case2 t =>
    intro us r h
    rw [scanString_close, Option.some.injEq, Prod.mk.injEq] at h
    rw [← h.1, ← h.2]
    exact .close t
  | case3 a b c d t u hx _ ih =>
    intro us r h
    rw [scanString_unicode hx, Option.map_eq_some_iff] at h
    obtain ⟨⟨us', r'⟩, hs, heq⟩ := h
    obtain ⟨rfl, rfl⟩ := Prod.mk.inj heq
    exact .unicode hx (ih hs)
  | case4 a b c d t hx =>
    intro us r h
    rw [scanString, if_neg (by decide), if_pos rfl, hx] at h
    cases h
  | case5 e t hne u he _ ih =>
    intro us r h
    rw [scanString_escape he, Option.map_eq_some_iff] at h
    obtain ⟨⟨us', r'⟩, hs, heq⟩ := h
    obtain ⟨rfl, rfl⟩ := Prod.mk.inj heq
    exact .escape he (ih hs)
  | case6 e t hne he =>
    intro us r h
    rw [scanString, if_neg (by decide), if_pos rfl, he] at h
    · cases h
    · exact hne
  | case7 =>
    intro us r h
    simp [scanString] at h
  | case8 c t h1 h2 h3 =>
    intro us r h
    rw [scanString.eq_def] at h
    dsimp only at h
    rw [if_neg h1, if_neg h2, if_pos h3] at h
    cases h
  | case9 c t h1 h2 h3 ih =>
    intro us r h
    have hc : IsPlain c := ⟨by omega, h1, h2⟩
    rw [scanString_plain hc, Option.map_eq_some_iff] at h
    obtain ⟨⟨us', r'⟩, hs, heq⟩ := h
    obtain ⟨rfl, rfl⟩ := Prod.mk.inj heq
    exact .plain hc (ih hs)

theorem scanString_eq_some {t : List Char} {us : List ℕ} {r : List Char} :
    scanString t = some (us, r) ↔ StringBody t us r :=
  ⟨stringBody_of_scanString, scanString_of_stringBody⟩

end Strings

/-! ## Numbers -/

section Numbers

/-- What can follow a number literal without continuing it. -/
def Follow : List Char → Prop
  | [] => True
  | c :: _ => digit? c = none ∧ c ≠ '.' ∧ c ≠ 'e' ∧ c ≠ 'E'

theorem eq_append_of_scanDigits (t : List Char) :
    t = (scanDigits t).1.map digitChar ++ (scanDigits t).2 := by
  induction t with
  | nil => rfl
  | cons c t ih =>
    unfold scanDigits
    cases hc : digit? c with
    | none => rfl
    | some d =>
      rw [List.map_cons, List.cons_append, ← ih, digit?_eq_some.1 hc]

theorem scanDigits_append (ds : List Digit) {r : List Char}
    (h : ∀ c t, r = c :: t → digit? c = none) : scanDigits (ds.map digitChar ++ r) = (ds, r) := by
  induction ds with
  | nil =>
    rcases r with _ | ⟨c, t⟩
    · rfl
    · rw [List.map_nil, List.nil_append, scanDigits, h c t rfl]
  | cons d ds ih => rw [List.map_cons, List.cons_append, scanDigits, digit?_digitChar, ih]

theorem eq_append_of_scanInt (t : List Char) :
    t = (scanInt t).1.map digitChar ++ (scanInt t).2 := by
  have heq := eq_append_of_scanDigits t
  unfold scanInt
  split
  · rename_i ds r h
    rw [h] at heq
    rw [heq]
    rfl
  · exact heq

/-- The digits before the point end at a character that is no digit. -/
theorem scanInt_append (n : Number) {r : List Char} (h : ∀ c t, r = c :: t → digit? c = none) :
    scanInt (n.int.map digitChar ++ r) = (n.int, r) := by
  unfold scanInt
  rw [scanDigits_append n.int h]
  split
  · rename_i ds r' heq
    obtain ⟨hint, rfl⟩ := Prod.mk.inj heq
    have hds := n.int_zero ds hint
    subst hds
    rw [hint]
    rfl
  · rfl

theorem eq_append_of_scanFrac {t : List Char} {ds : List Digit} {r : List Char}
    (h : scanFrac t = some (ds, r)) : t = fracText ds ++ r := by
  unfold scanFrac at h
  split at h
  · rename_i t
    split_ifs at h with hne
    rw [Option.some.injEq] at h
    have heq := eq_append_of_scanDigits t
    rw [h] at heq hne
    rw [fracText, if_neg hne, heq]
    rfl
  · rw [Option.some.injEq, Prod.mk.injEq] at h
    obtain ⟨rfl, rfl⟩ := h
    rfl

theorem scanFrac_append (ds : List Digit) {r : List Char}
    (h : ∀ c t, r = c :: t → digit? c = none ∧ c ≠ '.') :
    scanFrac (fracText ds ++ r) = some (ds, r) := by
  by_cases hds : ds = []
  · subst hds
    rw [fracText, if_pos rfl, List.nil_append]
    unfold scanFrac
    split
    · rename_i t
      exact absurd rfl (h _ _ rfl).2
    · rfl
  · rw [fracText, if_neg hds, List.cons_append, scanFrac,
      scanDigits_append ds fun c t heq => (h c t heq).1, if_neg hds]

theorem eq_append_of_scanSign (t : List Char) :
    t = signText (scanSign t).1 ++ (scanSign t).2 := by
  unfold scanSign
  split <;> rfl

theorem scanSign_append (s : Option Bool) {c : Char} {t : List Char} (h : (digit? c).isSome) :
    scanSign (signText s ++ c :: t) = (s, c :: t) := by
  rcases s with _ | _ | _
  · rw [signText, List.nil_append]
    unfold scanSign
    split
    · rename_i heq
      obtain ⟨rfl, -⟩ := List.cons.inj heq
      cases h
    · rename_i heq
      obtain ⟨rfl, -⟩ := List.cons.inj heq
      cases h
    · rfl
  · rfl
  · rfl

theorem eq_append_of_scanExpDigits {upper : Bool} {t : List Char} {e : Option Exponent}
    {r : List Char} (h : scanExpDigits upper t = some (e, r)) :
    (if upper then 'E' else 'e') :: t = expText e ++ r := by
  unfold scanExpDigits at h
  split_ifs at h with hne
  rw [Option.some.injEq, Prod.mk.injEq] at h
  obtain ⟨rfl, rfl⟩ := h
  rw [expText, Exponent.text, List.cons_append, List.append_assoc, ← eq_append_of_scanDigits,
    ← eq_append_of_scanSign]

theorem scanExpDigits_append (e : Exponent) {r : List Char}
    (h : ∀ c t, r = c :: t → digit? c = none) :
    scanExpDigits e.upper (signText e.sign ++ e.digits.map digitChar ++ r) = some (some e, r) := by
  obtain ⟨upper, sign, digits, hne⟩ := e
  rcases digits with _ | ⟨d, ds⟩
  · exact absurd rfl hne
  have hsign := scanSign_append sign (c := digitChar d) (t := ds.map digitChar ++ r)
    (by rw [digit?_digitChar]; rfl)
  have hdigits : scanDigits (digitChar d :: (ds.map digitChar ++ r)) = (d :: ds, r) :=
    scanDigits_append (d :: ds) h
  unfold scanExpDigits
  dsimp only
  rw [List.append_assoc, List.map_cons, List.cons_append]
  simp only [hsign, hdigits]
  rfl

theorem eq_append_of_scanExp {t : List Char} {e : Option Exponent} {r : List Char}
    (h : scanExp t = some (e, r)) : t = expText e ++ r := by
  unfold scanExp at h
  split at h
  · exact eq_append_of_scanExpDigits h
  · exact eq_append_of_scanExpDigits h
  · rw [Option.some.injEq, Prod.mk.injEq] at h
    obtain ⟨rfl, rfl⟩ := h
    rfl

theorem scanExp_append (e : Option Exponent) {r : List Char}
    (h : ∀ c t, r = c :: t → digit? c = none ∧ c ≠ 'e' ∧ c ≠ 'E') :
    scanExp (expText e ++ r) = some (e, r) := by
  rcases e with _ | e
  · rw [expText, List.nil_append]
    unfold scanExp
    split
    · exact absurd rfl (h _ _ rfl).2.1
    · exact absurd rfl (h _ _ rfl).2.2
    · rfl
  · have := scanExpDigits_append e fun c t heq => (h c t heq).1
    rw [expText, Exponent.text, List.cons_append]
    rcases hu : e.upper with _ | _
    · rw [hu] at this
      exact this
    · rw [hu] at this
      exact this

theorem eq_append_of_scanMinus (t : List Char) :
    t = (if (scanMinus t).1 then ['-'] else []) ++ (scanMinus t).2 := by
  unfold scanMinus
  split <;> rfl

theorem eq_append_of_scanNumber {t : List Char} {n : Number} {r : List Char}
    (h : scanNumber t = some (n, r)) : t = n.text ++ r := by
  have ht := eq_append_of_scanMinus t
  unfold scanNumber scanUnsigned at h
  split_ifs at h with hint
  split at h
  · cases h
  · rename_i frac t' hfrac
    split at h
    · cases h
    · rename_i exp r' hexp
      rw [Option.some.injEq, Prod.mk.injEq] at h
      obtain ⟨rfl, rfl⟩ := h
      rw [Number.text]
      simp only [List.append_assoc]
      rw [← eq_append_of_scanExp hexp, ← eq_append_of_scanFrac hfrac, ← eq_append_of_scanInt]
      exact ht

theorem expText_head {e : Option Exponent} {c : Char} {t r : List Char}
    (h : expText e ++ r = c :: t) : (c = 'e' ∨ c = 'E') ∨ r = c :: t := by
  rcases e with _ | ⟨upper, sign, digits, hne⟩
  · exact .inr h
  · rw [expText, Exponent.text, List.cons_append, List.cons.injEq] at h
    left
    rw [← h.1]
    rcases upper with _ | _
    · exact .inl rfl
    · exact .inr rfl

theorem fracText_head {ds : List Digit} {c : Char} {t r : List Char}
    (h : fracText ds ++ r = c :: t) : c = '.' ∨ r = c :: t := by
  unfold fracText at h
  split_ifs at h with hds
  · exact .inr h
  · rw [List.cons_append, List.cons.injEq] at h
    exact .inl h.1.symm

theorem scanNumber_append (n : Number) {r : List Char} (h : Follow r) :
    scanNumber (n.text ++ r) = some (n, r) := by
  have hr : ∀ c t, r = c :: t → digit? c = none ∧ c ≠ '.' ∧ c ≠ 'e' ∧ c ≠ 'E' := by
    rintro c t rfl
    exact h
  have hexp := scanExp_append n.exp fun c t heq => ⟨(hr c t heq).1, (hr c t heq).2.2⟩
  have hfrac : scanFrac (fracText n.frac ++ (expText n.exp ++ r))
      = some (n.frac, expText n.exp ++ r) := by
    refine scanFrac_append n.frac fun c t heq => ?_
    rcases expText_head heq with (rfl | rfl) | heq
    · decide
    · decide
    · exact ⟨(hr c t heq).1, (hr c t heq).2.1⟩
  have hint : scanInt (n.int.map digitChar ++ (fracText n.frac ++ (expText n.exp ++ r)))
      = (n.int, fracText n.frac ++ (expText n.exp ++ r)) := by
    refine scanInt_append n fun c t heq => ?_
    rcases fracText_head heq with rfl | heq
    · decide
    rcases expText_head heq with (rfl | rfl) | heq
    · decide
    · decide
    · exact (hr c t heq).1
  have hminus : scanMinus (n.text ++ r)
      = (n.neg, n.int.map digitChar ++ (fracText n.frac ++ (expText n.exp ++ r))) := by
    rw [Number.text]
    simp only [List.append_assoc]
    obtain ⟨d, ds, hd⟩ := int_eq_cons n
    rcases n.neg with _ | _
    · have hne : digitChar d ≠ '-' := by
        intro heq
        have := digit?_digitChar d
        rw [heq] at this
        cases this
      rw [hd]
      unfold scanMinus
      split
      · rename_i heq
        exact absurd (List.cons.inj heq).1 hne
      · rfl
    · rfl
  rw [scanNumber, hminus, scanUnsigned]
  simp only [hint, dif_neg n.int_ne, hfrac, hexp]

end Numbers

end Go
