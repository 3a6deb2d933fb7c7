import Jumpship.Proofs.Scanning
import Jumpship.Client.Jcs

/-!
# strictParse reads the grammar

The parser runs over code units. On the units of a well-formed text it reads a value exactly where
the text holds one whose strings pair their surrogates, whose numbers are finite and whose objects
repeat no name, and what it leaves is again the units of a text.
-/

namespace Client

open Go JsonText Unicode

/-! ## Strings -/

section Strings

/-- `StringBody` over code units. -/
inductive UnitBody : List ℕ → List ℕ → List ℕ → Prop
  | close (r : List ℕ) : UnitBody (0x22 :: r) [] r
  | plain {u : ℕ} {t us r : List ℕ} : 0x20 ≤ u → u ≠ 0x22 → u ≠ 0x5C → UnitBody t us r →
      UnitBody (u :: t) (u :: us) r
  | escape {e v : ℕ} {t us r : List ℕ} : simpleEscape? (Js.charAt e) = some v → UnitBody t us r →
      UnitBody (0x5C :: e :: t) (v :: us) r
  | unicode {a b c d v : ℕ} {t us r : List ℕ} :
      hex4 (Js.charAt a) (Js.charAt b) (Js.charAt c) (Js.charAt d) = some v → UnitBody t us r →
      UnitBody (0x5C :: 0x75 :: a :: b :: c :: d :: t) (v :: us) r

theorem escape_ne_u {e v : ℕ} (h : simpleEscape? (Js.charAt e) = some v) : e ≠ 0x75 := by
  rintro rfl
  cases h

theorem sliceString_unicode (a b c d : ℕ) (t : List ℕ) :
    sliceString (0x5C :: 0x75 :: a :: b :: c :: d :: t)
      = (sliceString t).map fun p => (0x5C :: 0x75 :: a :: b :: c :: d :: p.1, p.2) := by
  rw [sliceString.eq_def]
  rfl

theorem sliceString_escape {e : ℕ} (h : e ≠ 0x75) (t : List ℕ) :
    sliceString (0x5C :: e :: t) = (sliceString t).map fun p => (0x5C :: e :: p.1, p.2) := by
  rw [sliceString.eq_def]
  dsimp only
  rw [if_neg (by decide), if_pos rfl]
  split
  · rename_i heq
    exact absurd (List.cons.inj heq).1 h
  · rename_i heq
    obtain ⟨rfl, rfl⟩ := List.cons.inj heq
    rw [if_neg h]
  · rename_i heq
    cases heq

theorem sliceString_plain {u : ℕ} (h1 : 0x20 ≤ u) (h2 : u ≠ 0x22) (h3 : u ≠ 0x5C) (t : List ℕ) :
    sliceString (u :: t) = (sliceString t).map fun p => (u :: p.1, p.2) := by
  rw [sliceString.eq_def]
  dsimp only
  rw [if_neg h2, if_neg h3, if_neg (by omega)]

theorem parseLiteral_unicode {a b c d v : ℕ}
    (h : hex4 (Js.charAt a) (Js.charAt b) (Js.charAt c) (Js.charAt d) = some v) (t : List ℕ) :
    Js.parseLiteral (0x5C :: 0x75 :: a :: b :: c :: d :: t)
      = (Js.parseLiteral t).map (v :: ·) := by
  rw [Js.parseLiteral, if_neg (by decide), if_pos rfl, h]

theorem parseLiteral_escape {e v : ℕ} (h : simpleEscape? (Js.charAt e) = some v) (t : List ℕ) :
    Js.parseLiteral (0x5C :: e :: t) = (Js.parseLiteral t).map (v :: ·) := by
  rw [Js.parseLiteral, if_neg (by decide), if_pos rfl, h]
  exact fun _ _ _ _ _ heq => absurd heq (escape_ne_u h)

theorem parseLiteral_plain {u : ℕ} (h1 : 0x20 ≤ u) (h2 : u ≠ 0x22) (h3 : u ≠ 0x5C) (t : List ℕ) :
    Js.parseLiteral (u :: t) = (Js.parseLiteral t).map (u :: ·) := by
  rw [Js.parseLiteral.eq_def]
  dsimp only
  rw [if_neg h2, if_neg h3, if_neg (by omega)]

/-- A literal that is a string is sliced off and parsed. -/
theorem slice_of_unitBody {t us r : List ℕ} (h : UnitBody t us r) :
    ∃ literal, sliceString t = some (literal, r) ∧ Js.parseLiteral literal = some us := by
  induction h with
  | close r => exact ⟨[0x22], by rw [sliceString.eq_def]; rfl, rfl⟩
  | plain h1 h2 h3 _ ih =>
    obtain ⟨literal, hs, hp⟩ := ih
    exact ⟨_, by rw [sliceString_plain h1 h2 h3, hs, Option.map_some],
      by rw [parseLiteral_plain h1 h2 h3, hp, Option.map_some]⟩
  | escape he _ ih =>
    obtain ⟨literal, hs, hp⟩ := ih
    exact ⟨_, by rw [sliceString_escape (escape_ne_u he), hs, Option.map_some],
      by rw [parseLiteral_escape he, hp, Option.map_some]⟩
  | unicode hx _ ih =>
    obtain ⟨literal, hs, hp⟩ := ih
    exact ⟨_, by rw [sliceString_unicode, hs, Option.map_some],
      by rw [parseLiteral_unicode hx, hp, Option.map_some]⟩

/-- What was sliced off and parsed is a string literal. -/
theorem unitBody_of_slice : ∀ {t literal us r : List ℕ}, sliceString t = some (literal, r) →
    Js.parseLiteral literal = some us → UnitBody t us r := by
  intro t
  induction t using sliceString.induct with
  | case1 =>
    intro literal us r h _
    simp [sliceString] at h
  | case2 t =>
    intro literal us r h hp
    rw [sliceString.eq_def] at h
    obtain ⟨rfl, rfl⟩ := Prod.mk.inj (Option.some.inj h)
    obtain rfl := Option.some.inj hp
    exact .close _
  | case3 a b c d t _ ih =>
    intro literal us r h hp
    rw [sliceString_unicode, Option.map_eq_some_iff] at h
    obtain ⟨⟨literal', r'⟩, hs, heq⟩ := h
    obtain ⟨rfl, rfl⟩ := Prod.mk.inj heq
    rcases hx : hex4 (Js.charAt a) (Js.charAt b) (Js.charAt c) (Js.charAt d) with _ | v
    · rw [Js.parseLiteral, if_neg (by decide), if_pos rfl, hx] at hp
      cases hp
    · rw [parseLiteral_unicode hx, Option.map_eq_some_iff] at hp
      obtain ⟨us', hus, rfl⟩ := hp
      exact .unicode hx (ih hs hus)
  | case4 t _ hno =>
    intro literal us r h hp
    rw [sliceString.eq_def] at h
    dsimp only at h
    rw [if_neg (by decide), if_pos rfl] at h
    split at h
    · rename_i heq
      obtain ⟨-, rfl⟩ := List.cons.inj heq
      exact (hno _ _ _ _ _ rfl rfl).elim
    · rename_i heq
      obtain ⟨rfl, rfl⟩ := List.cons.inj heq
      rw [if_pos rfl] at h
      cases h
    · cases h
  | case5 e t _ hne _ ih =>
    intro literal us r h hp
    rw [sliceString_escape hne, Option.map_eq_some_iff] at h
    obtain ⟨⟨literal', r'⟩, hs, heq⟩ := h
    obtain ⟨rfl, rfl⟩ := Prod.mk.inj heq
    rcases hx : simpleEscape? (Js.charAt e) with _ | v
    · rw [Js.parseLiteral, if_neg (by decide), if_pos rfl, hx] at hp
      · cases hp
      · exact fun _ _ _ _ _ heq => absurd heq hne
    · rw [parseLiteral_escape hx, Option.map_eq_some_iff] at hp
      obtain ⟨us', hus, rfl⟩ := hp
      exact .escape hx (ih hs hus)
  | case6 =>
    intro literal us r h _
    simp [sliceString] at h
  | case7 u t h1 h2 h3 =>
    intro literal us r h _
    rw [sliceString.eq_def] at h
    dsimp only at h
    rw [if_neg h1, if_neg h2, if_pos h3] at h
    cases h
  | case8 u t h1 h2 h3 ih =>
    intro literal us r h hp
    rw [sliceString_plain (by omega) h1 h2, Option.map_eq_some_iff] at h
    obtain ⟨⟨literal', r'⟩, hs, heq⟩ := h
    obtain ⟨rfl, rfl⟩ := Prod.mk.inj heq
    rw [parseLiteral_plain (by omega) h1 h2, Option.map_eq_some_iff] at hp
    obtain ⟨us', hus, rfl⟩ := hp
    exact .plain (by omega) h1 h2 (ih hs hus)

end Strings

/-! ## Strings of a text -/

section TextStrings

theorem utf16_char_ascii {c : Char} (h : c.toNat < 0x10000) (t : List Char) :
    utf16 (c :: t) = c.toNat :: utf16 t := by
  rw [utf16_cons, utf16Char, if_pos h]
  rfl

theorem charAt_invalid {u : ℕ} (h : ¬ u.isValidChar) : Js.charAt u = Char.ofNat 0 := by
  rw [Js.charAt, Char.ofNat, dif_neg h]
  rfl

/-- A code unit a table of ASCII characters knows is such a character. -/
theorem charAt_ascii {u : ℕ} (h : Js.charAt u ≠ Char.ofNat 0) (hlt : (Js.charAt u).toNat < 128) :
    u < 128 := by
  by_cases hv : u.isValidChar
  · rwa [Js.charAt, toNat_ofNat hv] at hlt
  · exact absurd (charAt_invalid hv) h

theorem escape_ascii {e v : ℕ} (h : simpleEscape? (Js.charAt e) = some v) : e < 128 := by
  refine charAt_ascii ?_ ?_
  · intro h0
    rw [h0] at h
    cases h
  · unfold simpleEscape? at h
    split at h
    case h_9 => cases h
    all_goals
      rename_i heq
      rw [heq]
      decide

theorem hexDigit?_unit {u n : ℕ} (h : hexDigit? (Js.charAt u) = some n) : u < 128 := by
  refine charAt_ascii ?_ ?_
  · intro h0
    rw [h0] at h
    cases h
  · unfold hexDigit? at h
    dsimp only at h
    split_ifs at h <;> omega

/-- The first unit of a text, when it is ASCII, is its first character. -/
theorem cons_of_utf16 {t : List Char} {u : ℕ} {us : List ℕ} (h : utf16 t = u :: us) (hu : u < 128) :
    ∃ t', t = Js.charAt u :: t' ∧ utf16 t' = us ∧ (Js.charAt u).toNat = u := by
  obtain ⟨t', ht, hus⟩ := utf16_eq_cons h (by omega)
  exact ⟨t', ht, hus, toNat_ofNat (.inl (by omega))⟩

/-- On the units of a text a string literal is one of the text's, and so is what follows it. The
second half reads on from inside a surrogate pair. -/
theorem stringBody_of_unitBody {units us rest : List ℕ} (h : UnitBody units us rest) :
    (∀ t, units = utf16 t → ∃ r, rest = utf16 r ∧ StringBody t us r) ∧
    (∀ low t, units = low :: utf16 t → 0xDC00 ≤ low →
      ∃ us' r, us = low :: us' ∧ rest = utf16 r ∧ StringBody t us' r) := by
  induction h with
  | close r =>
    constructor
    · intro t ht
      obtain ⟨t', rfl, rfl, -⟩ := cons_of_utf16 ht.symm (by decide)
      exact ⟨t', rfl, .close t'⟩
    · intro low t ht hlow
      rw [← (List.cons.inj ht).1] at hlow
      exact absurd hlow (by decide)
  | @plain u units us r h1 h2 h3 _ ih =>
    constructor
    · intro t ht
      rcases t with _ | ⟨c, t⟩
      · cases ht
      by_cases hc : c.toNat < 0x10000
      · rw [utf16_char_ascii hc, List.cons.injEq] at ht
        obtain ⟨rfl, ht⟩ := ht
        obtain ⟨r', rfl, hbody⟩ := ih.1 t ht
        have hplain : IsPlain c := by
          refine ⟨h1, ?_, ?_⟩
          · rintro rfl
            exact h2 rfl
          · rintro rfl
            exact h3 rfl
        have := StringBody.plain hplain hbody
        rw [utf16Char, if_pos hc, List.singleton_append] at this
        exact ⟨r', rfl, this⟩
      · rw [utf16_cons, utf16Char, if_neg hc, List.cons_append, List.cons.injEq,
          List.singleton_append] at ht
        obtain ⟨rfl, ht⟩ := ht
        obtain ⟨us', r', rfl, rfl, hbody⟩ := ih.2 _ t ht (by omega)
        have hplain : IsPlain c := by
          refine ⟨by omega, ?_, ?_⟩
          · rintro rfl
            exact hc (by decide)
          · rintro rfl
            exact hc (by decide)
        have := StringBody.plain hplain hbody
        rw [utf16Char, if_neg hc, List.cons_append, List.singleton_append] at this
        exact ⟨r', rfl, this⟩
    · intro low t ht _
      obtain ⟨rfl, ht'⟩ := List.cons.inj ht
      obtain ⟨r', rfl, hbody⟩ := ih.1 t ht'
      exact ⟨us, r', rfl, rfl, hbody⟩
  | @escape e v units us r he _ ih =>
    constructor
    · intro t ht
      obtain ⟨t₁, rfl, ht₁, -⟩ := cons_of_utf16 ht.symm (by decide)
      obtain ⟨t₂, rfl, ht₂, -⟩ := cons_of_utf16 ht₁ (escape_ascii he)
      obtain ⟨r', rfl, hbody⟩ := ih.1 t₂ ht₂.symm
      exact ⟨r', rfl, .escape he hbody⟩
    · intro low t ht hlow
      rw [← (List.cons.inj ht).1] at hlow
      exact absurd hlow (by decide)
  | @unicode a b c d v units us r hx _ ih =>
    constructor
    · intro t ht
      obtain ⟨w, x, y, z, hw, hx', hy, hz, -⟩ := hex4_eq_some.1 hx
      obtain ⟨t₁, rfl, ht₁, -⟩ := cons_of_utf16 ht.symm (by decide)
      obtain ⟨t₂, rfl, ht₂, -⟩ := cons_of_utf16 ht₁ (by decide)
      obtain ⟨t₃, rfl, ht₃, -⟩ := cons_of_utf16 ht₂ (hexDigit?_unit hw)
      obtain ⟨t₄, rfl, ht₄, -⟩ := cons_of_utf16 ht₃ (hexDigit?_unit hx')
      obtain ⟨t₅, rfl, ht₅, -⟩ := cons_of_utf16 ht₄ (hexDigit?_unit hy)
      obtain ⟨t₆, rfl, ht₆, -⟩ := cons_of_utf16 ht₅ (hexDigit?_unit hz)
      obtain ⟨r', rfl, hbody⟩ := ih.1 t₆ ht₆.symm
      exact ⟨r', rfl, .unicode hx hbody⟩
    · intro low t ht hlow
      rw [← (List.cons.inj ht).1] at hlow
      exact absurd hlow (by decide)

theorem charAt_toNat (c : Char) : Js.charAt c.toNat = c := Char.ofNat_toNat c

theorem utf16_cons_ascii {c : Char} (h : c.toNat < 128) (t : List Char) :
    utf16 (c :: t) = c.toNat :: utf16 t := utf16_char_ascii (by omega) t

theorem unitBody_of_stringBody {t : List Char} {us : List ℕ} {r : List Char}
    (h : StringBody t us r) : UnitBody (utf16 t) us (utf16 r) := by
  induction h with
  | close r => exact .close (utf16 r)
  | @plain c t us r hc _ ih =>
    have hne : ∀ d : Char, c ≠ d → c.toNat ≠ d.toNat := fun d hd h => hd (Char.toNat_inj.1 h)
    by_cases hlt : c.toNat < 0x10000
    · rw [utf16_char_ascii hlt, utf16Char, if_pos hlt]
      exact .plain hc.1 (hne '"' hc.2.1) (hne '\\' hc.2.2) ih
    · rw [utf16_cons, utf16Char, if_neg hlt]
      exact .plain (by omega) (by omega) (by omega) (.plain (by omega) (by omega) (by omega) ih)
  | @escape e v t us r he _ ih =>
    have he' : simpleEscape? (Js.charAt e.toNat) = some v := by rwa [charAt_toNat]
    rw [utf16_cons_ascii (by decide), utf16_cons_ascii (escape_ascii he')]
    exact .escape he' ih
  | @unicode a b c d v t us r hx _ ih =>
    have hx' : hex4 (Js.charAt a.toNat) (Js.charAt b.toNat) (Js.charAt c.toNat)
        (Js.charAt d.toNat) = some v := by
      rwa [charAt_toNat, charAt_toNat, charAt_toNat, charAt_toNat]
    obtain ⟨w, x, y, z, hw, hx₂, hy, hz, -⟩ := hex4_eq_some.1 hx'
    rw [utf16_cons_ascii (by decide), utf16_cons_ascii (by decide),
      utf16_cons_ascii (hexDigit?_unit hw), utf16_cons_ascii (hexDigit?_unit hx₂),
      utf16_cons_ascii (hexDigit?_unit hy), utf16_cons_ascii (hexDigit?_unit hz)]
    exact .unicode hx' ih

theorem parseString_eq_some {units rest : List ℕ} {s : List Char} :
    parseString (0x22 :: units) = some (s, rest) ↔ ∃ us, UnitBody units us rest ∧
      utf16Decode us = some s := by
  simp only [parseString, Option.bind_eq_bind, Option.bind_eq_some_iff, rejectLoneSurrogates,
    Option.some.injEq, Prod.mk.injEq, Prod.exists]
  constructor
  · rintro ⟨literal, rest', hs, us, hp, value, hd, rfl, rfl⟩
    exact ⟨us, unitBody_of_slice hs hp, hd⟩
  · rintro ⟨us, hbody, hd⟩
    obtain ⟨literal, hs, hp⟩ := slice_of_unitBody hbody
    exact ⟨literal, rest, hs, us, hp, s, hd, rfl, rfl⟩

/-- `parseString` reads a literal of the grammar whose surrogates are paired. -/
theorem parseString_sound {t s : List Char} {rest : List ℕ}
    (h : parseString (0x22 :: utf16 t) = some (s, rest)) :
    ∃ r, rest = utf16 r ∧ StringOf t s r := by
  obtain ⟨us, hbody, hd⟩ := parseString_eq_some.1 h
  obtain ⟨r, rfl, hbody'⟩ := (stringBody_of_unitBody hbody).1 t rfl
  refine ⟨r, rfl, ?_⟩
  rw [StringOf, utf16_of_utf16Decode us hd hbody'.lt]
  exact hbody'

theorem parseString_complete {t s r : List Char} (h : StringOf t s r) :
    parseString (0x22 :: utf16 t) = some (s, utf16 r) :=
  parseString_eq_some.2 ⟨_, unitBody_of_stringBody h, utf16Decode_utf16 s⟩

end TextStrings

/-! ## Numbers -/

section Numbers

theorem utf16_head {c : Char} (t : List Char) (h : ¬ c.toNat < 0x10000) :
    ∃ u us, utf16 (c :: t) = u :: us ∧ 0xD800 ≤ u ∧ u < 0xE000 := by
  have := toNat_lt c
  rw [utf16_cons, utf16Char, if_neg h]
  exact ⟨_, _, rfl, by omega, by omega⟩

theorem charAt_surrogate {u : ℕ} (h1 : 0xD800 ≤ u) (h2 : u < 0xE000) :
    Js.charAt u = Char.ofNat 0 := by
  have hv : ¬ u.isValidChar := by
    simp only [Nat.isValidChar]
    omega
  exact charAt_invalid hv

theorem digit?_high {c : Char} (h : ¬ c.toNat < 0x10000) : digit? c = none := by
  unfold digit?
  exact dif_neg (by omega)

theorem matchDigits_utf16 (t : List Char) :
    matchDigits (utf16 t) = ((scanDigits t).1, utf16 (scanDigits t).2) := by
  induction t with
  | nil => rfl
  | cons c t ih =>
    by_cases hc : c.toNat < 0x10000
    · rw [utf16_char_ascii hc, matchDigits, charAt_toNat, scanDigits]
      cases hd : digit? c with
      | none =>
        dsimp only
        rw [utf16_char_ascii hc]
      | some d =>
        dsimp only
        rw [ih]
    · obtain ⟨u, us, hu, h1, h2⟩ := utf16_head t hc
      rw [scanDigits, digit?_high hc]
      dsimp only
      rw [hu, matchDigits, charAt_surrogate h1 h2]
      rfl

theorem drop_utf16 {t : List Char} {ds : List Digit} {d : Digit}
    (h : (scanDigits t).1 = d :: ds) : (utf16 t).drop 1 = utf16 (t.drop 1) := by
  rcases t with _ | ⟨c, t⟩
  · cases h
  · have hc : c.toNat < 0x10000 := by
      by_contra hc
      rw [scanDigits, digit?_high hc] at h
      cases h
    rw [utf16_char_ascii hc]
    rfl

theorem matchInt_utf16 (t : List Char) :
    matchInt (utf16 t) = ((scanInt t).1, utf16 (scanInt t).2) := by
  unfold matchInt scanInt
  rw [matchDigits_utf16]
  rcases h : scanDigits t with ⟨ds, r⟩
  rcases ds with _ | ⟨d, ds⟩
  · rfl
  · by_cases hd : d = 0
    · subst hd
      dsimp only
      rw [drop_utf16 (t := t) (by rw [h])]
      rfl
    · dsimp only
      split
      · rename_i heq
        exact absurd (List.cons.inj (Prod.mk.inj heq).1).1 hd
      · split
        · rename_i heq
          exact absurd (List.cons.inj (Prod.mk.inj heq).1).1 hd
        · rfl

/-- `utf16` starts with an ASCII unit exactly where the text starts with its character. -/
theorem utf16_eq_ascii {t : List Char} {c : Char} (hc : c.toNat < 128) {us : List ℕ} :
    utf16 t = c.toNat :: us ↔ ∃ t', t = c :: t' ∧ utf16 t' = us := by
  constructor
  · intro h
    obtain ⟨t', ht, hus, -⟩ := cons_of_utf16 h hc
    rw [charAt_toNat] at ht
    exact ⟨t', ht, hus⟩
  · rintro ⟨t', rfl, rfl⟩
    exact utf16_cons_ascii hc t'

theorem matchFrac_utf16 (t : List Char) : matchFrac (utf16 t)
    = (scanFrac t).elim ([], utf16 t) fun p => (p.1, utf16 p.2) := by
  unfold matchFrac
  split
  · rename_i u hu
    obtain ⟨t', rfl, rfl⟩ := (utf16_eq_ascii (c := '.') (by decide)).1 hu
    rw [scanFrac, matchDigits_utf16]
    split_ifs with h
    · rw [hu]
      rfl
    · rfl
  · rename_i hno
    unfold scanFrac
    split
    · rename_i t'
      exact (hno (utf16 t') (utf16_cons_ascii (c := '.') (by decide) t')).elim
    · rfl

theorem matchSign_utf16 (t : List Char) :
    matchSign (utf16 t) = ((scanSign t).1, utf16 (scanSign t).2) := by
  unfold scanSign
  split
  · rename_i t'
    rw [utf16_cons_ascii (c := '+') (by decide)]
    rfl
  · rename_i t'
    rw [utf16_cons_ascii (c := '-') (by decide)]
    rfl
  · rename_i hplus hminus
    unfold matchSign
    split
    · rename_i u hu
      obtain ⟨t', rfl, -⟩ := (utf16_eq_ascii (c := '+') (by decide)).1 hu
      exact (hplus t' rfl).elim
    · rename_i u hu
      obtain ⟨t', rfl, -⟩ := (utf16_eq_ascii (c := '-') (by decide)).1 hu
      exact (hminus t' rfl).elim
    · rfl

theorem matchExp_digits (c : Char) (hc : c = 'e' ∨ c = 'E') (t : List Char) :
    matchExp (utf16 (c :: t)) = (scanExpDigits (c = 'E') t).elim (none, utf16 (c :: t))
      fun p => (p.1, utf16 p.2) := by
  have hlt : c.toNat < 128 := by rcases hc with rfl | rfl <;> decide
  have hE : decide (c.toNat = 0x45) = decide (c = 'E') := by rcases hc with rfl | rfl <;> rfl
  rw [utf16_cons_ascii hlt, matchExp, if_pos (by rcases hc with rfl | rfl <;> decide)]
  unfold scanExpDigits
  simp only [matchSign_utf16, matchDigits_utf16, hE]
  split_ifs with h
  · rfl
  · rfl

theorem matchExp_utf16 (t : List Char) : matchExp (utf16 t)
    = (scanExp t).elim (none, utf16 t) fun p => (p.1, utf16 p.2) := by
  unfold scanExp
  split
  · exact matchExp_digits 'e' (.inl rfl) _
  · exact matchExp_digits 'E' (.inr rfl) _
  · rename_i he hE
    unfold matchExp
    split
    · rename_i e u hu
      rw [if_neg]
      · rfl
      · rintro (rfl | rfl)
        · obtain ⟨t', rfl, -⟩ := (utf16_eq_ascii (c := 'e') (by decide)).1 hu
          exact he t' rfl
        · obtain ⟨t', rfl, -⟩ := (utf16_eq_ascii (c := 'E') (by decide)).1 hu
          exact hE t' rfl
    · rfl

end Numbers

section NumberLiterals

theorem matchMinus_utf16 (t : List Char) :
    matchMinus (utf16 t) = ((scanMinus t).1, utf16 (scanMinus t).2) := by
  unfold scanMinus
  split
  · rename_i t'
    rw [utf16_cons_ascii (c := '-') (by decide)]
    rfl
  · rename_i hminus
    unfold matchMinus
    split
    · rename_i u hu
      obtain ⟨t', rfl, -⟩ := (utf16_eq_ascii (c := '-') (by decide)).1 hu
      exact (hminus t' rfl).elim
    · rfl

theorem matchNumber_of_scanNumber {t : List Char} {n : Number} {r : List Char}
    (h : scanNumber t = some (n, r)) : matchNumber (utf16 t) = some (n, utf16 r) := by
  rw [matchNumber, matchMinus_utf16]
  unfold scanNumber at h
  generalize (scanMinus t).1 = neg at h ⊢
  generalize (scanMinus t).2 = u at h ⊢
  unfold scanUnsigned at h
  split_ifs at h with hint
  split at h
  · cases h
  rename_i frac t' hfrac
  split at h
  · cases h
  rename_i exp r' hexp
  obtain ⟨rfl, rfl⟩ := Prod.mk.inj (Option.some.inj h)
  have hint' : (matchInt (utf16 u)).1 ≠ [] := by
    rw [matchInt_utf16]
    exact hint
  rw [matchUnsigned, dif_neg hint']
  simp only [matchInt_utf16, matchFrac_utf16, matchExp_utf16, hfrac, hexp, Option.elim]

theorem matchFrac_sound {t : List Char} {ds : List Digit} {rest : List ℕ}
    (h : matchFrac (utf16 t) = (ds, rest)) : ∃ r, rest = utf16 r ∧ t = fracText ds ++ r := by
  rw [matchFrac_utf16] at h
  rcases hs : scanFrac t with _ | ⟨ds', r⟩
  · rw [hs] at h
    obtain ⟨rfl, rfl⟩ := Prod.mk.inj h
    exact ⟨t, rfl, rfl⟩
  · rw [hs] at h
    obtain ⟨rfl, rfl⟩ := Prod.mk.inj h
    exact ⟨r, rfl, eq_append_of_scanFrac hs⟩

theorem matchExp_sound {t : List Char} {e : Option Exponent} {rest : List ℕ}
    (h : matchExp (utf16 t) = (e, rest)) : ∃ r, rest = utf16 r ∧ t = expText e ++ r := by
  rw [matchExp_utf16] at h
  rcases hs : scanExp t with _ | ⟨e', r⟩
  · rw [hs] at h
    obtain ⟨rfl, rfl⟩ := Prod.mk.inj h
    exact ⟨t, rfl, rfl⟩
  · rw [hs] at h
    obtain ⟨rfl, rfl⟩ := Prod.mk.inj h
    exact ⟨r, rfl, eq_append_of_scanExp hs⟩

/-- What the number pattern takes is a number literal. -/
theorem matchNumber_sound {t : List Char} {n : Number} {rest : List ℕ}
    (h : matchNumber (utf16 t) = some (n, rest)) : ∃ r, rest = utf16 r ∧ t = n.text ++ r := by
  have ht := eq_append_of_scanMinus t
  rw [matchNumber, matchMinus_utf16] at h
  unfold matchUnsigned at h
  split_ifs at h with hint
  split at h
  rename_i frac units hfrac
  split at h
  rename_i exp rest' hexp
  rw [matchInt_utf16] at hfrac
  obtain ⟨t', rfl, hfrac'⟩ := matchFrac_sound hfrac
  obtain ⟨r, rfl, hexp'⟩ := matchExp_sound hexp
  obtain ⟨rfl, rfl⟩ := Prod.mk.inj (Option.some.inj h)
  refine ⟨r, rfl, ?_⟩
  simp only [Number.text, matchInt_utf16, List.append_assoc]
  rw [← hexp', ← hfrac', ← eq_append_of_scanInt]
  exact ht

end NumberLiterals

/-! ## Whitespace and names -/

section Literals

theorem isWhitespace_toNat (c : Char) : isWhitespace c.toNat = isSpace c := by
  have key : ∀ d : Char, decide (c.toNat = d.toNat) = decide (c = d) := fun d =>
    decide_eq_decide.2 Char.toNat_inj
  have h1 := key '\t'
  have h2 := key '\n'
  have h3 := key '\r'
  have h4 := key ' '
  change decide (c.toNat = 0x09) = _ at h1
  change decide (c.toNat = 0x0A) = _ at h2
  change decide (c.toNat = 0x0D) = _ at h3
  change decide (c.toNat = 0x20) = _ at h4
  rw [isWhitespace, isSpace, h1, h2, h3, h4]
  cases decide (c = ' ') <;> cases decide (c = '\t') <;> cases decide (c = '\n') <;> simp

theorem whitespace_utf16 (t : List Char) : whitespace (utf16 t) = utf16 (skipSpace t) := by
  induction t with
  | nil => rfl
  | cons c t ih =>
    by_cases hc : c.toNat < 0x10000
    · rw [utf16_char_ascii hc, whitespace, isWhitespace_toNat, skipSpace]
      split_ifs
      · exact ih
      · exact (utf16_char_ascii hc t).symm
    · obtain ⟨u, us, hu, h1, h2⟩ := utf16_head t hc
      have hspace : isSpace c = false := by
        rw [← isWhitespace_toNat]
        simp only [isWhitespace, Bool.or_eq_false_iff, decide_eq_false_iff_not]
        omega
      have hwhite : isWhitespace u = false := by
        simp only [isWhitespace, Bool.or_eq_false_iff, decide_eq_false_iff_not]
        omega
      rw [skipSpace_cons hspace, hu, whitespace, if_neg (by rw [hwhite]; decide)]

/-- The units of a text start with those of an ASCII word exactly where the text starts with it. -/
theorem utf16_eq_word {s : List Char} (hs : ∀ c ∈ s, c.toNat < 128) {t : List Char} {us : List ℕ} :
    utf16 t = s.map Char.toNat ++ us ↔ ∃ t', t = s ++ t' ∧ utf16 t' = us := by
  induction s generalizing t with
  | nil => simp
  | cons c s ih =>
    obtain ⟨hc, hs⟩ := List.forall_mem_cons.1 hs
    rw [List.map_cons, List.cons_append, utf16_eq_ascii hc]
    constructor
    · rintro ⟨t₁, rfl, h⟩
      obtain ⟨t', rfl, h'⟩ := (ih hs).1 h
      exact ⟨t', rfl, h'⟩
    · rintro ⟨t', rfl, rfl⟩
      exact ⟨s ++ t', rfl, (ih hs).2 ⟨t', rfl, rfl⟩⟩

end Literals

/-! ## Soundness -/

section Sound

theorem lexical_numberOf : Lexical StringOf NumberOf :=
  ⟨fun h => ⟨_, h⟩, fun ⟨n, h, _⟩ => ⟨n, h⟩⟩

theorem parseScalar_sound {t : List Char} {v : JsonValue} {rest : List ℕ}
    (h : parseScalar (utf16 t) = some (v, rest)) :
    ∃ r, rest = utf16 r ∧ Reads StringOf NumberOf (.value v) t r ∧ v.Distinct := by
  unfold parseScalar at h
  split at h
  · rename_i us hus
    obtain ⟨rfl, rfl⟩ := Prod.mk.inj (Option.some.inj h)
    obtain ⟨r, rfl, rfl⟩ := (utf16_eq_word (s := ['t', 'r', 'u', 'e']) (by simp)).1 hus
    exact ⟨r, rfl, .true r, trivial⟩
  · rename_i us hus
    obtain ⟨rfl, rfl⟩ := Prod.mk.inj (Option.some.inj h)
    obtain ⟨r, rfl, rfl⟩ := (utf16_eq_word (s := ['f', 'a', 'l', 's', 'e']) (by simp)).1 hus
    exact ⟨r, rfl, .false r, trivial⟩
  · rename_i us hus
    obtain ⟨rfl, rfl⟩ := Prod.mk.inj (Option.some.inj h)
    obtain ⟨r, rfl, rfl⟩ := (utf16_eq_word (s := ['n', 'u', 'l', 'l']) (by simp)).1 hus
    exact ⟨r, rfl, .null r, trivial⟩
  · simp only [Option.bind_eq_bind, Option.bind_eq_some_iff, Option.some.injEq] at h
    obtain ⟨⟨n, rest'⟩, hn, x, hx, heq⟩ := h
    obtain ⟨rfl, rfl⟩ := Prod.mk.inj heq
    obtain ⟨r, rfl, rfl⟩ := matchNumber_sound hn
    exact ⟨r, rfl, .num ⟨n, rfl, hx⟩, trivial⟩

/-- What `parseValue` promises of the units of a text. -/
def ValueParsed (t : List Char) (v : JsonValue) (rest : List ℕ) : Prop :=
  ∃ t₁ r, Ws t t₁ ∧ Reads StringOf NumberOf (.value v) t₁ r ∧ v.Distinct ∧ rest = utf16 r

/-- The same for the rest of an array. -/
def ElementsParsed (array : List JsonValue) (t : List Char) (v : JsonValue) (rest : List ℕ) :
    Prop :=
  ∃ xs r, v = .arr (array ++ xs) ∧ Reads StringOf NumberOf (.elements xs) t (']' :: r) ∧
    (∀ x ∈ xs, x.Distinct) ∧ rest = utf16 r

/-- The same for the rest of an object. -/
def MembersParsed (object : List (List Char × JsonValue)) (t : List Char) (v : JsonValue)
    (rest : List ℕ) : Prop :=
  ∃ ms r, v = .obj (object ++ ms) ∧ Reads StringOf NumberOf (.members ms) t ('}' :: r) ∧
    (Json.names (object ++ ms)).Nodup ∧ (∀ m ∈ ms, m.2.Distinct) ∧ rest = utf16 r

theorem ws_of_skipSpace {t r : List Char} (h : skipSpace t = r) : Ws t r := h ▸ ws_skipSpace t

theorem Reads.of_ws_elements {t t' r : List Char} {xs : List JsonValue} (h : Ws t t')
    (hr : Reads StringOf NumberOf (.elements xs) t' r) :
    Reads StringOf NumberOf (.elements xs) t r := by
  cases hr with
  | lastElement h1 h2 h3 => exact .lastElement (h.trans h1) h2 h3
  | element h1 h2 h3 h4 => exact .element (h.trans h1) h2 h3 h4

theorem Reads.of_ws_members {t t' r : List Char} {ms : List (List Char × JsonValue)} (h : Ws t t')
    (hr : Reads StringOf NumberOf (.members ms) t' r) :
    Reads StringOf NumberOf (.members ms) t r := by
  cases hr with
  | lastMember h1 h2 h3 h4 h5 h6 => exact .lastMember (h.trans h1) h2 h3 h4 h5 h6
  | member h1 h2 h3 h4 h5 h6 h7 => exact .member (h.trans h1) h2 h3 h4 h5 h6 h7

variable {fuel : ℕ} {v : JsonValue} {rest : List ℕ} {t : List Char}

theorem parseValue_sound_step
    (hmem : ∀ {t v rest}, parseMembers fuel [] (utf16 t) = some (v, rest) →
      MembersParsed [] t v rest)
    (helem : ∀ {t v rest}, parseElements fuel [] (utf16 t) = some (v, rest) →
      ElementsParsed [] t v rest)
    (h : parseValue (fuel + 1) (utf16 t) = some (v, rest)) : ValueParsed t v rest := by
  rw [parseValue, whitespace_utf16] at h
  split at h
  · rename_i us hus
    obtain ⟨t₁, ht₁, rfl⟩ := (utf16_eq_ascii (c := '{') (by decide)).1 hus
    rw [whitespace_utf16] at h
    split at h
    · rename_i us' hus'
      obtain ⟨r, hr, rfl⟩ := (utf16_eq_ascii (c := '}') (by decide)).1 hus'
      obtain ⟨rfl, rfl⟩ := Prod.mk.inj (Option.some.inj h)
      exact ⟨_, r, ws_of_skipSpace ht₁, .emptyObj (ws_of_skipSpace hr),
        Json.distinct_obj.2 ⟨List.nodup_nil, by simp⟩, rfl⟩
    · obtain ⟨ms, r, rfl, hreads, hnd, hdist, rfl⟩ := hmem h
      exact ⟨_, r, ws_of_skipSpace ht₁, .obj (Reads.of_ws_members (ws_skipSpace t₁) hreads),
        Json.distinct_obj.2 ⟨hnd, hdist⟩, rfl⟩
  · rename_i us hus
    obtain ⟨t₁, ht₁, rfl⟩ := (utf16_eq_ascii (c := '[') (by decide)).1 hus
    rw [whitespace_utf16] at h
    split at h
    · rename_i us' hus'
      obtain ⟨r, hr, rfl⟩ := (utf16_eq_ascii (c := ']') (by decide)).1 hus'
      obtain ⟨rfl, rfl⟩ := Prod.mk.inj (Option.some.inj h)
      exact ⟨_, r, ws_of_skipSpace ht₁, .emptyArr (ws_of_skipSpace hr),
        Json.distinct_arr.2 (by simp), rfl⟩
    · obtain ⟨xs, r, rfl, hreads, hdist, rfl⟩ := helem h
      exact ⟨_, r, ws_of_skipSpace ht₁, .arr (Reads.of_ws_elements (ws_skipSpace t₁) hreads),
        Json.distinct_arr.2 hdist, rfl⟩
  · rename_i us hus
    obtain ⟨t₁, ht₁, rfl⟩ := (utf16_eq_ascii (c := '"') (by decide)).1 hus
    obtain ⟨⟨s, rest'⟩, hs, heq⟩ := Option.map_eq_some_iff.1 h
    obtain ⟨rfl, rfl⟩ := Prod.mk.inj heq
    obtain ⟨r, rfl, hbody⟩ := parseString_sound hs
    exact ⟨_, r, ws_of_skipSpace ht₁, .str hbody, trivial, rfl⟩
  · obtain ⟨r, rfl, hreads, hdist⟩ := parseScalar_sound h
    exact ⟨_, r, ws_skipSpace t, hreads, hdist, rfl⟩

theorem parseElements_sound_step {array : List JsonValue}
    (hval : ∀ {t v rest}, parseValue fuel (utf16 t) = some (v, rest) → ValueParsed t v rest)
    (helem : ∀ {array t v rest}, parseElements fuel array (utf16 t) = some (v, rest) →
      ElementsParsed array t v rest)
    (h : parseElements (fuel + 1) array (utf16 t) = some (v, rest)) :
    ElementsParsed array t v rest := by
  simp only [parseElements, Option.bind_eq_bind, Option.bind_eq_some_iff] at h
  obtain ⟨⟨x, us⟩, hx, h⟩ := h
  obtain ⟨t₁, t₂, hws, hreads, hdist, rfl⟩ := hval hx
  dsimp only at h
  rw [whitespace_utf16] at h
  split at h
  · rename_i us' hus'
    obtain ⟨r, hr, rfl⟩ := (utf16_eq_ascii (c := ']') (by decide)).1 hus'
    obtain ⟨rfl, rfl⟩ := Prod.mk.inj (Option.some.inj h)
    exact ⟨[x], r, rfl, .lastElement hws hreads (ws_of_skipSpace hr), by simpa using hdist, rfl⟩
  · rename_i us' hus'
    obtain ⟨t₃, ht₃, rfl⟩ := (utf16_eq_ascii (c := ',') (by decide)).1 hus'
    obtain ⟨xs, r, rfl, hrest, hxs, rfl⟩ := helem h
    exact ⟨x :: xs, r, by simp, .element hws hreads (ws_of_skipSpace ht₃) hrest,
      List.forall_mem_cons.2 ⟨hdist, hxs⟩, rfl⟩
  · cases h

theorem parseMembers_sound_step {object : List (List Char × JsonValue)}
    (hval : ∀ {t v rest}, parseValue fuel (utf16 t) = some (v, rest) → ValueParsed t v rest)
    (hmem : ∀ {object t v rest}, parseMembers fuel object (utf16 t) = some (v, rest) →
      (Json.names object).Nodup → MembersParsed object t v rest)
    (h : parseMembers (fuel + 1) object (utf16 t) = some (v, rest))
    (hnd : (Json.names object).Nodup) : MembersParsed object t v rest := by
  simp only [parseMembers, Option.bind_eq_bind, Option.bind_eq_some_iff, whitespace_utf16] at h
  obtain ⟨⟨key, us⟩, hkey, h⟩ := h
  obtain ⟨t₁, ht₁, t₂, rfl, hbody⟩ : ∃ t₁, skipSpace t = '"' :: t₁ ∧ ∃ t₂, us = utf16 t₂ ∧
      StringOf t₁ key t₂ := by
    rcases hu : utf16 (skipSpace t) with _ | ⟨u, us₁⟩
    · rw [hu] at hkey
      cases hkey
    · by_cases hq : u = 0x22
      · subst hq
        obtain ⟨t₁, ht₁, rfl⟩ := (utf16_eq_ascii (c := '"') (by decide)).1 hu
        rw [hu] at hkey
        obtain ⟨t₂, rfl, hbody⟩ := parseString_sound hkey
        exact ⟨t₁, ht₁, t₂, rfl, hbody⟩
      · rw [hu] at hkey
        unfold parseString at hkey
        split at hkey
        · rename_i heq
          exact absurd (List.cons.inj heq).1 hq
        · cases hkey
  dsimp only at h
  split_ifs at h with hdup
  rw [whitespace_utf16] at h
  split at h
  · rename_i us' hus'
    obtain ⟨t₃, ht₃, rfl⟩ := (utf16_eq_ascii (c := ':') (by decide)).1 hus'
    obtain ⟨⟨x, us₃⟩, hx, h⟩ := Option.bind_eq_some_iff.1 h
    obtain ⟨t₄, t₅, hws, hreads, hdist, rfl⟩ := hval hx
    have hnd' : (Json.names (object ++ [(key, x)])).Nodup := by
      rw [Json.names_append, List.nodup_append_comm]
      exact List.nodup_cons.2 ⟨hdup, hnd⟩
    dsimp only at h
    rw [whitespace_utf16] at h
    split at h
    · rename_i us' hus'
      obtain ⟨r, hr, rfl⟩ := (utf16_eq_ascii (c := '}') (by decide)).1 hus'
      obtain ⟨rfl, rfl⟩ := Prod.mk.inj (Option.some.inj h)
      exact ⟨[(key, x)], r, rfl, .lastMember (ws_of_skipSpace ht₁) hbody (ws_of_skipSpace ht₃) hws
        hreads (ws_of_skipSpace hr), hnd', by simpa using hdist, rfl⟩
    · rename_i us' hus'
      obtain ⟨t₆, ht₆, rfl⟩ := (utf16_eq_ascii (c := ',') (by decide)).1 hus'
      obtain ⟨ms, r, rfl, hrest, hnd'', hms, rfl⟩ := hmem h hnd'
      rw [List.append_assoc] at hnd''
      exact ⟨(key, x) :: ms, r, by simp, .member (ws_of_skipSpace ht₁) hbody (ws_of_skipSpace ht₃)
        hws hreads (ws_of_skipSpace ht₆) hrest, hnd'', List.forall_mem_cons.2 ⟨hdist, hms⟩, rfl⟩
    · cases h
  · cases h

theorem parse_sound : ∀ fuel : ℕ,
    (∀ {t v rest}, parseValue fuel (utf16 t) = some (v, rest) → ValueParsed t v rest) ∧
    (∀ {array t v rest}, parseElements fuel array (utf16 t) = some (v, rest) →
      ElementsParsed array t v rest) ∧
    (∀ {object t v rest}, parseMembers fuel object (utf16 t) = some (v, rest) →
      (Json.names object).Nodup → MembersParsed object t v rest)
  | 0 => by
    refine ⟨fun h => ?_, fun h => ?_, fun h _ => ?_⟩
    · cases h
    · cases h
    · cases h
  | fuel + 1 => by
    obtain ⟨hval, helem, hmem⟩ := parse_sound fuel
    exact ⟨parseValue_sound_step (fun h => hmem h List.nodup_nil) helem,
      parseElements_sound_step hval helem, parseMembers_sound_step hval hmem⟩

end Sound

/-! ## Completeness -/

section Complete

variable {t r : List Char}

/-- What a piece of text makes the parser do, whatever follows it. -/
def Parses : JsonText.Symbol (List Char) Binary64 → List Char → List Char → Prop
  | .value v, t, r => ∀ fuel t₀, Follow r → v.Distinct → t.length ≤ fuel + r.length →
      skipSpace t₀ = t → parseValue fuel (utf16 t₀) = some (v, utf16 r)
  | .elements xs, t, r => ∀ fuel t₀ array r', r = ']' :: r' → (∀ x ∈ xs, x.Distinct) →
      t.length < fuel + r.length → skipSpace t₀ = skipSpace t →
      parseElements fuel array (utf16 t₀) = some (.arr (array ++ xs), utf16 r')
  | .members ms, t, r => ∀ fuel t₀ object r', r = '}' :: r' → (∀ m ∈ ms, m.2.Distinct) →
      (Json.names (object ++ ms)).Nodup → t.length < fuel + r.length →
      skipSpace t₀ = skipSpace t →
      parseMembers fuel object (utf16 t₀) = some (.obj (object ++ ms), utf16 r')

theorem Reads.skipSpace_value {v : JsonValue} (h : Reads StringOf NumberOf (.value v) t r) :
    skipSpace t = t := by
  obtain ⟨c, t', rfl, hsp, -⟩ := h.value_start lexical_numberOf
  exact skipSpace_cons hsp t'

theorem skipSpace_of_ws {c : Char} (h : Ws t (c :: r)) (hc : IsSeparator c) :
    skipSpace t = c :: r := by
  rw [h.skipSpace_eq]
  refine skipSpace_cons ?_ r
  rcases hc with rfl | rfl | rfl | rfl <;> rfl

theorem whitespace_separator {c : Char} (h : Ws t (c :: r)) (hc : IsSeparator c) :
    whitespace (utf16 t) = c.toNat :: utf16 r := by
  rw [whitespace_utf16, skipSpace_of_ws h hc]
  exact utf16_cons_ascii (by rcases hc with rfl | rfl | rfl | rfl <;> decide) r

theorem parseScalar_number {n : Number} {x : Binary64} (hx : Binary64.nearest n.value = some x)
    (hr : Follow r) : parseScalar (utf16 (n.text ++ r)) = some (.num x, utf16 r) := by
  have hscan := scanNumber_append n hr
  have hmatch := matchNumber_of_scanNumber hscan
  unfold parseScalar
  split
  · rename_i heq
    obtain ⟨t', ht', -⟩ := (utf16_eq_word (s := ['t', 'r', 'u', 'e']) (by simp)).1 heq
    rw [ht'] at hscan
    cases hscan
  · rename_i heq
    obtain ⟨t', ht', -⟩ := (utf16_eq_word (s := ['f', 'a', 'l', 's', 'e']) (by simp)).1 heq
    rw [ht'] at hscan
    cases hscan
  · rename_i heq
    obtain ⟨t', ht', -⟩ := (utf16_eq_word (s := ['n', 'u', 'l', 'l']) (by simp)).1 heq
    rw [ht'] at hscan
    cases hscan
  · simp only [hmatch, Option.bind_eq_bind, Option.bind_some, hx]

/-- A value that opens no array, object or string is read as a scalar. -/
theorem parseValue_scalar {fuel : ℕ} {t₀ : List Char} (h : skipSpace t₀ = t)
    (h1 : ∀ c u, t = c :: u → c ≠ '{' ∧ c ≠ '[' ∧ c ≠ '"') :
    parseValue (fuel + 1) (utf16 t₀) = parseScalar (utf16 t) := by
  rw [parseValue, whitespace_utf16, h]
  split
  · rename_i heq
    obtain ⟨t', rfl, -⟩ := (utf16_eq_ascii (c := '{') (by decide)).1 heq
    exact absurd rfl (h1 _ _ rfl).1
  · rename_i heq
    obtain ⟨t', rfl, -⟩ := (utf16_eq_ascii (c := '[') (by decide)).1 heq
    exact absurd rfl (h1 _ _ rfl).2.1
  · rename_i heq
    obtain ⟨t', rfl, -⟩ := (utf16_eq_ascii (c := '"') (by decide)).1 heq
    exact absurd rfl (h1 _ _ rfl).2.2
  · rfl

theorem parseValue_array {fuel : ℕ} {t₀ : List Char} (h : skipSpace t₀ = '[' :: t) :
    parseValue (fuel + 1) (utf16 t₀) = match whitespace (utf16 t) with
      | 0x5D :: t => some (Json.arr [], t)
      | t => parseElements fuel [] t := by
  rw [parseValue, whitespace_utf16, h, utf16_cons_ascii (by decide)]
  rfl

theorem parseValue_object {fuel : ℕ} {t₀ : List Char} (h : skipSpace t₀ = '{' :: t) :
    parseValue (fuel + 1) (utf16 t₀) = match whitespace (utf16 t) with
      | 0x7D :: t => some (Json.obj [], t)
      | t => parseMembers fuel [] t := by
  rw [parseValue, whitespace_utf16, h, utf16_cons_ascii (by decide)]
  rfl

theorem parseValue_elements {fuel : ℕ} {t₀ : List Char} (h : skipSpace t₀ = '[' :: t)
    (h1 : ∀ u, skipSpace t ≠ ']' :: u) :
    parseValue (fuel + 1) (utf16 t₀) = parseElements fuel [] (utf16 (skipSpace t)) := by
  rw [parseValue_array h, whitespace_utf16]
  split
  · rename_i heq
    obtain ⟨t', ht', -⟩ := (utf16_eq_ascii (c := ']') (by decide)).1 heq
    exact absurd ht' (h1 t')
  · rfl

theorem parseValue_members {fuel : ℕ} {t₀ : List Char} (h : skipSpace t₀ = '{' :: t)
    (h1 : ∀ u, skipSpace t ≠ '}' :: u) :
    parseValue (fuel + 1) (utf16 t₀) = parseMembers fuel [] (utf16 (skipSpace t)) := by
  rw [parseValue_object h, whitespace_utf16]
  split
  · rename_i heq
    obtain ⟨t', ht', -⟩ := (utf16_eq_ascii (c := '}') (by decide)).1 heq
    exact absurd ht' (h1 t')
  · rfl

theorem Reads.elements_start {xs : List JsonValue}
    (h : Reads StringOf NumberOf (.elements xs) t r) : ∀ u, skipSpace t ≠ ']' :: u := by
  have key : ∀ {x : JsonValue} {t₁ t₂ : List Char}, Ws t t₁ →
      Reads StringOf NumberOf (.value x) t₁ t₂ → ∀ u, skipSpace t ≠ ']' :: u := by
    intro x t₁ t₂ hws hx u heq
    rw [hws.skipSpace_eq, Reads.skipSpace_value hx] at heq
    subst heq
    obtain ⟨c, t', heq, -, hsep⟩ := hx.value_start lexical_numberOf
    rw [← (List.cons.inj heq).1] at hsep
    exact hsep (by simp [IsSeparator])
  cases h with
  | lastElement hws hx _ => exact key hws hx
  | element hws hx _ _ => exact key hws hx

theorem Reads.members_start {ms : List (List Char × JsonValue)}
    (h : Reads StringOf NumberOf (.members ms) t r) : ∃ u, skipSpace t = '"' :: u := by
  cases h with
  | lastMember hws _ _ _ _ _ => exact ⟨_, by rw [hws.skipSpace_eq, skipSpace_cons (by decide)]⟩
  | member hws _ _ _ _ _ _ => exact ⟨_, by rw [hws.skipSpace_eq, skipSpace_cons (by decide)]⟩

theorem follow_of_space {c : Char} (h : isSpace c = true) : Follow (c :: t) := by
  simp only [isSpace, Bool.or_eq_true, decide_eq_true_eq] at h
  rcases h with ((rfl | rfl) | rfl) | rfl <;> exact ⟨by decide, by decide, by decide, by decide⟩

theorem follow_of_ws {c : Char} (h : Ws t (c :: r)) (hc : IsSeparator c) : Follow t := by
  cases h with
  | nil => rcases hc with rfl | rfl | rfl | rfl <;> exact ⟨by decide, by decide, by decide, by decide⟩
  | cons hc _ => exact follow_of_space hc

/-- A member's key and value, and the separator after them. -/
theorem parse_member {fuel : ℕ} {object : List (List Char × JsonValue)} {key : List Char}
    {x : JsonValue} {t₀ t₁ t₂ t₃ t₅ : List Char} (hq : skipSpace t₀ = '"' :: t₁)
    (hbody : StringOf t₁ key t₂) (hcolon : Ws t₂ (':' :: t₃))
    (hx : parseValue fuel (utf16 t₃) = some (x, utf16 t₅)) (hkey : key ∉ Json.names object) :
    parseMembers (fuel + 1) object (utf16 t₀) = match whitespace (utf16 t₅) with
      | 0x7D :: t => some (.obj (object ++ [(key, x)]), t)
      | 0x2C :: t => parseMembers fuel (object ++ [(key, x)]) t
      | _ => none := by
  rw [parseMembers, whitespace_utf16, hq, utf16_cons_ascii (by decide)]
  change (parseString (0x22 :: utf16 t₁)).bind _ = _
  rw [parseString_complete hbody, Option.bind_some]
  dsimp only
  rw [if_neg hkey, whitespace_separator hcolon (by simp [IsSeparator])]
  change (parseValue fuel (utf16 t₃)).bind _ = _
  rw [hx]
  rfl

theorem parses_of_reads {g : JsonText.Symbol (List Char) Binary64}
    (h : Reads StringOf NumberOf g t r) : Parses g t r := by
  induction h with
  | null r =>
    intro fuel t₀ _ _ hfuel ht₀
    simp only [List.length_cons] at hfuel
    obtain ⟨fuel, rfl⟩ : ∃ n, fuel = n + 1 := ⟨fuel - 1, by omega⟩
    rw [parseValue_scalar ht₀ (by simp)]
    rfl
  | true r =>
    intro fuel t₀ _ _ hfuel ht₀
    simp only [List.length_cons] at hfuel
    obtain ⟨fuel, rfl⟩ : ∃ n, fuel = n + 1 := ⟨fuel - 1, by omega⟩
    rw [parseValue_scalar ht₀ (by simp)]
    rfl
  | false r =>
    intro fuel t₀ _ _ hfuel ht₀
    simp only [List.length_cons] at hfuel
    obtain ⟨fuel, rfl⟩ : ∃ n, fuel = n + 1 := ⟨fuel - 1, by omega⟩
    rw [parseValue_scalar ht₀ (by simp)]
    rfl
  | @num x t r hx =>
    intro fuel t₀ hr _ hfuel ht₀
    have hlen := (Reads.num (S := StringOf) hx).length_lt lexical_numberOf
    obtain ⟨n, rfl, hx⟩ := hx
    obtain ⟨fuel, rfl⟩ : ∃ n, fuel = n + 1 := ⟨fuel - 1, by omega⟩
    rw [parseValue_scalar ht₀ ?_, parseScalar_number hx hr]
    intro c u hc
    have hscan := scanNumber_append n hr
    rw [hc] at hscan
    refine ⟨?_, ?_, ?_⟩ <;> rintro rfl <;> cases hscan
  | @str s t r hs =>
    intro fuel t₀ _ _ hfuel ht₀
    have hlen := (Reads.str (N := NumberOf) hs).length_lt lexical_numberOf
    obtain ⟨fuel, rfl⟩ : ∃ n, fuel = n + 1 := ⟨fuel - 1, by omega⟩
    rw [parseValue, whitespace_utf16, ht₀, utf16_cons_ascii (by decide)]
    change (parseString (0x22 :: utf16 t)).map _ = _
    rw [parseString_complete hs, Option.map_some]
  | @emptyArr t r hws =>
    intro fuel t₀ _ _ hfuel ht₀
    have := hws.length_le
    simp only [List.length_cons] at hfuel this
    obtain ⟨fuel, rfl⟩ : ∃ n, fuel = n + 1 := ⟨fuel - 1, by omega⟩
    rw [parseValue_array ht₀, whitespace_separator hws (by simp [IsSeparator])]
    rfl
  | @arr xs t r hxs ih =>
    intro fuel t₀ _ hdist hfuel ht₀
    have hlen := hxs.length_lt lexical_numberOf
    simp only [List.length_cons] at hfuel hlen
    obtain ⟨fuel, rfl⟩ : ∃ n, fuel = n + 1 := ⟨fuel - 1, by omega⟩
    rw [parseValue_elements ht₀ (Reads.elements_start hxs)]
    exact ih fuel _ [] r rfl (Json.distinct_arr.1 hdist) (by rw [List.length_cons]; omega)
      (skipSpace_idem t)
  | @emptyObj t r hws =>
    intro fuel t₀ _ _ hfuel ht₀
    have := hws.length_le
    simp only [List.length_cons] at hfuel this
    obtain ⟨fuel, rfl⟩ : ∃ n, fuel = n + 1 := ⟨fuel - 1, by omega⟩
    rw [parseValue_object ht₀, whitespace_separator hws (by simp [IsSeparator])]
    rfl
  | @obj ms t r hms ih =>
    intro fuel t₀ _ hdist hfuel ht₀
    have hlen := hms.length_lt lexical_numberOf
    simp only [List.length_cons] at hfuel hlen
    obtain ⟨fuel, rfl⟩ : ∃ n, fuel = n + 1 := ⟨fuel - 1, by omega⟩
    obtain ⟨hnd, hdist⟩ := Json.distinct_obj.1 hdist
    rw [parseValue_members ht₀ ?_]
    · exact ih fuel _ [] r rfl hdist hnd (by rw [List.length_cons]; omega) (skipSpace_idem t)
    · intro u hu
      obtain ⟨u', hu'⟩ := Reads.members_start hms
      rw [hu'] at hu
      exact absurd (List.cons.inj hu).1 (by decide)
  | @lastElement x t t₁ t₂ r hws hx hend ih =>
    rintro fuel t₀ array r' rfl hdist hfuel ht₀
    have hlen := hx.length_lt lexical_numberOf
    have := hws.length_le
    have := hend.length_le
    simp only [List.length_cons] at hfuel this
    obtain ⟨fuel, rfl⟩ : ∃ n, fuel = n + 1 := ⟨fuel - 1, by omega⟩
    have hval := ih fuel t₀ (follow_of_ws hend (by simp [IsSeparator])) (hdist x (by simp))
      (by omega) (by rw [ht₀, hws.skipSpace_eq, Reads.skipSpace_value hx])
    simp only [parseElements, hval, Option.bind_eq_bind, Option.bind_some]
    rw [whitespace_separator hend (by simp [IsSeparator])]
    rfl
  | @element x xs t t₁ t₂ t₃ r hws hx hcomma hxs ih ihxs =>
    rintro fuel t₀ array r' rfl hdist hfuel ht₀
    have hlen := hx.length_lt lexical_numberOf
    have hlen' := hxs.length_lt lexical_numberOf
    have := hws.length_le
    have := hcomma.length_le
    simp only [List.length_cons] at hfuel this hlen'
    obtain ⟨fuel, rfl⟩ : ∃ n, fuel = n + 1 := ⟨fuel - 1, by omega⟩
    obtain ⟨hx', hxs'⟩ := List.forall_mem_cons.1 hdist
    have hval := ih fuel t₀ (follow_of_ws hcomma (by simp [IsSeparator])) hx'
      (by omega) (by rw [ht₀, hws.skipSpace_eq, Reads.skipSpace_value hx])
    have hrest := ihxs fuel t₃ (array ++ [x]) r' rfl hxs' (by rw [List.length_cons]; omega) rfl
    rw [List.append_assoc, List.singleton_append] at hrest
    simp only [parseElements, hval, Option.bind_eq_bind, Option.bind_some]
    rw [whitespace_separator hcomma (by simp [IsSeparator])]
    exact hrest
  | @lastMember k x t t₁ t₂ t₃ t₄ t₅ r hws hk hcolon hws' hx hend ih =>
    rintro fuel t₀ object r' rfl hdist hnd hfuel ht₀
    have hlen := hx.length_lt lexical_numberOf
    have := StringBody.length_lt hk
    have := hws.length_le
    have := hcolon.length_le
    have := hws'.length_le
    have := hend.length_le
    simp only [List.length_cons] at *
    obtain ⟨fuel, rfl⟩ : ∃ n, fuel = n + 1 := ⟨fuel - 1, by omega⟩
    rw [Json.names_append, List.nodup_append_comm] at hnd
    have hval := ih fuel t₃ (follow_of_ws hend (by simp [IsSeparator])) (hdist (k, x) (by simp))
      (by omega) (by rw [hws'.skipSpace_eq, Reads.skipSpace_value hx])
    rw [parse_member (by rw [ht₀, hws.skipSpace_eq, skipSpace_cons (by decide)]) hk hcolon hval
      (List.nodup_cons.1 hnd).1, whitespace_separator hend (by simp [IsSeparator])]
    rfl
  | @member k x ms t t₁ t₂ t₃ t₄ t₅ t₆ r hws hk hcolon hws' hx hcomma hms ih ihms =>
    rintro fuel t₀ object r' rfl hdist hnd hfuel ht₀
    have hlen := hx.length_lt lexical_numberOf
    have hlen' := hms.length_lt lexical_numberOf
    have := StringBody.length_lt hk
    have := hws.length_le
    have := hcolon.length_le
    have := hws'.length_le
    have := hcomma.length_le
    simp only [List.length_cons] at *
    obtain ⟨fuel, rfl⟩ : ∃ n, fuel = n + 1 := ⟨fuel - 1, by omega⟩
    obtain ⟨hx', hms'⟩ := List.forall_mem_cons.1 hdist
    have hkey : k ∉ Json.names object := by
      rw [Json.names_append, List.nodup_append_comm, Json.names_cons, List.cons_append,
        List.nodup_cons, List.mem_append, not_or] at hnd
      exact hnd.1.2
    have hval := ih fuel t₃ (follow_of_ws hcomma (by simp [IsSeparator])) hx' (by omega)
      (by rw [hws'.skipSpace_eq, Reads.skipSpace_value hx])
    have hrest := ihms fuel t₆ (object ++ [(k, x)]) r' rfl hms' (by simpa using hnd)
      (by rw [List.length_cons]; omega) rfl
    rw [List.append_assoc, List.singleton_append] at hrest
    rw [parse_member (by rw [ht₀, hws.skipSpace_eq, skipSpace_cons (by decide)]) hk hcolon hval
      hkey, whitespace_separator hcomma (by simp [IsSeparator])]
    exact hrest

end Complete

/-! ## The whole source -/

section Whole

theorem length_utf16 (t : List Char) : t.length ≤ (utf16 t).length := by
  induction t with
  | nil => simp
  | cons c t ih =>
    rw [utf16_cons, utf16Char]
    split_ifs
    · simpa using ih
    · simp only [List.length_append, List.length_cons]
      omega

/-- `strictParse` accepts exactly the texts of values whose objects repeat no name. -/
theorem strictParse_eq_some {text : List Char} {v : JsonValue} :
    strictParse (utf16 text) = some v ↔ Text StringOf NumberOf v text ∧ v.Distinct := by
  simp only [strictParse, Option.bind_eq_bind, Option.bind_eq_some_iff, Prod.exists]
  constructor
  · rintro ⟨v', rest, hparse, hend⟩
    obtain ⟨t₁, r, hws, hreads, hdist, rfl⟩ := (parse_sound _).1 hparse
    rw [whitespace_utf16] at hend
    split_ifs at hend with hnil
    obtain rfl := Option.some.inj hend
    have hr : skipSpace r = [] := by
      rcases hs : skipSpace r with _ | ⟨c, u⟩
      · rfl
      · rw [hs, utf16_cons, List.append_eq_nil_iff] at hnil
        have := hnil.1
        unfold utf16Char at this
        split_ifs at this
    exact ⟨⟨t₁, r, hws, hreads, ws_of_skipSpace hr⟩, hdist⟩
  · rintro ⟨⟨t₁, t₂, hws, hreads, hend⟩, hdist⟩
    have hskip : skipSpace t₂ = [] := hend.skipSpace_eq
    have hfollow : Follow t₂ := by
      cases hend with
      | nil => trivial
      | cons hc _ => exact follow_of_space hc
    have := length_utf16 text
    have := hws.length_le
    refine ⟨v, utf16 t₂, parses_of_reads hreads _ text hfollow hdist (by omega) ?_, ?_⟩
    · rw [hws.skipSpace_eq, Reads.skipSpace_value hreads]
    · rw [whitespace_utf16, hskip]
      rfl

end Whole

end Client
