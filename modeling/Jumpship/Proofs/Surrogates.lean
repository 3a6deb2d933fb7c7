import Jumpship.Proofs.Decoding

/-!
# hasLoneSurrogateEscape

The scan runs over bytes and knows nothing of the grammar. On a text of the grammar it answers
false exactly when every string literal pairs its surrogates, and on such a text the decoder's
replacement of lone surrogates never happens.
-/

namespace Canonical

open Go JsonText Unicode

section Bytes

variable {c : Char} {t r : List Char}

theorem utf8_ascii (h : c.toNat < 128) (t : List Char) :
    utf8 (c :: t) = UInt8.ofNat c.toNat :: utf8 t := by
  rw [utf8_cons, utf8EncodeChar_ascii h]
  rfl

theorem ofNat_toNat_ascii (h : c.toNat < 128) : Char.ofNat (UInt8.ofNat c.toNat).toNat = c := by
  rw [UInt8.toNat_ofNat', Nat.mod_eq_of_lt (by omega), Char.ofNat_toNat]

theorem ofNat_eq_iff {n : ℕ} (h : c.toNat < 128) (hn : n < 128) :
    UInt8.ofNat c.toNat = UInt8.ofNat n ↔ c.toNat = n := by
  rw [← UInt8.toNat_inj, UInt8.toNat_ofNat', UInt8.toNat_ofNat', Nat.mod_eq_of_lt (by omega),
    Nat.mod_eq_of_lt (by omega)]

/-- Bytes that are neither a quote nor a backslash leave the scan where it is. -/
theorem surrogateScan_bytes {inString : Bool} {bs rest : List UInt8}
    (h : ∀ b ∈ bs, b ≠ 0x22 ∧ b ≠ 0x5C) :
    surrogateScan inString false (bs ++ rest) = surrogateScan inString false rest := by
  induction bs with
  | nil => rfl
  | cons b bs ih =>
    obtain ⟨hb, hbs⟩ := List.forall_mem_cons.1 h
    rcases inString with _ | _
    · rw [List.cons_append, surrogateScan, if_neg hb.1, ih hbs]
    · rw [List.cons_append, surrogateScan, if_neg hb.2, if_neg hb.1, ih hbs]

theorem bytes_of_char (h1 : c ≠ '"') (h2 : c ≠ '\\') :
    ∀ b ∈ String.utf8EncodeChar c, b ≠ 0x22 ∧ b ≠ 0x5C := by
  intro b hb
  by_cases hc : c.toNat < 128
  · rw [utf8EncodeChar_ascii hc, List.mem_singleton] at hb
    subst hb
    have key : ∀ d : Char, d.toNat < 128 → c ≠ d → UInt8.ofNat c.toNat ≠ UInt8.ofNat d.toNat := by
      intro d hd hcd heq
      rw [ofNat_eq_iff hc hd] at heq
      rw [← Char.ofNat_toNat c, ← Char.ofNat_toNat d, heq] at hcd
      exact hcd rfl
    exact ⟨key '"' (by decide) h1, key '\\' (by decide) h2⟩
  · have hb := utf8EncodeChar_high (by omega) b hb
    constructor <;> rintro rfl <;> exact absurd hb (by decide)

theorem surrogateScan_char {inString : Bool} (h1 : c ≠ '"') (h2 : c ≠ '\\') (t : List Char) :
    surrogateScan inString false (utf8 (c :: t)) = surrogateScan inString false (utf8 t) :=
  surrogateScan_bytes (bytes_of_char h1 h2)

theorem surrogateScan_text {s : List Char} (h : ∀ c ∈ s, c ≠ '"' ∧ c ≠ '\\') (t : List Char) :
    surrogateScan false false (utf8 (s ++ t)) = surrogateScan false false (utf8 t) := by
  induction s with
  | nil => rfl
  | cons c s ih =>
    obtain ⟨hc, hs⟩ := List.forall_mem_cons.1 h
    rw [List.cons_append, surrogateScan_char hc.1 hc.2, ih hs]

theorem surrogateScan_ws (h : Ws t r) :
    surrogateScan false false (utf8 t) = surrogateScan false false (utf8 r) := by
  induction h with
  | nil => rfl
  | @cons c t r hc _ ih =>
    rw [← ih]
    refine surrogateScan_char ?_ ?_ t
    · rintro rfl
      cases hc
    · rintro rfl
      cases hc

theorem surrogateScan_open (t : List Char) :
    surrogateScan false false (utf8 ('"' :: t)) = surrogateScan true false (utf8 t) := by
  rw [utf8_ascii (by decide)]
  rfl

theorem surrogateScan_close (t : List Char) :
    surrogateScan true false (utf8 ('"' :: t)) = surrogateScan false false (utf8 t) := by
  rw [utf8_ascii (by decide)]
  rfl

theorem surrogateScan_backslash (rest : List UInt8) :
    surrogateScan true false (UInt8.ofNat '\\'.toNat :: rest) = surrogateScan true true rest := by
  rw [surrogateScan.eq_def]
  rfl

theorem surrogateScan_escaped {b : UInt8} (h : b ≠ 0x75) (rest : List UInt8) :
    surrogateScan true true (b :: rest) = surrogateScan true false rest := by
  rw [surrogateScan.eq_def]
  exact if_pos h

theorem surrogateScan_escape {e : Char} {u : ℕ} (h : simpleEscape? e = some u) (t : List Char) :
    surrogateScan true false (utf8 ('\\' :: e :: t)) = surrogateScan true false (utf8 t) := by
  unfold simpleEscape? at h
  split at h
  case h_9 => cases h
  all_goals
    rw [utf8_ascii (by decide), utf8_ascii (by decide), surrogateScan_backslash,
      surrogateScan_escaped (by decide)]

end Bytes

/-! ## Unicode escapes -/

section Escapes

theorem hexDigit?_ascii {c : Char} {n : ℕ} (h : hexDigit? c = some n) : c.toNat < 128 := by
  unfold hexDigit? at h
  dsimp only at h
  split_ifs at h <;> omega

/-- Four hexadecimal digits are four bytes that `parseHexUnit` reads alike. -/
theorem utf8_hex4 {a b c d : Char} {u : ℕ} (h : hex4 a b c d = some u) (t : List Char) :
    ∃ a' b' c' d', utf8 (a :: b :: c :: d :: t) = a' :: b' :: c' :: d' :: utf8 t ∧
      parseHexUnit [a', b', c', d'] = some u := by
  obtain ⟨w, x, y, z, hw, hx, hy, hz, -⟩ := hex4_eq_some.1 h
  have ha := hexDigit?_ascii hw
  have hb := hexDigit?_ascii hx
  have hc := hexDigit?_ascii hy
  have hd := hexDigit?_ascii hz
  refine ⟨_, _, _, _, by rw [utf8_ascii ha, utf8_ascii hb, utf8_ascii hc, utf8_ascii hd], ?_⟩
  rw [parseHexUnit, ofNat_toNat_ascii ha, ofNat_toNat_ascii hb, ofNat_toNat_ascii hc,
    ofNat_toNat_ascii hd, h]

variable {a b c d : Char} {u : ℕ}

theorem surrogateScan_unit (h : hex4 a b c d = some u) (h1 : isHighSurrogate u = false)
    (t : List Char) : surrogateScan true false (utf8 ('\\' :: 'u' :: a :: b :: c :: d :: t))
      = if isLowSurrogate u then true else surrogateScan true false (utf8 t) := by
  obtain ⟨a', b', c', d', hbytes, hunit⟩ := utf8_hex4 h t
  rw [utf8_ascii (by decide), utf8_ascii (by decide), hbytes]
  rw [surrogateScan_backslash, surrogateScan.eq_def]
  simp [hunit, h1]

theorem surrogateScan_pair {a₂ b₂ c₂ d₂ : Char} {v : ℕ} (h : hex4 a b c d = some u)
    (h1 : isHighSurrogate u = true) (h2 : hex4 a₂ b₂ c₂ d₂ = some v) (t : List Char) :
    surrogateScan true false (utf8 ('\\' :: 'u' :: a :: b :: c :: d ::
        '\\' :: 'u' :: a₂ :: b₂ :: c₂ :: d₂ :: t))
      = if isLowSurrogate v then surrogateScan true false (utf8 t) else true := by
  obtain ⟨a', b', c', d', hbytes, hunit⟩ :=
    utf8_hex4 h ('\\' :: 'u' :: a₂ :: b₂ :: c₂ :: d₂ :: t)
  obtain ⟨e', f', g', h', hbytes₂, hunit₂⟩ := utf8_hex4 h2 t
  rw [utf8_ascii (by decide), utf8_ascii (by decide), hbytes, utf8_ascii (by decide),
    utf8_ascii (by decide), hbytes₂]
  rw [surrogateScan_backslash, surrogateScan.eq_def]
  simp [hunit, h1, hunit₂]

/-- A high surrogate before anything but a second escape is lone. -/
theorem surrogateScan_lone (h : hex4 a b c d = some u) (h1 : isHighSurrogate u = true)
    {t : List Char} (ht : ∀ bs, utf8 t ≠ 0x5C :: 0x75 :: bs) :
    surrogateScan true false (utf8 ('\\' :: 'u' :: a :: b :: c :: d :: t)) = true := by
  obtain ⟨a', b', c', d', hbytes, hunit⟩ := utf8_hex4 h t
  rw [utf8_ascii (by decide), utf8_ascii (by decide), hbytes]
  rw [surrogateScan_backslash, surrogateScan.eq_def]
  simp only [hunit, h1, if_true]
  rw [if_neg (by decide)]
  split
  · rename_i s u e f g h after' heq
    rw [heq] at ht
    have hsu : s ≠ 0x5C ∨ u ≠ 0x75 := by
      by_contra hno
      rw [not_or, not_not, not_not] at hno
      obtain ⟨rfl, rfl⟩ := hno
      exact ht _ rfl
    rw [if_pos (by simpa using hsu)]
  · rfl

theorem utf16Decode_high {v : ℕ} {us : List ℕ} (h1 : isHighSurrogate u = true)
    (h2 : isLowSurrogate v = false) : utf16Decode (u :: v :: us) = none := by
  rw [utf16Decode.eq_def]
  simp [h1, h2]

theorem utf16Char_not_low (c : Char) : ∃ v vs, utf16Char c = v :: vs ∧ isLowSurrogate v = false := by
  have := toNat_not_surrogate c
  have := toNat_lt c
  unfold utf16Char
  split_ifs
  · exact ⟨_, _, rfl, by simp [isLowSurrogate]; omega⟩
  · exact ⟨_, _, rfl, by simp [isLowSurrogate]; omega⟩

theorem utf8_ne_escape {c : Char} (h1 : c ≠ '\\') (t : List Char) (bs : List UInt8) :
    utf8 (c :: t) ≠ 0x5C :: bs := by
  intro heq
  by_cases hq : c = '"'
  · subst hq
    rw [utf8_ascii (by decide)] at heq
    exact absurd (List.cons.inj heq).1 (by decide)
  · have hb := bytes_of_char hq h1
    rw [utf8_cons] at heq
    rcases he : String.utf8EncodeChar c with _ | ⟨b, rest⟩
    · exact absurd he String.utf8EncodeChar_ne_nil
    · rw [he] at heq hb
      exact (hb b List.mem_cons_self).2 (List.cons.inj heq).1

end Escapes

/-! ## Texts -/

section Texts

/-- What the scan says of code units `us` whose text leaves `r`. -/
def Scans (t : List Char) (us : List ℕ) (r : List Char) : Prop :=
  surrogateScan true false (utf8 t)
    = if (utf16Decode us).isSome then surrogateScan false false (utf8 r) else true

/-- An escape that is not a high surrogate is decided by itself. -/
theorem scans_unit {a b c d : Char} {u : ℕ} {t r : List Char} {us : List ℕ}
    (hx : hex4 a b c d = some u) (h1 : isHighSurrogate u = false) (h : Scans t us r) :
    Scans ('\\' :: 'u' :: a :: b :: c :: d :: t) (u :: us) r := by
  unfold Scans
  rw [surrogateScan_unit hx h1, h]
  cases h2 : isLowSurrogate u with
  | false =>
    rw [utf16Decode_unit h1 h2, Option.isSome_map]
    rfl
  | true =>
    have hnone : utf16Decode (u :: us) = none := by
      rw [utf16Decode.eq_def]
      simp [h1, h2]
    rw [hnone]
    rfl

theorem escape_ne_unicode {e : Char} {v : ℕ} (he : simpleEscape? e = some v) (t : List Char)
    (bs : List UInt8) : utf8 ('\\' :: e :: t) ≠ 0x5C :: 0x75 :: bs := by
  unfold simpleEscape? at he
  split at he
  case h_9 => cases he
  all_goals
    intro heq
    rw [utf8_ascii (by decide), utf8_ascii (by decide)] at heq
    exact absurd (List.cons.inj (List.cons.inj heq).2).1 (by decide)

/-- The scan of a string literal, from inside it, and after the escape of a high surrogate, which
what follows it decides. -/
theorem scans_body {t r : List Char} {us : List ℕ} (h : StringBody t us r) :
    Scans t us r ∧ ∀ {a b c d : Char} {u : ℕ}, hex4 a b c d = some u → isHighSurrogate u = true →
      Scans ('\\' :: 'u' :: a :: b :: c :: d :: t) (u :: us) r := by
  induction h with
  | close r =>
    refine ⟨surrogateScan_close r, fun hx h1 => ?_⟩
    unfold Scans
    rw [surrogateScan_lone hx h1 fun bs => utf8_ne_escape (by simp) r _, utf16Decode.eq_def]
    simp [h1]
  | @plain c t us r hc _ ih =>
    refine ⟨?_, fun hx h1 => ?_⟩ <;> unfold Scans
    · rw [surrogateScan_char hc.2.1 hc.2.2, ih.1, utf16Decode_char, Option.isSome_map]
    · obtain ⟨v, vs, hv, hlow⟩ := utf16Char_not_low c
      rw [surrogateScan_lone hx h1 fun bs => utf8_ne_escape hc.2.2 t _, hv, List.cons_append,
        utf16Decode_high h1 hlow]
      rfl
  | @escape e v t us r he _ ih =>
    have := simpleEscape?_lt he
    have hlow : isLowSurrogate v = false := by simp [isLowSurrogate]; omega
    refine ⟨?_, fun hx h1 => ?_⟩ <;> unfold Scans
    · rw [surrogateScan_escape he, ih.1,
        utf16Decode_unit (by simp [isHighSurrogate]; omega) hlow, Option.isSome_map]
    · rw [surrogateScan_lone hx h1 (escape_ne_unicode he t), utf16Decode_high h1 hlow]
      rfl
  | @unicode _ _ _ _ v t us r hv _ ih =>
    refine ⟨?_, fun hx h1 => ?_⟩
    · cases h1 : isHighSurrogate v with
      | false => exact scans_unit hv h1 ih.1
      | true => exact ih.2 hv h1
    · unfold Scans
      rw [surrogateScan_pair hx h1 hv]
      cases h2 : isLowSurrogate v with
      | true => rw [if_pos rfl, ih.1, utf16Decode_pair h1 h2, Option.isSome_map]
      | false =>
        rw [utf16Decode_high h1 h2]
        rfl

theorem surrogateScan_body {t r : List Char} {us : List ℕ} (h : StringBody t us r) :
    surrogateScan true false (utf8 t)
      = if (utf16Decode us).isSome then surrogateScan false false (utf8 r) else true :=
  (scans_body h).1

theorem text_chars (n : Number) : ∀ c ∈ n.text, c ≠ '"' ∧ c ≠ '\\' := by
  have hdigit : ∀ d : Digit, digitChar d ≠ '"' ∧ digitChar d ≠ '\\' := by decide
  intro c hc
  simp only [Number.text, List.mem_append] at hc
  rcases hc with hc | hc | hc | hc
  · split_ifs at hc
    · obtain rfl := List.mem_singleton.1 hc
      decide
    · cases hc
  · obtain ⟨d, -, rfl⟩ := List.mem_map.1 hc
    exact hdigit d
  · unfold fracText at hc
    split_ifs at hc
    · cases hc
    · rcases List.mem_cons.1 hc with rfl | hc
      · decide
      · obtain ⟨d, -, rfl⟩ := List.mem_map.1 hc
        exact hdigit d
  · rcases he : n.exp with _ | ⟨upper, sign, digits, hne⟩ <;> rw [he] at hc
    · cases hc
    · rcases List.mem_cons.1 hc with rfl | hc
      · rcases upper with _ | _ <;> simp
      · rcases List.mem_append.1 hc with hc | hc
        · rcases sign with _ | _ | _
          · cases hc
          · obtain rfl := List.mem_singleton.1 hc
            decide
          · obtain rfl := List.mem_singleton.1 hc
            decide
        · obtain ⟨d, -, rfl⟩ := List.mem_map.1 hc
          exact hdigit d

variable {t r : List Char}

/-- A string literal the decoder answers for, and whose scan finds nothing. -/
theorem stringOf_of_scan {s : List Char} (h : DecodedOf t s r)
    (hscan : surrogateScan true false (utf8 t) = false) :
    StringOf t s r ∧ surrogateScan false false (utf8 r) = false := by
  obtain ⟨us, hbody, rfl⟩ := h
  rw [surrogateScan_body hbody] at hscan
  split_ifs at hscan with hsome
  obtain ⟨s, hs⟩ := Option.isSome_iff_exists.1 hsome
  refine ⟨?_, hscan⟩
  rw [StringOf, utf16DecodeLossy_of_utf16Decode us hs, utf16_of_utf16Decode us hs hbody.lt]
  exact hbody

theorem scan_of_stringOf {s : List Char} (h : StringOf t s r) :
    surrogateScan true false (utf8 t) = surrogateScan false false (utf8 r) := by
  rw [surrogateScan_body h, utf16Decode_utf16]
  rfl

theorem decodedOf_of_stringOf {s : List Char} (h : StringOf t s r) : DecodedOf t s r :=
  ⟨_, h, (utf16DecodeLossy_utf16 s).symm⟩

theorem reads_of_scan {g : JsonText.Symbol (List Char) Number}
    (h : Reads DecodedOf LiteralOf g t r) (hscan : surrogateScan false false (utf8 t) = false) :
    Reads StringOf LiteralOf g t r ∧ surrogateScan false false (utf8 r) = false := by
  induction h with
  | null r =>
    exact ⟨.null r, (surrogateScan_text (s := ['n', 'u', 'l', 'l']) (by simp) r).symm.trans hscan⟩
  | true r =>
    exact ⟨.true r, (surrogateScan_text (s := ['t', 'r', 'u', 'e']) (by simp) r).symm.trans hscan⟩
  | false r =>
    exact ⟨.false r,
      (surrogateScan_text (s := ['f', 'a', 'l', 's', 'e']) (by simp) r).symm.trans hscan⟩
  | @num n t r hn =>
    obtain rfl : t = n.text ++ r := hn
    exact ⟨.num rfl, (surrogateScan_text (text_chars n) r).symm.trans hscan⟩
  | str hs =>
    rw [surrogateScan_open] at hscan
    obtain ⟨hs, hr⟩ := stringOf_of_scan hs hscan
    exact ⟨.str hs, hr⟩
  | emptyArr hws =>
    rw [surrogateScan_char (by decide) (by decide), surrogateScan_ws hws,
      surrogateScan_char (by decide) (by decide)] at hscan
    exact ⟨.emptyArr hws, hscan⟩
  | arr _ ih =>
    rw [surrogateScan_char (by decide) (by decide)] at hscan
    obtain ⟨hxs, hr⟩ := ih hscan
    rw [surrogateScan_char (by decide) (by decide)] at hr
    exact ⟨.arr hxs, hr⟩
  | emptyObj hws =>
    rw [surrogateScan_char (by decide) (by decide), surrogateScan_ws hws,
      surrogateScan_char (by decide) (by decide)] at hscan
    exact ⟨.emptyObj hws, hscan⟩
  | obj _ ih =>
    rw [surrogateScan_char (by decide) (by decide)] at hscan
    obtain ⟨hms, hr⟩ := ih hscan
    rw [surrogateScan_char (by decide) (by decide)] at hr
    exact ⟨.obj hms, hr⟩
  | lastElement hws _ hend ih =>
    rw [surrogateScan_ws hws] at hscan
    obtain ⟨hx, hr⟩ := ih hscan
    rw [surrogateScan_ws hend] at hr
    exact ⟨.lastElement hws hx hend, hr⟩
  | element hws _ hcomma _ ih ihxs =>
    rw [surrogateScan_ws hws] at hscan
    obtain ⟨hx, hr⟩ := ih hscan
    rw [surrogateScan_ws hcomma, surrogateScan_char (by decide) (by decide)] at hr
    obtain ⟨hxs, hr⟩ := ihxs hr
    exact ⟨.element hws hx hcomma hxs, hr⟩
  | lastMember hws hk hcolon hws' _ hend ih =>
    rw [surrogateScan_ws hws, surrogateScan_open] at hscan
    obtain ⟨hk, hr⟩ := stringOf_of_scan hk hscan
    rw [surrogateScan_ws hcolon, surrogateScan_char (by decide) (by decide),
      surrogateScan_ws hws'] at hr
    obtain ⟨hx, hr⟩ := ih hr
    rw [surrogateScan_ws hend] at hr
    exact ⟨.lastMember hws hk hcolon hws' hx hend, hr⟩
  | member hws hk hcolon hws' _ hcomma _ ih ihms =>
    rw [surrogateScan_ws hws, surrogateScan_open] at hscan
    obtain ⟨hk, hr⟩ := stringOf_of_scan hk hscan
    rw [surrogateScan_ws hcolon, surrogateScan_char (by decide) (by decide),
      surrogateScan_ws hws'] at hr
    obtain ⟨hx, hr⟩ := ih hr
    rw [surrogateScan_ws hcomma, surrogateScan_char (by decide) (by decide)] at hr
    obtain ⟨hms, hr⟩ := ihms hr
    exact ⟨.member hws hk hcolon hws' hx hcomma hms, hr⟩

theorem scan_of_reads {g : JsonText.Symbol (List Char) Number} (h : Reads StringOf LiteralOf g t r) :
    Reads DecodedOf LiteralOf g t r ∧
      surrogateScan false false (utf8 t) = surrogateScan false false (utf8 r) := by
  induction h with
  | null r => exact ⟨.null r, surrogateScan_text (s := ['n', 'u', 'l', 'l']) (by simp) r⟩
  | true r => exact ⟨.true r, surrogateScan_text (s := ['t', 'r', 'u', 'e']) (by simp) r⟩
  | false r => exact ⟨.false r, surrogateScan_text (s := ['f', 'a', 'l', 's', 'e']) (by simp) r⟩
  | @num n t r hn =>
    obtain rfl : t = n.text ++ r := hn
    exact ⟨.num rfl, surrogateScan_text (text_chars n) r⟩
  | str hs => exact ⟨.str (decodedOf_of_stringOf hs), by rw [surrogateScan_open, scan_of_stringOf hs]⟩
  | emptyArr hws =>
    exact ⟨.emptyArr hws, by
      rw [surrogateScan_char (by decide) (by decide), surrogateScan_ws hws,
        surrogateScan_char (by decide) (by decide)]⟩
  | arr _ ih =>
    exact ⟨.arr ih.1, by
      rw [surrogateScan_char (by decide) (by decide), ih.2,
        surrogateScan_char (by decide) (by decide)]⟩
  | emptyObj hws =>
    exact ⟨.emptyObj hws, by
      rw [surrogateScan_char (by decide) (by decide), surrogateScan_ws hws,
        surrogateScan_char (by decide) (by decide)]⟩
  | obj _ ih =>
    exact ⟨.obj ih.1, by
      rw [surrogateScan_char (by decide) (by decide), ih.2,
        surrogateScan_char (by decide) (by decide)]⟩
  | lastElement hws _ hend ih =>
    exact ⟨.lastElement hws ih.1 hend, by
      rw [surrogateScan_ws hws, ih.2, surrogateScan_ws hend]⟩
  | element hws _ hcomma _ ih ihxs =>
    exact ⟨.element hws ih.1 hcomma ihxs.1, by
      rw [surrogateScan_ws hws, ih.2, surrogateScan_ws hcomma,
        surrogateScan_char (by decide) (by decide), ihxs.2]⟩
  | lastMember hws hk hcolon hws' _ hend ih =>
    exact ⟨.lastMember hws (decodedOf_of_stringOf hk) hcolon hws' ih.1 hend, by
      rw [surrogateScan_ws hws, surrogateScan_open, scan_of_stringOf hk, surrogateScan_ws hcolon,
        surrogateScan_char (by decide) (by decide), surrogateScan_ws hws', ih.2,
        surrogateScan_ws hend]⟩
  | member hws hk hcolon hws' _ hcomma _ ih ihms =>
    exact ⟨.member hws (decodedOf_of_stringOf hk) hcolon hws' ih.1 hcomma ihms.1, by
      rw [surrogateScan_ws hws, surrogateScan_open, scan_of_stringOf hk, surrogateScan_ws hcolon,
        surrogateScan_char (by decide) (by decide), surrogateScan_ws hws', ih.2,
        surrogateScan_ws hcomma, surrogateScan_char (by decide) (by decide), ihms.2]⟩

/-- On a text of the grammar the scan answers whether some string literal has a lone surrogate. -/
theorem hasLoneSurrogateEscape_eq_false {v : Value} (h : Text DecodedOf LiteralOf v t) :
    hasLoneSurrogateEscape (utf8 t) = false ↔ Text StringOf LiteralOf v t := by
  constructor
  · intro hscan
    obtain ⟨t₁, t₂, hws, hreads, hend⟩ := h
    rw [hasLoneSurrogateEscape, surrogateScan_ws hws] at hscan
    exact ⟨t₁, t₂, hws, (reads_of_scan hreads hscan).1, hend⟩
  · rintro ⟨t₁, t₂, hws, hreads, hend⟩
    rw [hasLoneSurrogateEscape, surrogateScan_ws hws, (scan_of_reads hreads).2,
      surrogateScan_ws hend]
    rfl

theorem decodedOf_of_text {v : Value} (h : Text StringOf LiteralOf v t) :
    Text DecodedOf LiteralOf v t := by
  obtain ⟨t₁, t₂, hws, hreads, hend⟩ := h
  exact ⟨t₁, t₂, hws, (scan_of_reads hreads).1, hend⟩

end Texts

end Canonical
