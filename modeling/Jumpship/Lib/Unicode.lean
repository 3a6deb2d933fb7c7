import Mathlib

/-!
# Texts, UTF-8 bytes and UTF-16 code units

A text is a list of Unicode scalar values (`Char`). `utf8` and `utf16` are its two encodings;
each is injective, and the decoders accept exactly the encodings.

`firstRune` and `runes` read a byte string one code point at a time, an ill-formed byte standing
for U+FFFD.
-/

namespace Unicode

/-! ## UTF-8 -/

/-- The UTF-8 bytes of a text. -/
def utf8 (s : List Char) : List UInt8 := s.flatMap String.utf8EncodeChar

@[simp] theorem utf8_nil : utf8 [] = [] := rfl

@[simp] theorem utf8_cons (c : Char) (s : List Char) :
    utf8 (c :: s) = String.utf8EncodeChar c ++ utf8 s := rfl

@[simp] theorem utf8_append (s t : List Char) : utf8 (s ++ t) = utf8 s ++ utf8 t :=
  List.flatMap_append

/-- The text a byte string encodes, when it is well-formed UTF-8. -/
def utf8Decode (bs : List UInt8) : Option (List Char) :=
  bs.toByteArray.utf8Decode?.map Array.toList

theorem toByteArray_utf8 (s : List Char) : (utf8 s).toByteArray = s.utf8Encode := rfl

@[simp] theorem utf8Decode_utf8 (s : List Char) : utf8Decode (utf8 s) = some s := by
  simp [utf8Decode, toByteArray_utf8]

theorem utf8_of_utf8Decode {bs : List UInt8} {s : List Char} (h : utf8Decode bs = some s) :
    utf8 s = bs := by
  obtain ⟨a, ha, rfl⟩ := Option.map_eq_some_iff.1 h
  have hs : bs.toByteArray.utf8Decode?.isSome := by rw [ha]; rfl
  have hg := ByteArray.utf8Encode_get_utf8Decode? (h := hs)
  simp only [ha, Option.get_some] at hg
  rw [← toByteArray_utf8] at hg
  have := congrArg (fun b => b.data.toList) hg
  simpa using this

theorem utf8Decode_eq_some {bs : List UInt8} {s : List Char} :
    utf8Decode bs = some s ↔ utf8 s = bs :=
  ⟨utf8_of_utf8Decode, fun h => h ▸ utf8Decode_utf8 s⟩

theorem utf8_injective : Function.Injective utf8 := by
  intro s t h
  have := utf8Decode_utf8 s
  rw [h, utf8Decode_utf8] at this
  exact (Option.some.inj this).symm

theorem length_utf8 (s : List Char) : s.length ≤ (utf8 s).length := by
  induction s with
  | nil => simp
  | cons c s ih =>
    have := c.utf8Size_pos
    simp only [utf8_cons, List.length_cons, List.length_append, String.length_utf8EncodeChar]
    omega

/-- An ASCII character is one byte, its code. -/
theorem utf8EncodeChar_ascii {c : Char} (h : c.toNat < 128) :
    String.utf8EncodeChar c = [UInt8.ofNat c.toNat] := by
  have hc : c.val.toNat ≤ 0x7f := by
    change c.toNat ≤ 0x7f
    omega
  simp only [String.utf8EncodeChar, hc, ↓reduceIte]
  rfl

/-- The bytes of any other character are all past ASCII. -/
theorem utf8EncodeChar_high {c : Char} (h : 128 ≤ c.toNat) :
    ∀ b ∈ String.utf8EncodeChar c, 128 ≤ b.toNat := by
  have hc : ¬ c.val.toNat ≤ 0x7f := by
    change ¬ c.toNat ≤ 0x7f
    omega
  intro b hb
  simp only [String.utf8EncodeChar, hc, ↓reduceIte] at hb
  split_ifs at hb <;>
    simp only [List.mem_cons, List.not_mem_nil, or_false] at hb <;>
    rcases hb with rfl | rfl | rfl | rfl <;>
    simp only [UInt8.toNat_ofNat'] <;>
    omega

/-- The first code point of a byte string, when the bytes it starts with encode one. -/
def firstRune (bs : List UInt8) : Option Char := bs.toByteArray.utf8DecodeChar? 0

theorem firstRune_append (c : Char) (bs : List UInt8) :
    firstRune (String.utf8EncodeChar c ++ bs) = some c := by
  have := ByteArray.utf8DecodeChar?_utf8EncodeChar_append (b := bs.toByteArray) (c := c)
  rwa [← List.toByteArray_append] at this

/-- The code points of a byte string after the bytes to skip, U+FFFD for each byte that starts
none. -/
def runesFrom : ℕ → List UInt8 → List Char
  | _, [] => []
  | skip + 1, _ :: bs => runesFrom skip bs
  | 0, b :: bs =>
    match firstRune (b :: bs) with
    | some c => c :: runesFrom (c.utf8Size - 1) bs
    | none => '\uFFFD' :: runesFrom 0 bs

def runes (bs : List UInt8) : List Char := runesFrom 0 bs

@[simp] theorem runes_nil : runes [] = [] := rfl

theorem runesFrom_length (bs bs' : List UInt8) : runesFrom bs.length (bs ++ bs') = runes bs' := by
  induction bs with
  | nil => rfl
  | cons b bs ih => exact ih

theorem runes_utf8EncodeChar (c : Char) (bs : List UInt8) :
    runes (String.utf8EncodeChar c ++ bs) = c :: runes bs := by
  have hl := String.length_utf8EncodeChar c
  have hf := firstRune_append c bs
  rcases he : String.utf8EncodeChar c with _ | ⟨b, t⟩
  · exact absurd he String.utf8EncodeChar_ne_nil
  · rw [he] at hl hf
    rw [List.cons_append] at hf ⊢
    simp only [List.length_cons] at hl
    rw [runes, runesFrom, hf]
    dsimp only
    rw [show c.utf8Size - 1 = t.length by omega, runesFrom_length]

/-- Reading back the bytes of a text gives the text. -/
@[simp] theorem runes_utf8 (s : List Char) : runes (utf8 s) = s := by
  induction s with
  | nil => simp
  | cons c s ih => rw [utf8_cons, runes_utf8EncodeChar, ih]

theorem eq_append_of_firstRune {bs : List UInt8} {c : Char} (h : firstRune bs = some c) :
    ∃ rest, bs = String.utf8EncodeChar c ++ rest := by
  obtain ⟨l, hl⟩ := ByteArray.exists_of_utf8DecodeChar?_eq_some h
  refine ⟨l.data.toList, ?_⟩
  have := congrArg (fun b => b.data.toList) hl
  simpa [List.utf8Encode] using this

/-- A byte string that reads without U+FFFD is the encoding of its code points. -/
theorem utf8_runes : ∀ {bs : List UInt8}, '\uFFFD' ∉ runes bs → utf8 (runes bs) = bs := by
  intro bs
  induction h : bs.length using Nat.strong_induction_on generalizing bs with
  | _ n ih =>
    intro hmem
    rcases bs with _ | ⟨b, bs⟩
    · rfl
    rcases hf : firstRune (b :: bs) with _ | c
    · rw [runes, runesFrom, hf] at hmem
      simp at hmem
    · obtain ⟨rest, hrest⟩ := eq_append_of_firstRune hf
      have hlen := congrArg List.length hrest
      have := c.utf8Size_pos
      rw [List.length_append, String.length_utf8EncodeChar] at hlen
      rw [hrest, runes_utf8EncodeChar, List.mem_cons, not_or] at hmem
      rw [hrest, runes_utf8EncodeChar, utf8_cons, ih rest.length (by omega) rfl hmem.2]

/-! ## UTF-16 -/

/-- The UTF-16 code units of a character: one, or a surrogate pair. -/
def utf16Char (c : Char) : List ℕ :=
  if c.toNat < 0x10000 then [c.toNat]
  else [0xD800 + (c.toNat - 0x10000) / 0x400, 0xDC00 + (c.toNat - 0x10000) % 0x400]

/-- The UTF-16 code units of a text. -/
def utf16 (s : List Char) : List ℕ := s.flatMap utf16Char

@[simp] theorem utf16_nil : utf16 [] = [] := rfl

@[simp] theorem utf16_cons (c : Char) (s : List Char) :
    utf16 (c :: s) = utf16Char c ++ utf16 s := rfl

@[simp] theorem utf16_append (s t : List Char) : utf16 (s ++ t) = utf16 s ++ utf16 t :=
  List.flatMap_append

def isHighSurrogate (u : ℕ) : Bool := 0xD800 ≤ u && u ≤ 0xDBFF

def isLowSurrogate (u : ℕ) : Bool := 0xDC00 ≤ u && u ≤ 0xDFFF

/-- The text a sequence of code units encodes, when every surrogate is paired. -/
def utf16Decode : List ℕ → Option (List Char)
  | [] => some []
  | u :: us =>
    if isHighSurrogate u then
      match us with
      | v :: vs =>
        if isLowSurrogate v then
          (utf16Decode vs).map (Char.ofNat (0x10000 + (u - 0xD800) * 0x400 + (v - 0xDC00)) :: ·)
        else none
      | [] => none
    else if isLowSurrogate u then none
    else (utf16Decode us).map (Char.ofNat u :: ·)

/-- The text a sequence of code units encodes, U+FFFD for each surrogate without a partner. -/
def utf16DecodeLossy : List ℕ → List Char
  | [] => []
  | u :: us =>
    if isHighSurrogate u then
      match us with
      | v :: vs =>
        if isLowSurrogate v then
          Char.ofNat (0x10000 + (u - 0xD800) * 0x400 + (v - 0xDC00)) :: utf16DecodeLossy vs
        else '\uFFFD' :: utf16DecodeLossy (v :: vs)
      | [] => ['\uFFFD']
    else if isLowSurrogate u then '\uFFFD' :: utf16DecodeLossy us
    else Char.ofNat u :: utf16DecodeLossy us

theorem utf16DecodeLossy_of_utf16Decode : ∀ (us : List ℕ) {s : List Char},
    utf16Decode us = some s → utf16DecodeLossy us = s
  | [], s, h => by simpa [utf16Decode, utf16DecodeLossy] using h
  | u :: us, s, h => by
    unfold utf16Decode at h
    unfold utf16DecodeLossy
    split_ifs at h ⊢ with h1 h2
    · rcases us with _ | ⟨v, vs⟩
      · simp at h
      · simp only at h ⊢
        split_ifs at h ⊢
        obtain ⟨t, ht, rfl⟩ := Option.map_eq_some_iff.1 h
        rw [utf16DecodeLossy_of_utf16Decode vs ht]
    · obtain ⟨t, ht, rfl⟩ := Option.map_eq_some_iff.1 h
      rw [utf16DecodeLossy_of_utf16Decode us ht]

theorem toNat_ofNat {n : ℕ} (h : n.isValidChar) : (Char.ofNat n).toNat = n := by
  simp only [Char.ofNat, h, ↓reduceDIte, Char.toNat, Char.ofNatAux]
  simp only [UInt32.toNat, BitVec.toNat_ofNatLT]

theorem toNat_not_surrogate (c : Char) : c.toNat < 0xD800 ∨ 0xDFFF < c.toNat := by
  have := c.valid
  simp only [UInt32.isValidChar, Nat.isValidChar] at this
  change _ ∨ _ ∧ _ at this
  change c.val.toNat < _ ∨ _ < c.val.toNat
  omega

theorem toNat_lt (c : Char) : c.toNat < 0x110000 := by
  have := c.valid
  simp only [UInt32.isValidChar, Nat.isValidChar] at this
  change c.val.toNat < _
  omega

theorem utf16Decode_unit {u : ℕ} (h1 : isHighSurrogate u = false)
    (h2 : isLowSurrogate u = false) (us : List ℕ) :
    utf16Decode (u :: us) = (utf16Decode us).map (Char.ofNat u :: ·) := by
  rw [utf16Decode.eq_def]
  simp [h1, h2]

theorem utf16Decode_pair {u v : ℕ} (h1 : isHighSurrogate u = true)
    (h2 : isLowSurrogate v = true) (us : List ℕ) :
    utf16Decode (u :: v :: us) = (utf16Decode us).map
      (Char.ofNat (0x10000 + (u - 0xD800) * 0x400 + (v - 0xDC00)) :: ·) := by
  rw [utf16Decode.eq_def]
  simp [h1, h2]

theorem utf16Decode_char (c : Char) (us : List ℕ) :
    utf16Decode (utf16Char c ++ us) = (utf16Decode us).map (c :: ·) := by
  have hs := toNat_not_surrogate c
  have hl := toNat_lt c
  unfold utf16Char
  split_ifs with h
  · have h1 : isHighSurrogate c.toNat = false := by simp [isHighSurrogate]; omega
    have h2 : isLowSurrogate c.toNat = false := by simp [isLowSurrogate]; omega
    rw [List.singleton_append, utf16Decode_unit h1 h2, Char.ofNat_toNat]
  · set n := c.toNat - 0x10000 with hn
    have h1 : isHighSurrogate (0xD800 + n / 0x400) = true := by simp [isHighSurrogate]; omega
    have h2 : isLowSurrogate (0xDC00 + n % 0x400) = true := by simp [isLowSurrogate]; omega
    have h3 : 0x10000 + (0xD800 + n / 0x400 - 0xD800) * 0x400 + (0xDC00 + n % 0x400 - 0xDC00)
        = c.toNat := by omega
    rw [List.cons_append, List.singleton_append, utf16Decode_pair h1 h2, h3, Char.ofNat_toNat]

@[simp] theorem utf16Decode_utf16 (s : List Char) : utf16Decode (utf16 s) = some s := by
  induction s with
  | nil => rfl
  | cons c s ih => rw [utf16_cons, utf16Decode_char, ih]; rfl

@[simp] theorem utf16DecodeLossy_utf16 (s : List Char) : utf16DecodeLossy (utf16 s) = s :=
  utf16DecodeLossy_of_utf16Decode _ (utf16Decode_utf16 s)

theorem utf16_injective : Function.Injective utf16 := by
  intro s t h
  have := utf16Decode_utf16 s
  rw [h, utf16Decode_utf16] at this
  exact (Option.some.inj this).symm

theorem utf16_of_utf16Decode : ∀ (us : List ℕ) {s : List Char}, utf16Decode us = some s →
    (∀ u ∈ us, u < 0x10000) → utf16 s = us
  | [], s, h, _ => by simp [utf16Decode] at h; simp [h]
  | u :: us, s, h, hu => by
    have hu0 := hu u List.mem_cons_self
    unfold utf16Decode at h
    split_ifs at h with h1 h2
    · rcases us with _ | ⟨v, vs⟩
      · simp at h
      · simp only at h
        split_ifs at h with h3
        obtain ⟨t, ht, rfl⟩ := Option.map_eq_some_iff.1 h
        have ih := utf16_of_utf16Decode vs ht fun w hw =>
          hu w (List.mem_cons_of_mem _ (List.mem_cons_of_mem _ hw))
        simp only [isHighSurrogate, isLowSurrogate, Bool.and_eq_true, decide_eq_true_eq] at h1 h3
        set n := 0x10000 + (u - 0xD800) * 0x400 + (v - 0xDC00) with hn
        have hv : n.isValidChar := by right; omega
        rw [utf16_cons, ih, utf16Char, toNat_ofNat hv, if_neg (by omega)]
        simp only [List.cons_append, List.nil_append, List.cons.injEq, and_true]
        omega
    · obtain ⟨t, ht, rfl⟩ := Option.map_eq_some_iff.1 h
      have ih := utf16_of_utf16Decode us ht fun w hw => hu w (List.mem_cons_of_mem _ hw)
      simp only [isHighSurrogate, isLowSurrogate, Bool.and_eq_true, decide_eq_true_eq] at h1 h2
      have hv : u.isValidChar := by
        simp only [Nat.isValidChar]
        omega
      rw [utf16_cons, ih, utf16Char, toNat_ofNat hv, if_pos (by omega)]
      rfl

/-- An ASCII unit in the encoding of a text is a character of the text. -/
theorem utf16_eq_cons {s : List Char} {u : ℕ} {us : List ℕ} (h : utf16 s = u :: us)
    (hu : u < 0xD800) : ∃ s', s = Char.ofNat u :: s' ∧ utf16 s' = us := by
  rcases s with _ | ⟨c, s⟩
  · simp at h
  · rw [utf16_cons, utf16Char] at h
    split_ifs at h with hc
    · simp only [List.cons_append, List.nil_append, List.cons.injEq] at h
      exact ⟨s, by rw [← h.1, Char.ofNat_toNat], h.2⟩
    · simp only [List.cons_append, List.nil_append, List.cons.injEq] at h
      omega

/-! ## ASCII -/

section Ascii

theorem utf8_map_ofNat {s : List Char} (h : ∀ c ∈ s, c.toNat < 128) :
    utf8 s = s.map fun c => UInt8.ofNat c.toNat := by
  induction s with
  | nil => rfl
  | cons c s ih =>
    obtain ⟨hc, hs⟩ := List.forall_mem_cons.1 h
    rw [utf8_cons, utf8EncodeChar_ascii hc, ih hs]
    rfl

theorem utf16_map_toNat {s : List Char} (h : ∀ c ∈ s, c.toNat < 128) :
    utf16 s = s.map Char.toNat := by
  induction s with
  | nil => rfl
  | cons c s ih =>
    obtain ⟨hc, hs⟩ := List.forall_mem_cons.1 h
    rw [utf16_cons, utf16Char, if_pos (by omega), ih hs]
    rfl

/-- A text whose code units are ASCII is ASCII. -/
theorem ascii_of_utf16 {s : List Char} (h : ∀ u ∈ utf16 s, u < 128) : ∀ c ∈ s, c.toNat < 128 := by
  intro c hc
  by_contra hlt
  have hmem : ∀ u ∈ utf16Char c, u < 128 := fun u hu => h u (List.mem_flatMap.2 ⟨c, hc, hu⟩)
  unfold utf16Char at hmem
  split_ifs at hmem
  · exact hlt (hmem _ (by simp))
  · have := hmem (0xD800 + (c.toNat - 0x10000) / 0x400) (by simp)
    omega

end Ascii

theorem utf16_lt (s : List Char) : ∀ u ∈ utf16 s, u < 0x10000 := by
  intro u hu
  obtain ⟨c, -, hc⟩ := List.mem_flatMap.1 hu
  have := toNat_lt c
  unfold utf16Char at hc
  split_ifs at hc <;> simp only [List.mem_cons, List.not_mem_nil, or_false] at hc <;> omega

end Unicode
