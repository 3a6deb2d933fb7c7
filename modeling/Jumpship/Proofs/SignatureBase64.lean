import Jumpship.Canonical.Signature
import Jumpship.Client.Signature
import Jumpship.Proofs.TypedDigest

/-!
# The encoding of detached signatures

Both verifiers accept exactly the texts that encode bytes, and answer these.
-/

namespace Canonical

open Base64 Pattern Unicode

/-! ## Bytes and groups of six bits -/

section Bits

variable {w x y z : ℕ}

theorem toNat_byte₁ (hw : w < 64) (hx : x < 64) : (byte₁ w x).toNat = w * 4 + x / 16 := by
  rw [byte₁, UInt8.toNat_ofNat', Nat.mod_eq_of_lt (by omega)]

theorem toNat_byte₂ (hy : y < 64) : (byte₂ x y).toNat = x % 16 * 16 + y / 4 := by
  rw [byte₂, UInt8.toNat_ofNat', Nat.mod_eq_of_lt (by omega)]

theorem toNat_byte₃ (hz : z < 64) : (byte₃ y z).toNat = y % 4 * 64 + z := by
  rw [byte₃, UInt8.toNat_ofNat', Nat.mod_eq_of_lt (by omega)]

theorem byte₁_eq (a : UInt8) (h : x / 16 = a.toNat % 4) : byte₁ (a.toNat / 4) x = a := by
  rw [byte₁, h, ← UInt8.toNat_inj, UInt8.toNat_ofNat']
  have := a.toNat_lt
  omega

theorem byte₂_eq (b : UInt8) (hx : x % 16 = b.toNat / 16) (hy : y / 4 = b.toNat % 16) :
    byte₂ x y = b := by
  rw [byte₂, hx, hy, ← UInt8.toNat_inj, UInt8.toNat_ofNat']
  have := b.toNat_lt
  omega

theorem byte₃_eq (c : UInt8) (hy : y % 4 = c.toNat / 64) (hz : z = c.toNat % 64) :
    byte₃ y z = c := by
  rw [byte₃, hy, hz, ← UInt8.toNat_inj, UInt8.toNat_ofNat']
  have := c.toNat_lt
  omega

end Bits

/-! ## The strict decoder -/

section Strict

theorem decodeGroups_encode (bytes : List UInt8) : Go.decodeGroups (encode bytes) = some bytes := by
  fun_induction encode bytes with
  | case1 => rfl
  | case2 a =>
    have := a.toNat_lt
    rw [Go.decodeGroups, digit?_digit (by omega), digit?_digit (by omega)]
    simp only [Option.bind_eq_bind, Option.bind_some, if_true, decide_true, Bool.true_and]
    rw [if_pos (by rw [decide_eq_true_eq]; omega), byte₁_eq a (by omega)]
  | case3 a b =>
    have := a.toNat_lt
    have := b.toNat_lt
    rw [Go.decodeGroups, digit?_digit (by omega), digit?_digit (by omega), digit?_digit (by omega)]
    simp only [Option.bind_eq_bind, Option.bind_some, if_true, decide_true, Bool.true_and]
    rw [if_neg (digit_ne_pad (by omega)), if_pos (by rw [decide_eq_true_eq]; omega),
      byte₁_eq a (by omega), byte₂_eq b (by omega) (by omega)]
  | case4 a b c bytes ih =>
    have := a.toNat_lt
    have := b.toNat_lt
    have := c.toNat_lt
    rw [Go.decodeGroups, digit?_digit (by omega), digit?_digit (by omega), digit?_digit (by omega),
      digit?_digit (by omega), ih]
    simp only [Option.bind_eq_bind, Option.bind_some]
    rw [if_neg (digit_ne_pad (by omega)), if_neg (digit_ne_pad (by omega)), byte₁_eq a (by omega),
      byte₂_eq b (by omega) (by omega), byte₃_eq c (by omega) (by omega)]

/-- What the strict decoder accepts is the encoding of what it answers. -/
theorem encode_of_decodeGroups : ∀ {codes : List ℕ} {bytes : List UInt8},
    Go.decodeGroups codes = some bytes → codes = encode bytes
  | [], _, h => by
    obtain rfl := Option.some.inj h
    rfl
  | [_], _, h => by cases h
  | [_, _], _, h => by cases h
  | [_, _, _], _, h => by cases h
  | a :: b :: c :: d :: rest, bytes, h => by
    rw [Go.decodeGroups] at h
    obtain ⟨w, hdigitw, h⟩ := Option.bind_eq_some_iff.1 h
    obtain ⟨x, hdigitx, h⟩ := Option.bind_eq_some_iff.1 h
    obtain ⟨hw, hcode₁⟩ := digit?_eq_some.1 hdigitw
    obtain ⟨hx, hcode₂⟩ := digit?_eq_some.1 hdigitx
    have h₁ := toNat_byte₁ hw hx
    by_cases hc : c = pad
    · rw [if_pos hc] at h
      split_ifs at h with hd
      simp only [Bool.and_eq_true, decide_eq_true_eq] at hd
      obtain rfl := Option.some.inj h
      rw [hcode₁, hcode₂, hc, hd.1.1, hd.1.2, encode, h₁, show (w * 4 + x / 16) / 4 = w by omega,
        show (w * 4 + x / 16) % 4 * 16 = x by omega]
    rw [if_neg hc] at h
    obtain ⟨y, hdigity, h⟩ := Option.bind_eq_some_iff.1 h
    obtain ⟨hy, hcode₃⟩ := digit?_eq_some.1 hdigity
    have h₂ := @toNat_byte₂ x y hy
    by_cases hd : d = pad
    · rw [if_pos hd] at h
      split_ifs at h with hrest
      simp only [Bool.and_eq_true, decide_eq_true_eq] at hrest
      obtain rfl := Option.some.inj h
      rw [hcode₁, hcode₂, hcode₃, hd, hrest.1, encode, h₁, h₂, show (w * 4 + x / 16) / 4 = w by omega,
        show (w * 4 + x / 16) % 4 * 16 + (x % 16 * 16 + y / 4) / 16 = x by omega,
        show (x % 16 * 16 + y / 4) % 16 * 4 = y by omega]
    rw [if_neg hd] at h
    obtain ⟨z, hdigitz, h⟩ := Option.bind_eq_some_iff.1 h
    obtain ⟨bytes', hbytes, h⟩ := Option.bind_eq_some_iff.1 h
    obtain ⟨hz, hcode₄⟩ := digit?_eq_some.1 hdigitz
    obtain rfl := Option.some.inj h
    rw [hcode₁, hcode₂, hcode₃, hcode₄, encode_of_decodeGroups hbytes, encode, h₁, h₂, @toNat_byte₃ y z hz,
      show (w * 4 + x / 16) / 4 = w by omega,
      show (w * 4 + x / 16) % 4 * 16 + (x % 16 * 16 + y / 4) / 16 = x by omega,
      show (x % 16 * 16 + y / 4) % 16 * 4 + (y % 4 * 64 + z) / 64 = y by omega,
      show (y % 4 * 64 + z) % 64 = z by omega]

end Strict

/-! ## The pattern -/

section Shape

theorem mem_canonicalBase64Pattern_cons {a b c d : ℕ} {rest : List ℕ}
    (h : ∀ u ∈ [a, b, c, d], u ∈ alphabet) (hrest : rest ∈ canonicalBase64Pattern.matches') :
    a :: b :: c :: d :: rest ∈ canonicalBase64Pattern.matches' := by
  obtain ⟨u, hu, v, hv, rfl⟩ := mem_matches_mul.1 hrest
  rw [RegularExpression.matches'_star, Language.mem_kstar] at hu
  obtain ⟨ws, rfl, hws⟩ := hu
  refine mem_matches_mul.2 ⟨a :: b :: c :: d :: ws.flatten, ?_, v, hv, rfl⟩
  rw [RegularExpression.matches'_star, Language.mem_kstar]
  exact ⟨[a, b, c, d] :: ws, rfl, List.forall_mem_cons.2 ⟨mem_pow_oneOf.2 ⟨rfl, h⟩, hws⟩⟩

theorem mem_canonicalBase64Pattern_last {w : List ℕ}
    (h : w ∈ (1 + (oneOf alphabet ^ 2 * word [pad, pad] +
      oneOf alphabet ^ 3 * RegularExpression.char pad)).matches') : w ∈ canonicalBase64Pattern.matches' := by
  refine mem_matches_mul.2 ⟨[], ?_, w, h, rfl⟩
  rw [RegularExpression.matches'_star]
  exact Language.nil_mem_kstar _

theorem encode_mem_pattern (bytes : List UInt8) :
    encode bytes ∈ canonicalBase64Pattern.matches' := by
  fun_induction encode bytes with
  | case1 => exact mem_canonicalBase64Pattern_last (mem_matches_add.2 (.inl (mem_matches_one.2 rfl)))
  | case2 a =>
    have := a.toNat_lt
    refine mem_canonicalBase64Pattern_last (mem_matches_add.2 (.inr (mem_matches_add.2 (.inl ?_))))
    refine mem_matches_mul.2 ⟨[_, _], mem_pow_oneOf.2 ⟨rfl, ?_⟩, [pad, pad], mem_word.2 rfl, rfl⟩
    exact List.forall_mem_cons.2 ⟨digit_mem_alphabet (by omega),
      List.forall_mem_singleton.2 (digit_mem_alphabet (by omega))⟩
  | case3 a b =>
    have := a.toNat_lt
    have := b.toNat_lt
    refine mem_canonicalBase64Pattern_last (mem_matches_add.2 (.inr (mem_matches_add.2 (.inr ?_))))
    refine mem_matches_mul.2 ⟨[_, _, _], mem_pow_oneOf.2 ⟨rfl, ?_⟩, [pad], mem_matches_char.2 rfl, rfl⟩
    exact List.forall_mem_cons.2 ⟨digit_mem_alphabet (by omega), List.forall_mem_cons.2
      ⟨digit_mem_alphabet (by omega), List.forall_mem_singleton.2 (digit_mem_alphabet (by omega))⟩⟩
  | case4 a b c bytes ih =>
    have := a.toNat_lt
    have := b.toNat_lt
    have := c.toNat_lt
    refine mem_canonicalBase64Pattern_cons ?_ ih
    exact List.forall_mem_cons.2 ⟨digit_mem_alphabet (by omega), List.forall_mem_cons.2
      ⟨digit_mem_alphabet (by omega), List.forall_mem_cons.2 ⟨digit_mem_alphabet (by omega),
        List.forall_mem_singleton.2 (digit_mem_alphabet (by omega))⟩⟩⟩

/-- The characters of an encoding. -/
def IsBase64 (u : ℕ) : Prop := u ∈ alphabet ∨ u = pad

theorem isBase64_of_mem_pattern {w : List ℕ} (h : w ∈ canonicalBase64Pattern.matches') :
    ∀ u ∈ w, IsBase64 u := by
  obtain ⟨x, hx, y, hy, rfl⟩ := mem_matches_mul.1 h
  refine List.forall_mem_append.2 ⟨?_, ?_⟩
  · rw [RegularExpression.matches'_star, Language.mem_kstar] at hx
    obtain ⟨ws, rfl, hws⟩ := hx
    intro u hu
    obtain ⟨v, hv, hu⟩ := List.mem_flatten.1 hu
    exact .inl ((mem_pow_oneOf.1 (hws v hv)).2 u hu)
  · rcases mem_matches_add.1 hy with hy | hy
    · rw [mem_matches_one.1 hy]
      exact List.forall_mem_nil _
    · rcases mem_matches_add.1 hy with hy | hy <;>
        obtain ⟨v, hv, p, hp, rfl⟩ := mem_matches_mul.1 hy <;>
        refine List.forall_mem_append.2 ⟨fun u hu => .inl ((mem_pow_oneOf.1 hv).2 u hu), ?_⟩
      · rw [mem_word.1 hp]
        simp [IsBase64]
      · rw [mem_matches_char.1 hp]
        simp [IsBase64]

end Shape

/-! ## atob -/

section Atob

theorem isBase64_encode (bytes : List UInt8) : ∀ u ∈ encode bytes, IsBase64 u :=
  isBase64_of_mem_pattern (encode_mem_pattern bytes)

theorem not_whitespace {u : ℕ} (h : IsBase64 u) : Js.isAsciiWhitespace u = false := by
  rcases h with h | rfl
  · revert u
    decide
  · rfl

theorem length_encode (bytes : List UInt8) : (encode bytes).length % 4 = 0 := by
  fun_induction encode bytes with
  | case1 | case2 | case3 => simp
  | case4 a b c bytes ih =>
    simp only [List.length_cons]
    omega

/-- An encoding is its groups of six bits and at most two padding characters. -/
theorem encode_eq_map_digit (bytes : List UInt8) :
    ∃ groups p, encode bytes = groups.map digit ++ List.replicate p pad ∧ p ≤ 2 ∧
      groups.length % 4 ≠ 1 ∧ (∀ n ∈ groups, n < 64) ∧ Js.decodeBits groups = bytes := by
  fun_induction encode bytes with
  | case1 => exact ⟨[], 0, rfl, by omega, by simp, List.forall_mem_nil _, rfl⟩
  | case2 a =>
    have := a.toNat_lt
    refine ⟨[a.toNat / 4, a.toNat % 4 * 16], 2, rfl, by omega, by simp,
      List.forall_mem_cons.2 ⟨by omega, List.forall_mem_singleton.2 (by omega)⟩, ?_⟩
    rw [Js.decodeBits, byte₁_eq a (by omega)]
  | case3 a b =>
    have := a.toNat_lt
    have := b.toNat_lt
    refine ⟨[a.toNat / 4, a.toNat % 4 * 16 + b.toNat / 16, b.toNat % 16 * 4], 1, rfl, by omega,
      by simp, List.forall_mem_cons.2 ⟨by omega, List.forall_mem_cons.2 ⟨by omega,
        List.forall_mem_singleton.2 (by omega)⟩⟩, ?_⟩
    rw [Js.decodeBits, byte₁_eq a (by omega), byte₂_eq b (by omega) (by omega)]
  | case4 a b c bytes ih =>
    have := a.toNat_lt
    have := b.toNat_lt
    have := c.toNat_lt
    obtain ⟨groups, p, heq, hp, hlen, hgroups, hbits⟩ := ih
    refine ⟨a.toNat / 4 :: (a.toNat % 4 * 16 + b.toNat / 16) ::
      (b.toNat % 16 * 4 + c.toNat / 64) :: c.toNat % 64 :: groups, p, by rw [heq]; rfl, hp, ?_, ?_, ?_⟩
    · simp only [List.length_cons]
      omega
    · exact List.forall_mem_cons.2 ⟨by omega, List.forall_mem_cons.2 ⟨by omega,
        List.forall_mem_cons.2 ⟨by omega, List.forall_mem_cons.2 ⟨by omega, hgroups⟩⟩⟩⟩
    · rw [Js.decodeBits, byte₁_eq a (by omega), byte₂_eq b (by omega) (by omega),
        byte₃_eq c (by omega) (by omega), hbits]

theorem stripPadding_append {front : List ℕ} {p : ℕ} (hp : p ≤ 2) (hfront : ∀ u ∈ front, u ≠ pad)
    (hlen : (front ++ List.replicate p pad).length % 4 = 0) :
    Js.stripPadding (front ++ List.replicate p pad) = front := by
  have hno : ∀ {tail : List ℕ}, pad ∈ tail → ¬ tail <:+ front := fun hmem h =>
    hfront pad (h.subset hmem) rfl
  rw [Js.stripPadding, if_pos hlen]
  match p, hp with
  | 0, _ =>
    rw [List.replicate_zero, List.append_nil, if_neg (hno (by simp)), if_neg (hno (by simp))]
  | 1, _ =>
    have hsuffix : [pad] <:+ front ++ List.replicate 1 pad := List.suffix_append _ _
    have hone : ¬ [pad, pad] <:+ front ++ List.replicate 1 pad := by
      intro h
      rcases List.suffix_concat_iff.1 h with h | ⟨tail, heq, h⟩
      · cases h
      · obtain rfl : [pad] = tail := List.append_cancel_right (show [pad] ++ [pad] = tail ++ [pad] from heq)
        exact hno (by simp) h
    rw [if_neg hone, if_pos hsuffix]
    simp
  | 2, _ =>
    have hsuffix : [pad, pad] <:+ front ++ List.replicate 2 pad := List.suffix_append _ _
    rw [if_pos hsuffix]
    simp

theorem mapM_digit : ∀ {groups : List ℕ}, (∀ n ∈ groups, n < 64) →
    (groups.map digit).mapM digit? = some groups
  | [], _ => rfl
  | n :: groups, h => by
    obtain ⟨hn, hgroups⟩ := List.forall_mem_cons.1 h
    rw [List.map_cons, List.mapM_cons, digit?_digit hn, mapM_digit hgroups]
    rfl

theorem atob_encode (bytes : List UInt8) : Js.atob (encode bytes) = some bytes := by
  obtain ⟨groups, p, heq, hp, hlen, hgroups, hbits⟩ := encode_eq_map_digit bytes
  have hclean : (encode bytes).filter (fun u => !Js.isAsciiWhitespace u) = encode bytes :=
    List.filter_eq_self.2 fun u hu => by rw [not_whitespace (isBase64_encode bytes u hu)]; rfl
  have hfront : ∀ u ∈ groups.map digit, u ≠ pad := by
    intro u hu
    obtain ⟨n, hn, rfl⟩ := List.mem_map.1 hu
    exact digit_ne_pad (hgroups n hn)
  have hfour := length_encode bytes
  rw [Js.atob, hclean]
  rw [heq] at hfour ⊢
  rw [stripPadding_append hp hfront hfour, List.length_map, if_neg hlen, mapM_digit hgroups,
    Option.map_some,
    hbits]

end Atob

/-! ## The two verifiers -/

section Verifiers

theorem isBase64_ascii {u : ℕ} (h : IsBase64 u) : u < 128 ∧ u ≠ 0x0A ∧ u ≠ 0x0D := by
  rcases h with h | rfl
  · revert u
    decide
  · decide

/-- The client accepts the code units of an encoding. -/
theorem base64Bytes_eq_some {units : List ℕ} {bytes : List UInt8} :
    Client.base64Bytes units = some bytes ↔ units = encode bytes := by
  unfold Client.base64Bytes
  constructor
  · intro h
    split_ifs at h
    obtain ⟨decoded, -, h⟩ := Option.bind_eq_some_iff.1 h
    split_ifs at h with hsame
    rw [← Option.some.inj h]
    exact (not_not.1 hsame).symm
  · rintro rfl
    have hmatch : Client.canonicalBase64.rmatch (encode bytes) = true :=
      (RegularExpression.rmatch_iff_matches' _ _).2 (encode_mem_pattern bytes)
    rw [if_neg (by rw [hmatch]; decide), atob_encode]
    exact if_neg (not_not.2 rfl)

theorem decodeString_of_isBase64 {value : List UInt8} (h : ∀ b ∈ value, IsBase64 b.toNat) :
    Go.strictDecodeString value = Go.decodeGroups (value.map UInt8.toNat) := by
  rw [Go.strictDecodeString, List.filter_eq_self.2 fun b hb => ?_]
  obtain ⟨-, hlf, hcr⟩ := isBase64_ascii (h b hb)
  have hlf' : b ≠ 0x0A := fun heq => hlf (by rw [heq]; rfl)
  have hcr' : b ≠ 0x0D := fun heq => hcr (by rw [heq]; rfl)
  rw [Go.isLineBreak, decide_eq_false hlf', decide_eq_false hcr']
  rfl

theorem text_ascii (bytes : List UInt8) : ∀ c ∈ text bytes, c.toNat < 128 := by
  intro c hc
  obtain ⟨u, hu, rfl⟩ := List.mem_map.1 hc
  have hlt := (isBase64_ascii (isBase64_encode bytes u hu)).1
  rw [toNat_ofNat (.inl (by omega))]
  exact hlt

theorem map_toNat_text (bytes : List UInt8) : (text bytes).map Char.toNat = encode bytes := by
  rw [text, List.map_map]
  conv_rhs => rw [← List.map_id (encode bytes)]
  refine List.map_congr_left fun u hu => ?_
  have hlt := (isBase64_ascii (isBase64_encode bytes u hu)).1
  exact toNat_ofNat (.inl (by omega))

theorem map_toNat_utf8 {s : List Char} (h : ∀ c ∈ s, c.toNat < 128) :
    (utf8 s).map UInt8.toNat = s.map Char.toNat := by
  rw [utf8_map_ofNat h, List.map_map]
  refine List.map_congr_left fun c hc => ?_
  rw [Function.comp_apply, UInt8.toNat_ofNat', Nat.mod_eq_of_lt (by have := h c hc; omega)]

/-- The verifier accepts the bytes of an encoding. -/
theorem decodeSignature_eq_some {value bytes : List UInt8} :
    decodeSignature value = some bytes ↔ value = utf8 (text bytes) := by
  unfold decodeSignature
  constructor
  · intro h
    split_ifs at h with hmatch
    have hcodes := isBase64_of_mem_pattern ((RegularExpression.rmatch_iff_matches' _ _).1 hmatch)
    rw [List.forall_mem_map] at hcodes
    have hascii : ∀ c ∈ runes value, c.toNat < 128 := fun c hc => (isBase64_ascii (hcodes c hc)).1
    have hvalue : utf8 (runes value) = value :=
      utf8_runes fun hmem => absurd (hascii _ hmem) (by decide)
    have hbytes : value.map UInt8.toNat = (runes value).map Char.toNat := by
      conv_lhs => rw [← hvalue]
      exact map_toNat_utf8 hascii
    rw [decodeString_of_isBase64, hbytes] at h
    · have hencode := encode_of_decodeGroups h
      rw [← map_toNat_text] at hencode
      rw [← hvalue, List.map_injective_iff.2 (fun _ _ => Char.toNat_inj.1) hencode]
    · intro b hb
      have hmem : b.toNat ∈ value.map UInt8.toNat := List.mem_map_of_mem hb
      rw [hbytes] at hmem
      obtain ⟨c, hc, heq⟩ := List.mem_map.1 hmem
      rw [← heq]
      exact hcodes c hc
  · rintro rfl
    have hmatch : canonicalBase64Pattern.rmatch ((runes (utf8 (text bytes))).map Char.toNat) = true := by
      rw [RegularExpression.rmatch_iff_matches', runes_utf8, map_toNat_text]
      exact encode_mem_pattern bytes
    have hcodes : (utf8 (text bytes)).map UInt8.toNat = encode bytes := by
      rw [map_toNat_utf8 (text_ascii bytes), map_toNat_text]
    rw [if_pos hmatch, decodeString_of_isBase64, hcodes, decodeGroups_encode]
    intro b hb
    have hmem : b.toNat ∈ (utf8 (text bytes)).map UInt8.toNat := List.mem_map_of_mem hb
    rw [hcodes] at hmem
    exact isBase64_encode bytes _ hmem

/-- Both verifiers accept exactly the encodings of bytes and answer these, so no two texts are
accepted for the same signature. -/
theorem decodeSignature_exact :
    (∀ value bytes : List UInt8, decodeSignature value = some bytes ↔ value = utf8 (text bytes)) ∧
    (∀ (units : List ℕ) (bytes : List UInt8),
      Client.base64Bytes units = some bytes ↔ units = utf16 (text bytes)) ∧
    ∀ s : List Char, decodeSignature (utf8 s) = Client.base64Bytes (utf16 s) := by
  have hclient : ∀ (units : List ℕ) (bytes : List UInt8),
      Client.base64Bytes units = some bytes ↔ units = utf16 (text bytes) := by
    intro units bytes
    rw [base64Bytes_eq_some, utf16_map_toNat (text_ascii bytes), map_toNat_text]
  refine ⟨fun value bytes => decodeSignature_eq_some, hclient, fun s => ?_⟩
  refine Option.ext fun bytes => ?_
  rw [decodeSignature_eq_some, hclient, utf8_injective.eq_iff, utf16_injective.eq_iff]

end Verifiers

end Canonical
