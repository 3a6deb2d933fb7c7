import Jumpship.Lib.Der
import Jumpship.Client.Signature

/-!
# ecdsaDERToRaw

The reader accepts exactly the distinguished encodings of a SEQUENCE of two INTEGERs of 1 to
`2 ^ 256 - 1`, and answers them in 32 bytes each.
-/

namespace Client

open BigEndian Der

/-! ## Bits of a byte -/

section Bits

theorem and_0x80_eq_zero (b : UInt8) : b &&& 0x80 = 0 ↔ b.toNat < 0x80 := by
  have hlt : b.toNat < 2 ^ 8 := b.toNat_lt
  have hbit : b.toNat &&& 2 ^ 7 = (b.toNat.testBit 7).toNat * 2 ^ 7 := Nat.and_two_pow _ _
  rw [← UInt8.toNat_inj, UInt8.toNat_and]
  change b.toNat &&& 2 ^ 7 = 0 ↔ _
  rw [hbit]
  cases h : b.toNat.testBit 7 with
  | false =>
    rw [Nat.testBit_eq_decide_div_mod_eq, decide_eq_false_iff_not] at h
    simp only [Bool.toNat_false, zero_mul, true_iff]
    omega
  | true =>
    rw [Nat.testBit_eq_decide_div_mod_eq, decide_eq_true_eq] at h
    simp only [Bool.toNat_true, one_mul, Nat.reducePow, OfNat.ofNat_ne_zero, false_iff]
    omega

theorem toNat_and_0x7F (b : UInt8) : (b &&& 0x7F).toNat = b.toNat % 0x80 := by
  rw [UInt8.toNat_and]
  exact Nat.and_two_pow_sub_one_eq_mod b.toNat 7

end Bits

/-! ## Offsets -/

section Shift

variable (front rest : List UInt8)

theorem drop_shift (n : ℕ) : (front ++ rest).drop (front.length + n) = rest.drop n := by
  rw [List.drop_append, List.drop_eq_nil_of_le (Nat.le_add_right _ _), List.nil_append,
    Nat.add_sub_cancel_left]

theorem getElem?_shift (n : ℕ) : (front ++ rest)[front.length + n]? = rest[n]? := by
  rw [List.getElem?_append_right (Nat.le_add_right _ _), Nat.add_sub_cancel_left]

/-- Where the signature starts does not matter to a read of a length. -/
theorem readLength_shift (limit offset : ℕ) :
    readLength (front ++ rest) (front.length + limit) (front.length + offset)
      = (readLength rest limit offset).map fun p => (p.1, front.length + p.2) := by
  unfold readLength
  simp only [Nat.add_le_add_iff_left, Nat.add_assoc, getElem?_shift, drop_shift,
    Nat.add_lt_add_iff_left, Option.bind_eq_bind]
  by_cases hlimit : limit ≤ offset
  · rw [if_pos hlimit, if_pos hlimit, Option.map_none]
  · rw [if_neg hlimit, if_neg hlimit]
    cases rest[offset]? with
    | none => rfl
    | some first =>
      simp only [Option.bind_some]
      split_ifs <;> rfl

theorem readInteger_shift (limit offset : ℕ) :
    readInteger (front ++ rest) (front.length + limit) (front.length + offset)
      = (readInteger rest limit offset).map fun p => (p.1, front.length + p.2) := by
  unfold readInteger
  simp only [Nat.add_le_add_iff_left, Nat.add_assoc, getElem?_shift, readLength_shift,
    Option.bind_eq_bind]
  by_cases hlimit : limit ≤ offset
  · rw [if_pos hlimit, if_pos hlimit, Option.map_none]
  rw [if_neg hlimit, if_neg hlimit]
  by_cases htag : rest[offset]? ≠ some 0x02
  · rw [if_pos htag, if_pos htag, Option.map_none]
  rw [if_neg htag, if_neg htag]
  cases readLength rest limit (offset + 1) with
  | none => rfl
  | some p =>
    simp only [Option.map_some, Option.bind_some, drop_shift, Nat.add_assoc,
      Nat.add_lt_add_iff_left]
    by_cases hlength : (decide (p.1 = 0) || decide (limit < p.2 + p.1)) = true
    · rw [if_pos hlength, if_pos hlength, Option.map_none]
    · rw [if_neg hlength, if_neg hlength]
      cases paddedInteger ((rest.drop p.2).take p.1) <;> rfl

end Shift

section Tag

/-- After the tag, a read is a read of what follows it. -/
theorem readLength_tag (tag : UInt8) (bytes : List UInt8) :
    readLength (tag :: bytes) (tag :: bytes).length 1
      = (readLength bytes bytes.length 0).map fun p => (p.1, 1 + p.2) := by
  have hshift := readLength_shift [tag] bytes bytes.length 0
  rwa [List.length_singleton, List.singleton_append, Nat.add_comm 1 bytes.length,
    ← @List.length_cons _ tag bytes] at hshift

theorem drop_tag (tag : UInt8) (front body : List UInt8) :
    (tag :: (front ++ body)).drop (1 + front.length) = body := by
  rw [Nat.add_comm, List.drop_succ_cons, List.drop_left]

end Tag

/-! ## Lengths -/

section Lengths

/-- A length that is read is written in its shortest form. -/
theorem lengthOctets_of_readLength {bytes : List UInt8} {n o : ℕ}
    (h : readLength bytes bytes.length 0 = some (n, o)) :
    ∃ body, bytes = lengthOctets n ++ body ∧ o = (lengthOctets n).length := by
  rcases bytes with _ | ⟨first, bytes⟩
  · cases h
  · rw [readLength, if_neg (by simp), List.getElem?_cons_zero] at h
    change (if first < 0x80 then some (first.toNat, 0 + 1) else _) = _ at h
    by_cases hshort : first < 0x80
    · rw [if_pos hshort, Option.some.injEq, Prod.mk.injEq] at h
      obtain ⟨rfl, rfl⟩ := h
      have hlt : first.toNat < 0x80 := hshort
      rw [lengthOctets_short hlt, UInt8.ofNat_toNat]
      exact ⟨bytes, rfl, rfl⟩
    · rw [if_neg hshort] at h
      have hhigh : 0x80 ≤ first.toNat := Nat.le_of_not_lt hshort
      have hbyte := first.toNat_lt
      simp only [toNat_and_0x7F, Nat.zero_add, List.getElem?_cons_succ, List.drop_succ_cons,
        List.drop_zero, List.length_cons, foldl_eq_value] at h
      split_ifs at h with hcount hzero hlong
      rw [Option.some.injEq, Prod.mk.injEq] at h
      obtain ⟨rfl, rfl⟩ := h
      simp only [Bool.or_eq_true, decide_eq_true_eq, not_or, not_lt] at hcount
      have hlen : (bytes.take (first.toNat % 0x80)).length = first.toNat % 0x80 :=
        List.length_take_of_le (by omega)
      have hoctets := @ofNat_value (bytes.take (first.toNat % 0x80)) (by
        rw [List.head?_take, if_neg (by omega), List.head?_eq_getElem?]
        exact hzero)
      rw [lengthOctets, if_neg hlong, hoctets, hlen]
      have hfirst : UInt8.ofNat (0x80 + first.toNat % 0x80) = first := by
        rw [← UInt8.toNat_inj, UInt8.toNat_ofNat']
        omega
      rw [hfirst]
      refine ⟨bytes.drop (first.toNat % 0x80), ?_, ?_⟩
      · rw [List.cons_append, List.take_append_drop]
      · rw [List.length_cons, hlen, Nat.add_comm]

theorem readLength_lengthOctets {n : ℕ} (h : n < 0x80) (body : List UInt8) :
    readLength (lengthOctets n ++ body) (lengthOctets n ++ body).length 0 = some (n, 1) := by
  have hn : (UInt8.ofNat n).toNat = n := by
    rw [UInt8.toNat_ofNat']
    omega
  have hshort : UInt8.ofNat n < 0x80 := by
    rw [UInt8.lt_iff_toNat_lt, hn]
    exact h
  rw [lengthOctets_short h, List.singleton_append, readLength, if_neg (by simp),
    List.getElem?_cons_zero]
  change (if UInt8.ofNat n < 0x80 then some ((UInt8.ofNat n).toNat, 0 + 1) else _) = _
  rw [if_pos hshort, hn]

end Lengths

/-! ## Integers -/

section Integers

/-- The bytes of a number that starts with no zero byte, in 32 bytes. -/
theorem fixed_value {integer : List UInt8} (h : integer.head? ≠ some 0) :
    fixed 32 (value integer) = List.replicate (32 - integer.length) 0 ++ integer := by
  rw [fixed, ofNat_value h, List.leftpad]

theorem one_le_value {integer : List UInt8} (h : integer.head? ≠ some 0) (hne : integer ≠ []) :
    1 ≤ value integer := by
  rw [Nat.one_le_iff_ne_zero]
  intro hzero
  refine hne ?_
  rw [← ofNat_value h, hzero, ofNat_zero]

/-- Two's complement bytes of a positive number, and the number's own. -/
inductive Encoded : List UInt8 → List UInt8 → Prop
  | padded {b : UInt8} (rest : List UInt8) : 0x80 ≤ b.toNat → Encoded (0 :: b :: rest) (b :: rest)
  | plain {b : UInt8} (rest : List UInt8) : b.toNat < 0x80 → b ≠ 0 → Encoded (b :: rest) (b :: rest)

theorem Encoded.head {encoded integer : List UInt8} (h : Encoded encoded integer) :
    integer ≠ [] ∧ integer.head? ≠ some 0 := by
  cases h with
  | padded rest hb =>
    refine ⟨List.cons_ne_nil _ _, fun heq => ?_⟩
    rw [List.head?_cons, Option.some.injEq] at heq
    subst heq
    exact absurd hb (by decide)
  | plain rest hb hne =>
    refine ⟨List.cons_ne_nil _ _, fun heq => hne ?_⟩
    rwa [List.head?_cons, Option.some.injEq] at heq

theorem Encoded.eq {encoded integer : List UInt8} (h : Encoded encoded integer) :
    encoded = integerOctets (value integer) := by
  rw [integerOctets, ofNat_value h.head.2]
  cases h with
  | padded rest hb => exact (if_pos hb).symm
  | plain rest hb _ => exact (if_neg (Nat.not_le_of_lt hb)).symm

theorem encoded_integerOctets {n : ℕ} (h : 1 ≤ n) : Encoded (integerOctets n) (ofNat n) := by
  have hhead := head?_ofNat n
  unfold integerOctets
  rcases hn : ofNat n with _ | ⟨b, rest⟩
  · rw [ofNat_eq_nil] at hn
    omega
  · rw [hn, List.head?_cons, ne_eq, Option.some.injEq] at hhead
    change Encoded (if 0x80 ≤ b.toNat then 0 :: b :: rest else b :: rest) (b :: rest)
    split_ifs with hb
    · exact .padded rest hb
    · exact .plain rest (Nat.lt_of_not_le hb) hhead

theorem not_all_zero {b : UInt8} (h : b ≠ 0) (rest : List UInt8) :
    ¬ ((b :: rest).all (· = 0)) = true := by
  rw [List.all_cons, Bool.and_eq_true, decide_eq_true_eq]
  exact fun hall => h hall.1

theorem paddedInteger_sign {b : UInt8} (h : 0x80 ≤ b.toNat) (rest : List UInt8) :
    paddedInteger (b :: rest) = none := by
  have hsign : b &&& 0x80 ≠ 0 := fun hzero => absurd ((and_0x80_eq_zero b).1 hzero) (by omega)
  simp only [paddedInteger, List.getElem?_cons_zero, Option.bind_eq_bind, Option.bind_some]
  exact if_pos hsign

theorem paddedInteger_plain {b : UInt8} (h : b.toNat < 0x80) (hne : b ≠ 0) (rest : List UInt8) :
    paddedInteger (b :: rest) = if 32 < (b :: rest).length then none
      else some (List.replicate (32 - (b :: rest).length) 0 ++ b :: rest) := by
  have hsign : ¬ b &&& 0x80 ≠ 0 := not_not.2 ((and_0x80_eq_zero b).2 h)
  simp only [paddedInteger, List.getElem?_cons_zero, Option.bind_eq_bind, Option.bind_some,
    decide_eq_false hne, Bool.and_false, Bool.false_and, Bool.false_eq_true, if_false]
  rw [if_neg hsign, if_neg (not_all_zero hne rest)]

theorem paddedInteger_zero (b : UInt8) (rest : List UInt8) :
    paddedInteger (0 :: b :: rest) = if b.toNat < 0x80 then none
      else if 32 < (b :: rest).length then none
      else some (List.replicate (32 - (b :: rest).length) 0 ++ b :: rest) := by
  have hlen : 1 < (0 :: b :: rest).length := by simp
  simp only [paddedInteger, List.getElem?_cons_zero, List.getElem?_cons_succ, Option.bind_eq_bind,
    Option.bind_some, Option.map_some, Option.some.injEq, decide_eq_true hlen, decide_true,
    Bool.true_and, decide_eq_true_eq, if_true, List.drop_succ_cons, List.drop_zero,
    and_0x80_eq_zero]
  rw [if_neg (by decide)]
  by_cases hb : b.toNat < 0x80
  · rw [if_pos hb, if_pos hb]
  · have hne : b ≠ 0 := by
      rintro rfl
      exact hb (by decide)
    rw [if_neg hb, if_neg hb, if_neg (not_all_zero hne rest)]

theorem paddedInteger_of_encoded {encoded integer : List UInt8} (h : Encoded encoded integer)
    (hlen : integer.length ≤ 32) :
    paddedInteger encoded = some (List.replicate (32 - integer.length) 0 ++ integer) := by
  cases h with
  | @padded b rest hb =>
    rw [paddedInteger_zero, if_neg (Nat.not_lt_of_le hb), if_neg (Nat.not_lt_of_le hlen)]
  | @plain b rest hb hne =>
    rw [paddedInteger_plain hb hne, if_neg (Nat.not_lt_of_le hlen)]

/-- What is accepted as an integer is the shortest encoding of a positive one. -/
theorem encoded_of_paddedInteger {encoded padded : List UInt8}
    (h : paddedInteger encoded = some padded) :
    ∃ integer, Encoded encoded integer ∧ integer.length ≤ 32 ∧
      padded = List.replicate (32 - integer.length) 0 ++ integer := by
  rcases encoded with _ | ⟨first, rest⟩
  · cases h
  by_cases hsign : 0x80 ≤ first.toNat
  · rw [paddedInteger_sign hsign] at h
    cases h
  by_cases hzero : first = 0
  · subst hzero
    rcases rest with _ | ⟨b, rest⟩
    · have hnone : paddedInteger [0] = none := by decide
      rw [hnone] at h
      cases h
    · rw [paddedInteger_zero] at h
      split_ifs at h with hmin hlen
      exact ⟨b :: rest, .padded rest (Nat.le_of_not_lt hmin), Nat.le_of_not_lt hlen,
        (Option.some.inj h).symm⟩
  · rw [paddedInteger_plain (Nat.lt_of_not_le hsign) hzero] at h
    split_ifs at h with hlen
    exact ⟨first :: rest, .plain rest (Nat.lt_of_not_le hsign) hzero, Nat.le_of_not_lt hlen,
      (Option.some.inj h).symm⟩

theorem paddedInteger_eq_some {encoded padded : List UInt8} :
    paddedInteger encoded = some padded ↔
      ∃ n, 1 ≤ n ∧ n < 256 ^ 32 ∧ encoded = integerOctets n ∧ padded = fixed 32 n := by
  constructor
  · intro h
    obtain ⟨integer, hencoded, hlen, rfl⟩ := encoded_of_paddedInteger h
    obtain ⟨hne, hhead⟩ := hencoded.head
    refine ⟨value integer, one_le_value hhead hne, ?_, hencoded.eq, (fixed_value hhead).symm⟩
    exact (value_lt integer).trans_le (Nat.pow_le_pow_right (by norm_num) hlen)
  · rintro ⟨n, hpos, hlt, rfl, rfl⟩
    have hencoded := encoded_integerOctets hpos
    rw [paddedInteger_of_encoded hencoded (length_ofNat_le.2 hlt), fixed, List.leftpad]

/-- An integer that is read is written in its distinguished encoding. -/
theorem integer_of_readInteger {bytes padded : List UInt8} {o : ℕ}
    (h : readInteger bytes bytes.length 0 = some (padded, o)) :
    ∃ n body, 1 ≤ n ∧ n < 256 ^ 32 ∧ bytes = integer n ++ body ∧ padded = fixed 32 n ∧
      o = (integer n).length := by
  rcases bytes with _ | ⟨tag, bytes⟩
  · cases h
  rw [readInteger, if_neg (by simp)] at h
  by_cases htag : (tag :: bytes)[0]? ≠ some 0x02
  · rw [if_pos htag] at h
    cases h
  rw [if_neg htag] at h
  rw [ne_eq, not_not, List.getElem?_cons_zero, Option.some.injEq] at htag
  subst htag
  rw [readLength_tag] at h
  rcases hlength : readLength bytes bytes.length 0 with _ | ⟨length, offset⟩
  · rw [hlength] at h
    cases h
  obtain ⟨body, rfl, rfl⟩ := lengthOctets_of_readLength hlength
  rw [hlength] at h
  simp only [Option.map_some, Option.bind_eq_bind, Option.bind_some] at h
  split_ifs at h with hbounds
  simp only [Bool.or_eq_true, decide_eq_true_eq, not_or, not_lt] at hbounds
  obtain ⟨hne, hend⟩ := hbounds
  rw [drop_tag] at h
  rcases hpadded : paddedInteger (body.take length) with _ | padded'
  · rw [hpadded] at h
    cases h
  rw [hpadded, Option.bind_some, Option.some.injEq, Prod.mk.injEq] at h
  obtain ⟨rfl, rfl⟩ := h
  obtain ⟨n, hpos, hlt, hencoded, rfl⟩ := paddedInteger_eq_some.1 hpadded
  have hlen : (integerOctets n).length = length := by
    rw [← hencoded, List.length_take, min_eq_left]
    simp only [List.length_cons, List.length_append] at hend
    omega
  refine ⟨n, body.drop length, hpos, hlt, ?_, rfl, ?_⟩
  · rw [integer, hlen, ← hencoded, List.cons_append, List.append_assoc, List.take_append_drop]
  · rw [integer, hlen, List.length_cons, List.length_append, hlen]
    omega

theorem length_integer {n : ℕ} (h : n < 256 ^ 32) : (integer n).length ≤ 35 := by
  have hlen := length_integerOctets_le h
  rw [integer, lengthOctets_short (by omega), List.length_cons, List.length_append,
    List.length_singleton]
  omega

theorem readInteger_integer {n : ℕ} (hpos : 1 ≤ n) (hlt : n < 256 ^ 32) (body : List UInt8) :
    readInteger (integer n ++ body) (integer n ++ body).length 0
      = some (fixed 32 n, (integer n).length) := by
  have hlen := length_integerOctets_le hlt
  have hne := List.length_pos_of_ne_nil (integerOctets_ne_nil n)
  have hread := readLength_lengthOctets (by omega : (integerOctets n).length < 0x80)
    (integerOctets n ++ body)
  have hoctets := lengthOctets_short (by omega : (integerOctets n).length < 0x80)
  rw [integer, List.cons_append, List.append_assoc, readInteger, if_neg (by simp),
    List.getElem?_cons_zero, if_neg (by simp), readLength_tag, hread]
  simp only [Option.map_some, Option.bind_eq_bind, Option.bind_some]
  have hdrop := drop_tag 0x02 (lengthOctets (integerOctets n).length) (integerOctets n ++ body)
  rw [hoctets, List.length_singleton] at hdrop
  rw [hoctets, if_neg, hdrop, List.take_left, paddedInteger_eq_some.2 ⟨n, hpos, hlt, rfl, rfl⟩]
  swap
  · rw [Bool.or_eq_true, decide_eq_true_eq, decide_eq_true_eq, not_or, not_lt]
    refine ⟨by omega, ?_⟩
    simp only [List.length_cons, List.length_append, List.length_nil]
    omega
  rw [Option.bind_some, List.length_cons, List.length_append, List.length_singleton, Nat.add_right_comm]

end Integers

/-! ## Signatures -/

section Signatures

/-- The distinguished encoding of a signature. -/
def derSignature (r s : ℕ) : List UInt8 := Der.sequence (integer r ++ integer s)

theorem readInteger_at {front rest padded : List UInt8} {o : ℕ} :
    readInteger (front ++ rest) (front ++ rest).length front.length = some (padded, o) ↔
      ∃ o', readInteger rest rest.length 0 = some (padded, o') ∧ o = front.length + o' := by
  have hshift := readInteger_shift front rest rest.length 0
  rw [Nat.add_zero, ← List.length_append] at hshift
  rw [hshift, Option.map_eq_some_iff]
  constructor
  · rintro ⟨⟨padded', o'⟩, h, heq⟩
    obtain ⟨rfl, rfl⟩ := Prod.mk.inj heq
    exact ⟨o', h, rfl⟩
  · rintro ⟨o', h, rfl⟩
    exact ⟨_, h, rfl⟩

/-- What the two rounds of the loop read after the header of the sequence. -/
theorem readIntegers {header contents raw : List UInt8} :
    ((readInteger (header ++ contents) (header ++ contents).length header.length).bind fun r =>
      (readInteger (header ++ contents) (header ++ contents).length r.2).bind fun s =>
        if s.2 ≠ (header ++ contents).length then none else some (r.1 ++ s.1)) = some raw ↔
      ∃ r s, 1 ≤ r ∧ r < 256 ^ 32 ∧ 1 ≤ s ∧ s < 256 ^ 32 ∧ contents = integer r ++ integer s ∧
        raw = fixed 32 r ++ fixed 32 s := by
  constructor
  · intro h
    obtain ⟨⟨x, o⟩, hx, h⟩ := Option.bind_eq_some_iff.1 h
    obtain ⟨⟨y, o'⟩, hy, h⟩ := Option.bind_eq_some_iff.1 h
    obtain ⟨_, hx', rfl⟩ := readInteger_at.1 hx
    obtain ⟨r, rest, hr, hr', rfl, rfl, rfl⟩ := integer_of_readInteger hx'
    rw [← List.append_assoc, ← List.length_append] at hy
    obtain ⟨_, hy', rfl⟩ := readInteger_at.1 hy
    obtain ⟨s, rest, hs, hs', rfl, rfl, rfl⟩ := integer_of_readInteger hy'
    split_ifs at h with hend
    have hrest : rest = [] := by
      rw [ne_eq, not_not] at hend
      simp only [List.length_append] at hend
      exact List.eq_nil_of_length_eq_zero (by omega)
    rw [hrest, List.append_nil]
    exact ⟨r, s, hr, hr', hs, hs', rfl, (Option.some.inj h).symm⟩
  · rintro ⟨r, s, hr, hr', hs, hs', rfl, rfl⟩
    have hlast := readInteger_integer hs hs' []
    rw [List.append_nil] at hlast
    have hsecond := (@readInteger_at (header ++ integer r) _ _ _).2 ⟨_, hlast, rfl⟩
    have hoffset : (header ++ integer r).length = header.length + (integer r).length :=
      List.length_append
    rw [List.append_assoc, hoffset] at hsecond
    rw [readInteger_at.2 ⟨_, readInteger_integer hr hr' (integer s), rfl⟩, Option.bind_some]
    dsimp only
    rw [hsecond, Option.bind_some, if_neg]
    simp only [ne_eq, not_not, List.length_append, Nat.add_assoc]

theorem ecdsaDERToRaw_derSignature {r s : ℕ} (hr : 1 ≤ r) (hr' : r < 256 ^ 32) (hs : 1 ≤ s)
    (hs' : s < 256 ^ 32) : ecdsaDERToRaw (derSignature r s) = some (fixed 32 r ++ fixed 32 s) := by
  have hlenr := length_integer hr'
  have hlens := length_integer hs'
  have hlen : (integer r ++ integer s).length < 0x80 := by
    rw [List.length_append]
    omega
  have hread := (@readIntegers (0x30 :: lengthOctets (integer r ++ integer s).length) _ _).2
    ⟨r, s, hr, hr', hs, hs', rfl, rfl⟩
  have hheader : (0x30 :: lengthOctets (integer r ++ integer s).length).length = 2 := by
    rw [lengthOctets_short hlen]
    rfl
  rw [hheader, List.cons_append] at hread
  have hend : 2 + (integer r ++ integer s).length = (0x30 :: (lengthOctets (integer r ++
      integer s).length ++ (integer r ++ integer s))).length := by
    rw [lengthOctets_short hlen]
    simp only [List.length_cons, List.length_append, List.length_nil]
    omega
  rw [derSignature, Der.sequence, ecdsaDERToRaw, if_neg (by simp), List.getElem?_cons_zero,
    if_neg (by simp), readLength_tag, readLength_lengthOctets hlen]
  simp only [Option.map_some, Option.bind_eq_bind, Option.bind_some]
  rw [hend, if_neg (by simp)]
  exact hread

/-- A signature that is accepted is the distinguished encoding of two integers in range. -/
theorem derSignature_of_ecdsaDERToRaw {bytes raw : List UInt8} (h : ecdsaDERToRaw bytes = some raw) :
    ∃ r s, 1 ≤ r ∧ r < 256 ^ 32 ∧ 1 ≤ s ∧ s < 256 ^ 32 ∧ bytes = derSignature r s ∧
      raw = fixed 32 r ++ fixed 32 s := by
  rcases bytes with _ | ⟨tag, bytes⟩
  · cases h
  rw [ecdsaDERToRaw, if_neg (by simp)] at h
  by_cases htag : (tag :: bytes)[0]? ≠ some 0x30
  · rw [if_pos htag] at h
    cases h
  rw [if_neg htag, readLength_tag] at h
  rw [ne_eq, not_not, List.getElem?_cons_zero, Option.some.injEq] at htag
  subst htag
  rcases hlength : readLength bytes bytes.length 0 with _ | ⟨length, offset⟩
  · rw [hlength] at h
    cases h
  obtain ⟨contents, rfl, rfl⟩ := lengthOctets_of_readLength hlength
  rw [hlength] at h
  simp only [Option.map_some, Option.bind_eq_bind, Option.bind_some] at h
  split_ifs at h with hend
  rw [ne_eq, not_not] at hend
  have hlen : contents.length = length := by
    simp only [List.length_cons, List.length_append] at hend
    omega
  have hheader : 1 + (lengthOctets length).length = (0x30 :: lengthOctets length).length := by
    rw [List.length_cons, Nat.add_comm]
  rw [hend, hheader, ← List.cons_append] at h
  obtain ⟨r, s, hr, hr', hs, hs', rfl, rfl⟩ := readIntegers.1 h
  exact ⟨r, s, hr, hr', hs, hs', by rw [derSignature, Der.sequence, hlen], rfl⟩

/-- The reader succeeds on the distinguished encodings of two integers from 1 to `2 ^ 256 - 1` and on
nothing else, answers them in 32 bytes each, no two encodings alike, and reaches every pair. -/
theorem ecdsaDERToRaw_exact :
    (∀ bytes raw : List UInt8, ecdsaDERToRaw bytes = some raw ↔
      ∃ r s, 1 ≤ r ∧ r < 2 ^ 256 ∧ 1 ≤ s ∧ s < 2 ^ 256 ∧ bytes = derSignature r s ∧
        raw = fixed 32 r ++ fixed 32 s) ∧
    (∀ bytes bytes' raw : List UInt8, ecdsaDERToRaw bytes = some raw →
      ecdsaDERToRaw bytes' = some raw → bytes = bytes') ∧
    ∀ r s, 1 ≤ r → r < 2 ^ 256 → 1 ≤ s → s < 2 ^ 256 →
      ecdsaDERToRaw (derSignature r s) = some (fixed 32 r ++ fixed 32 s) := by
  have hpow : (2 : ℕ) ^ 256 = 256 ^ 32 := by norm_num
  rw [hpow]
  refine ⟨fun bytes raw => ⟨derSignature_of_ecdsaDERToRaw, ?_⟩, fun bytes bytes' raw h h' => ?_,
    fun r s hr hr' hs hs' => ecdsaDERToRaw_derSignature hr hr' hs hs'⟩
  · rintro ⟨r, s, hr, hr', hs, hs', rfl, rfl⟩
    exact ecdsaDERToRaw_derSignature hr hr' hs hs'
  · obtain ⟨r, s, -, hr, -, hs, rfl, rfl⟩ := derSignature_of_ecdsaDERToRaw h
    obtain ⟨r', s', -, hr', -, hs', rfl, heq⟩ := derSignature_of_ecdsaDERToRaw h'
    obtain ⟨hrr, hss⟩ := List.append_inj heq (by rw [length_fixed hr, length_fixed hr'])
    rw [fixed_injective hrr, fixed_injective hss]

theorem ecdsaDERToRaw_exact_sample :
    [0x30, 6, 2, 1, 1, 2, 1, 5] = derSignature 1 5 ∧
      ecdsaDERToRaw (derSignature (2 ^ 255) 1) = some (fixed 32 (2 ^ 255) ++ fixed 32 1) := by
  obtain ⟨-, hunique, hreach⟩ := ecdsaDERToRaw_exact
  have h := hreach 1 5 (by norm_num) (by norm_num) (by norm_num) (by norm_num)
  have h' : ecdsaDERToRaw [0x30, 6, 2, 1, 1, 2, 1, 5] = some (fixed 32 1 ++ fixed 32 5) := by
    decide +kernel
  exact ⟨hunique _ _ _ h' h, hreach _ _ (by norm_num) (by norm_num) (by norm_num) (by norm_num)⟩

end Signatures

end Client
