import Mathlib

/-!
# Numbers in bytes and in DER

Naturals as big-endian bytes, and the distinguished encoding of the ASN.1 types INTEGER, for
naturals, and SEQUENCE.
-/

/-! ## Big-endian bytes -/

namespace BigEndian

/-- The number that bytes write, the first one the most significant. -/
def value (bytes : List UInt8) : ℕ := Nat.ofDigits 256 (bytes.reverse.map UInt8.toNat)

/-- The bytes of a number, none for zero. -/
def ofNat (n : ℕ) : List UInt8 := (Nat.digits 256 n).reverse.map UInt8.ofNat

/-- The bytes of a number, filled up with zeros to `k` bytes. -/
def fixed (k n : ℕ) : List UInt8 := (ofNat n).leftpad k 0

theorem value_nil : value [] = 0 := rfl

theorem value_append_singleton (bytes : List UInt8) (b : UInt8) :
    value (bytes ++ [b]) = value bytes * 256 + b.toNat := by
  rw [value, List.reverse_append, List.reverse_singleton, List.singleton_append, List.map_cons,
    Nat.ofDigits_cons, value]
  ring

/-- The number a loop over the bytes adds up. -/
theorem foldl_eq_value (bytes : List UInt8) :
    bytes.foldl (fun n b => n * 256 + b.toNat) 0 = value bytes := by
  induction bytes using List.reverseRecOn with
  | nil => rfl
  | append_singleton bytes b ih =>
    rw [List.foldl_append, ih, value_append_singleton]
    rfl

theorem value_lt (bytes : List UInt8) : value bytes < 256 ^ bytes.length := by
  have hlt : ∀ d ∈ bytes.reverse.map UInt8.toNat, d < 256 := by
    intro d hd
    obtain ⟨b, -, rfl⟩ := List.mem_map.1 hd
    exact b.toNat_lt
  have h := Nat.ofDigits_lt_base_pow_length (by norm_num : 1 < 256) hlt
  rwa [List.length_map, List.length_reverse] at h

theorem value_replicate_zero_append (k : ℕ) (bytes : List UInt8) :
    value (List.replicate k 0 ++ bytes) = value bytes := by
  rw [value, List.reverse_append, List.reverse_replicate, List.map_append, List.map_replicate]
  exact Nat.ofDigits_append_replicate_zero _

theorem ofNat_zero : ofNat 0 = [] := by
  rw [ofNat, Nat.digits_zero]
  rfl

theorem value_ofNat (n : ℕ) : value (ofNat n) = n := by
  rw [value, ofNat, ← List.map_reverse, List.reverse_reverse, List.map_map]
  have hid : (Nat.digits 256 n).map (UInt8.toNat ∘ UInt8.ofNat) = Nat.digits 256 n := by
    conv_rhs => rw [← List.map_id (Nat.digits 256 n)]
    refine List.map_congr_left fun d hd => ?_
    have hlt : d < 256 := Nat.digits_lt_base (by norm_num) hd
    rw [Function.comp_apply, UInt8.toNat_ofNat', id, Nat.mod_eq_of_lt hlt]
  rw [hid, Nat.ofDigits_digits]

/-- Bytes that do not start with a zero are those of the number they write. -/
theorem ofNat_value {bytes : List UInt8} (h : bytes.head? ≠ some 0) :
    ofNat (value bytes) = bytes := by
  rw [ofNat, value, Nat.digits_ofDigits]
  · rw [List.map_reverse, List.map_map, ← List.map_reverse, List.reverse_reverse]
    conv_rhs => rw [← List.map_id bytes]
    refine List.map_congr_left fun b _ => ?_
    rw [Function.comp_apply, UInt8.ofNat_toNat, id]
  · norm_num
  · intro d hd
    obtain ⟨b, -, rfl⟩ := List.mem_map.1 hd
    exact b.toNat_lt
  · intro hne
    rcases bytes with _ | ⟨b, bytes⟩
    · exact absurd rfl hne
    · rw [List.getLast_map, List.getLast_reverse, List.head_cons]
      exact fun hzero => h (congrArg some (UInt8.toNat_inj.1 hzero))

theorem head?_ofNat (n : ℕ) : (ofNat n).head? ≠ some 0 := by
  intro h
  rw [ofNat, List.head?_map, List.head?_reverse] at h
  obtain ⟨d, hd, hzero⟩ := Option.map_eq_some_iff.1 h
  have hmem := List.mem_of_getLast? hd
  have hlt : d < 256 := Nat.digits_lt_base (by norm_num) hmem
  have hn : n ≠ 0 := by
    rintro rfl
    rw [Nat.digits_zero] at hmem
    cases hmem
  have hd0 : d = 0 := by
    have := congrArg UInt8.toNat hzero
    rw [UInt8.toNat_ofNat', Nat.mod_eq_of_lt hlt] at this
    exact this
  refine Nat.getLast_digit_ne_zero 256 hn ?_
  rw [List.getLast_eq_iff_getLast?_eq_some, hd, hd0]

theorem length_ofNat_le {n k : ℕ} : (ofNat n).length ≤ k ↔ n < 256 ^ k := by
  rw [ofNat, List.length_map, List.length_reverse, Nat.digits_length_le_iff (by norm_num)]

theorem ofNat_eq_nil {n : ℕ} : ofNat n = [] ↔ n = 0 := by
  rw [ofNat, List.map_eq_nil_iff, List.reverse_eq_nil_iff, Nat.digits_eq_nil_iff_eq_zero]

theorem length_fixed {k n : ℕ} (h : n < 256 ^ k) : (fixed k n).length = k := by
  rw [fixed, List.length_leftpad]
  exact max_eq_left (length_ofNat_le.2 h)

theorem value_fixed (k n : ℕ) : value (fixed k n) = n := by
  rw [fixed, List.leftpad, value_replicate_zero_append, value_ofNat]

theorem fixed_injective {k m n : ℕ} (h : fixed k m = fixed k n) : m = n := by
  rw [← value_fixed k m, h, value_fixed]

end BigEndian

/-! ## DER -/

namespace Der

open BigEndian

/-- The shortest form of a length: one byte below 128, and otherwise the number of the bytes that
follow and the bytes. -/
def lengthOctets (n : ℕ) : List UInt8 :=
  if n < 0x80 then [UInt8.ofNat n]
  else UInt8.ofNat (0x80 + (ofNat n).length) :: ofNat n

/-- The fewest bytes that write a natural number in two's complement: a zero first where the
highest bit would be that of a sign. -/
def integerOctets (n : ℕ) : List UInt8 :=
  match ofNat n with
  | [] => [0]
  | b :: bytes => if 0x80 ≤ b.toNat then 0 :: b :: bytes else b :: bytes

def integer (n : ℕ) : List UInt8 :=
  0x02 :: (lengthOctets (integerOctets n).length ++ integerOctets n)

/-- A SEQUENCE of encodings. -/
def sequence (contents : List UInt8) : List UInt8 :=
  0x30 :: (lengthOctets contents.length ++ contents)

theorem lengthOctets_short {n : ℕ} (h : n < 0x80) : lengthOctets n = [UInt8.ofNat n] := if_pos h

theorem integerOctets_ne_nil (n : ℕ) : integerOctets n ≠ [] := by
  unfold integerOctets
  split
  · exact List.cons_ne_nil _ _
  · split_ifs <;> exact List.cons_ne_nil _ _

theorem length_integerOctets_le {n k : ℕ} (h : n < 256 ^ k) : (integerOctets n).length ≤ k + 1 := by
  have hlen := length_ofNat_le.2 h
  unfold integerOctets
  split
  · simp
  · rename_i heq
    rw [heq, List.length_cons] at hlen
    split_ifs <;> simp only [List.length_cons] <;> omega

end Der
