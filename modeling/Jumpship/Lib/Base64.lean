import Jumpship.Lib.Pattern

/-!
# Base64

The standard alphabet with padding, over character codes, and the texts that encode bytes: groups
of four characters, the last one padded.
-/

namespace Base64

/-- The character code of six bits. -/
def digit (n : ℕ) : ℕ :=
  if n < 26 then n + 65 else if n < 52 then n + 71 else if n < 62 then n - 4
  else if n = 62 then 43 else 47

/-- The six bits a character writes. -/
def digit? (c : ℕ) : Option ℕ :=
  if 65 ≤ c ∧ c < 91 then some (c - 65)
  else if 97 ≤ c ∧ c < 123 then some (c - 71)
  else if 48 ≤ c ∧ c < 58 then some (c + 4)
  else if c = 43 then some 62
  else if c = 47 then some 63
  else none

def pad : ℕ := 61

/-! ## Groups -/

/-- The first byte of a group. -/
def byte₁ (w x : ℕ) : UInt8 := UInt8.ofNat (w * 4 + x / 16)

def byte₂ (x y : ℕ) : UInt8 := UInt8.ofNat (x % 16 * 16 + y / 4)

def byte₃ (y z : ℕ) : UInt8 := UInt8.ofNat (y % 4 * 64 + z)

/-- The codes of the text that encodes bytes. -/
def encode : List UInt8 → List ℕ
  | [] => []
  | [a] => [digit (a.toNat / 4), digit (a.toNat % 4 * 16), pad, pad]
  | [a, b] =>
    [digit (a.toNat / 4), digit (a.toNat % 4 * 16 + b.toNat / 16), digit (b.toNat % 16 * 4), pad]
  | a :: b :: c :: bytes =>
    digit (a.toNat / 4) :: digit (a.toNat % 4 * 16 + b.toNat / 16) ::
      digit (b.toNat % 16 * 4 + c.toNat / 64) :: digit (c.toNat % 64) :: encode bytes

/-- The text that encodes bytes. -/
def text (bytes : List UInt8) : List Char := (encode bytes).map Char.ofNat

theorem digit?_digit {n : ℕ} (h : n < 64) : digit? (digit n) = some n := by
  revert n
  decide

theorem digit?_eq_some {c n : ℕ} : digit? c = some n ↔ n < 64 ∧ c = digit n := by
  constructor
  · intro h
    unfold digit? at h
    split_ifs at h <;> obtain rfl := Option.some.inj h <;> refine ⟨by omega, ?_⟩ <;>
      unfold digit <;> split_ifs <;> omega
  · rintro ⟨hn, rfl⟩
    exact digit?_digit hn

theorem digit?_pad : digit? pad = none := rfl

theorem digit_ne_pad {n : ℕ} (h : n < 64) : digit n ≠ pad := fun heq => by
  have hdigit := digit?_digit h
  rw [heq, digit?_pad] at hdigit
  cases hdigit

/-! ## The pattern -/

/-- `[A-Za-z0-9+/]` -/
def alphabet : List ℕ :=
  List.range' 65 26 ++ List.range' 97 26 ++ List.range' 48 10 ++ [43, 47]

theorem mem_alphabet {c : ℕ} : c ∈ alphabet ↔ (digit? c).isSome = true := by
  unfold alphabet digit?
  simp only [List.mem_append, List.mem_range'_1, List.mem_cons, List.not_mem_nil, or_false]
  split_ifs <;> simp <;> omega

theorem digit_mem_alphabet {n : ℕ} (h : n < 64) : digit n ∈ alphabet := by
  rw [mem_alphabet, digit?_digit h]
  rfl

end Base64
