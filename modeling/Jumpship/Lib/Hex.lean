import Mathlib.Data.List.Basic
import Mathlib.Tactic.Common
import Mathlib.Tactic.IntervalCases

/-!
# Hexadecimal

Two digits a byte: lowercase when written, either case when read.
-/

namespace Hex

def digit (n : ℕ) : Char := if n < 10 then Char.ofNat (48 + n) else Char.ofNat (87 + n)

def digitValue? (c : Char) : Option ℕ :=
  if '0' ≤ c ∧ c ≤ '9' then some (c.toNat - 48)
  else if 'a' ≤ c ∧ c ≤ 'f' then some (c.toNat - 87)
  else if 'A' ≤ c ∧ c ≤ 'F' then some (c.toNat - 55)
  else none

def encodeByte (b : UInt8) : List Char := [digit (b.toNat / 16), digit (b.toNat % 16)]

def encodeToString (bytes : List UInt8) : List Char := bytes.flatMap encodeByte

def decodeString : List Char → Option (List UInt8)
  | [] => some []
  | [_] => none
  | h :: l :: t =>
    match digitValue? h, digitValue? l with
    | some a, some b => (decodeString t).map (UInt8.ofNat (16 * a + b) :: ·)
    | _, _ => none

/-- A digit as `encodeToString` writes it. -/
def IsLower (c : Char) : Prop := ('0' ≤ c ∧ c ≤ '9') ∨ ('a' ≤ c ∧ c ≤ 'f')

instance : DecidablePred IsLower := fun _ => inferInstanceAs (Decidable (_ ∨ _))

theorem isLower_digit {n : ℕ} (h : n < 16) : IsLower (digit n) := by
  interval_cases n <;> decide

theorem digitValue?_digit {n : ℕ} (h : n < 16) : digitValue? (digit n) = some n := by
  interval_cases n <;> decide

theorem digitValue?_isSome {c : Char} (h : IsLower c) : (digitValue? c).isSome := by
  unfold digitValue?
  rcases h with h | h
  · rw [if_pos h]; rfl
  · split_ifs <;> rfl

theorem length_encodeToString (bytes : List UInt8) :
    (encodeToString bytes).length = 2 * bytes.length := by
  induction bytes with
  | nil => rfl
  | cons b bytes ih =>
    change (encodeToString bytes).length + 2 = _
    rw [ih, List.length_cons, Nat.mul_add]

theorem isLower_encodeToString (bytes : List UInt8) : ∀ c ∈ encodeToString bytes, IsLower c := by
  intro c hc
  obtain ⟨b, -, hb⟩ := List.mem_flatMap.1 hc
  have := b.toNat_lt
  simp only [encodeByte, List.mem_cons, List.not_mem_nil, or_false] at hb
  rcases hb with rfl | rfl
  · exact isLower_digit (by omega)
  · exact isLower_digit (by omega)

theorem decodeString_encodeToString (bytes : List UInt8) :
    decodeString (encodeToString bytes) = some bytes := by
  induction bytes with
  | nil => rfl
  | cons b bytes ih =>
    have hb := b.toNat_lt
    change decodeString (digit (b.toNat / 16) :: digit (b.toNat % 16) :: encodeToString bytes) = _
    rw [decodeString, digitValue?_digit (by omega), digitValue?_digit (by omega)]
    dsimp only
    rw [ih, Option.map_some, Nat.div_add_mod, UInt8.ofNat_toNat]

theorem encodeToString_injective : Function.Injective encodeToString := by
  intro a b h
  have := congrArg decodeString h
  rwa [decodeString_encodeToString, decodeString_encodeToString, Option.some.injEq] at this

end Hex
