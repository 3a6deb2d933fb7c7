import Mathlib

/-!
# Patterns

Character classes and bounded repetition over Mathlib's regular expressions, with what the words of
each look like.
-/

namespace Pattern

open Computability

variable {α : Type}

/-- A character class. -/
def oneOf (cs : List α) : RegularExpression α := (cs.map RegularExpression.char).sum

/-- The characters of a word, one after the other. -/
def word (cs : List α) : RegularExpression α := (cs.map RegularExpression.char).prod

/-- Between `lo` and `lo + extra` times. -/
def between (p : RegularExpression α) (lo extra : ℕ) : RegularExpression α :=
  p ^ lo * (1 + p) ^ extra

theorem mem_matches_mul {p q : RegularExpression α} {w : List α} :
    w ∈ (p * q).matches' ↔ ∃ u ∈ p.matches', ∃ v ∈ q.matches', u ++ v = w := by
  rw [RegularExpression.matches'_mul, Language.mem_mul]

theorem mem_matches_add {p q : RegularExpression α} {w : List α} :
    w ∈ (p + q).matches' ↔ w ∈ p.matches' ∨ w ∈ q.matches' := by
  rw [RegularExpression.matches'_add, Language.mem_add]

theorem mem_matches_one {w : List α} : w ∈ (1 : RegularExpression α).matches' ↔ w = [] := by
  rw [RegularExpression.matches'_epsilon, Language.mem_one]

theorem mem_matches_char {a : α} {w : List α} :
    w ∈ (RegularExpression.char a).matches' ↔ w = [a] := Iff.rfl

theorem mem_oneOf {cs w : List α} : w ∈ (oneOf cs).matches' ↔ ∃ c ∈ cs, w = [c] := by
  induction cs with
  | nil =>
    simp only [List.not_mem_nil, false_and, exists_false, iff_false]
    exact Language.notMem_zero w
  | cons c cs ih =>
    rw [oneOf, List.map_cons, List.sum_cons, mem_matches_add, ← oneOf, ih, mem_matches_char]
    simp

theorem mem_word {cs w : List α} : w ∈ (word cs).matches' ↔ w = cs := by
  induction cs generalizing w with
  | nil => exact mem_matches_one
  | cons c cs ih =>
    rw [word, List.map_cons, List.prod_cons, mem_matches_mul, ← word]
    constructor
    · rintro ⟨u, hu, v, hv, rfl⟩
      rw [mem_matches_char.1 hu, ih.1 hv, List.singleton_append]
    · rintro rfl
      exact ⟨[c], mem_matches_char.2 rfl, cs, ih.2 rfl, rfl⟩

theorem mem_star_oneOf {cs w : List α} : w ∈ (oneOf cs).star.matches' ↔ ∀ c ∈ w, c ∈ cs := by
  rw [RegularExpression.matches'_star, Language.mem_kstar]
  constructor
  · rintro ⟨ws, rfl, hws⟩ c hc
    obtain ⟨u, hu, hc⟩ := List.mem_flatten.1 hc
    obtain ⟨d, hd, rfl⟩ := mem_oneOf.1 (hws u hu)
    rw [List.mem_singleton.1 hc]
    exact hd
  · intro h
    refine ⟨w.map fun c => [c], by simp [← List.flatMap_def], fun u hu => ?_⟩
    obtain ⟨c, hc, rfl⟩ := List.mem_map.1 hu
    exact mem_oneOf.2 ⟨c, h c hc, rfl⟩

theorem mem_pow_oneOf {cs w : List α} {n : ℕ} :
    w ∈ (oneOf cs ^ n).matches' ↔ w.length = n ∧ ∀ c ∈ w, c ∈ cs := by
  induction n generalizing w with
  | zero =>
    rw [RegularExpression.matches'_pow, pow_zero, Language.mem_one, List.length_eq_zero_iff]
    refine ⟨fun h => ⟨h, by simp [h]⟩, fun h => h.1⟩
  | succ n ih =>
    rw [RegularExpression.matches'_pow, pow_succ', ← RegularExpression.matches'_pow,
      Language.mem_mul]
    constructor
    · rintro ⟨u, hu, v, hv, rfl⟩
      obtain ⟨c, hc, rfl⟩ := mem_oneOf.1 hu
      obtain ⟨hlen, hv⟩ := ih.1 hv
      exact ⟨by simp [hlen], List.forall_mem_cons.2 ⟨hc, hv⟩⟩
    · rintro ⟨hlen, hw⟩
      rcases w with _ | ⟨c, w⟩
      · simp at hlen
      · obtain ⟨hc, hw⟩ := List.forall_mem_cons.1 hw
        exact ⟨[c], mem_oneOf.2 ⟨c, hc, rfl⟩, w, ih.2 ⟨by simpa using hlen, hw⟩, rfl⟩

theorem mem_atMost_oneOf {cs w : List α} {n : ℕ} :
    w ∈ ((1 + oneOf cs) ^ n).matches' ↔ w.length ≤ n ∧ ∀ c ∈ w, c ∈ cs := by
  induction n generalizing w with
  | zero =>
    rw [RegularExpression.matches'_pow, pow_zero, Language.mem_one, Nat.le_zero, List.length_eq_zero_iff]
    refine ⟨fun h => ⟨h, by simp [h]⟩, fun h => h.1⟩
  | succ n ih =>
    rw [RegularExpression.matches'_pow, pow_succ', ← RegularExpression.matches'_pow,
      Language.mem_mul]
    constructor
    · rintro ⟨u, hu, v, hv, rfl⟩
      obtain ⟨hlen, hv⟩ := ih.1 hv
      rcases mem_matches_add.1 hu with hu | hu
      · rw [mem_matches_one.1 hu]
        exact ⟨hlen.trans (Nat.le_succ n), hv⟩
      · obtain ⟨c, hc, rfl⟩ := mem_oneOf.1 hu
        exact ⟨by simpa using hlen, List.forall_mem_cons.2 ⟨hc, hv⟩⟩
    · rintro ⟨hlen, hw⟩
      rcases w with _ | ⟨c, w⟩
      · exact ⟨[], mem_matches_add.2 (.inl (mem_matches_one.2 rfl)), [],
          ih.2 ⟨Nat.zero_le n, by simp⟩, rfl⟩
      · obtain ⟨hc, hw⟩ := List.forall_mem_cons.1 hw
        exact ⟨[c], mem_matches_add.2 (.inr (mem_oneOf.2 ⟨c, hc, rfl⟩)), w,
          ih.2 ⟨by simpa using hlen, hw⟩, rfl⟩

theorem mem_between_oneOf {cs w : List α} {lo extra : ℕ} :
    w ∈ (between (oneOf cs) lo extra).matches' ↔
      lo ≤ w.length ∧ w.length ≤ lo + extra ∧ ∀ c ∈ w, c ∈ cs := by
  rw [between, mem_matches_mul]
  constructor
  · rintro ⟨u, hu, v, hv, rfl⟩
    obtain ⟨hlu, hu⟩ := mem_pow_oneOf.1 hu
    obtain ⟨hlv, hv⟩ := mem_atMost_oneOf.1 hv
    rw [List.length_append]
    exact ⟨by omega, by omega, List.forall_mem_append.2 ⟨hu, hv⟩⟩
  · rintro ⟨hlo, hhi, hw⟩
    refine ⟨w.take lo, mem_pow_oneOf.2 ⟨by simpa using hlo, fun c hc => hw c (List.mem_of_mem_take hc)⟩,
      w.drop lo, mem_atMost_oneOf.2 ⟨by simp; omega, fun c hc => hw c (List.mem_of_mem_drop hc)⟩,
      List.take_append_drop lo w⟩

end Pattern
