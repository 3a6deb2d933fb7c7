import Mathlib

/-!
# Gates and counters of a run

A run is a sequence of states with a step between neighbours. A region that every step keeps or
leaves by one state only is left through that state (`exists_gate`). A counter that advances exactly
where a colour changes is monotone, and strictly so between states of two colours
(`counter_lt_of_ne`).
-/

namespace Runs

variable {σ : Type*} {s : ℕ → σ} {i j : ℕ}

/-- Each state from `i` to `j` steps to the next. -/
def Steps (step : σ → σ → Prop) (s : ℕ → σ) (i j : ℕ) : Prop :=
  ∀ k, i ≤ k → k < j → step (s k) (s (k + 1))

theorem Steps.init {step : σ → σ → Prop} (h : Steps step s i (j + 1)) : Steps step s i j :=
  fun k hi hj => h k hi (by omega)

theorem Steps.mono {step : σ → σ → Prop} {i' j' : ℕ} (h : Steps step s i j) (hi : i ≤ i')
    (hj : j' ≤ j) : Steps step s i' j' :=
  fun k hik hkj => h k (by omega) (by omega)

/-- A run that starts in the region is still in it, or has passed the gate. -/
theorem exists_gate {step : σ → σ → Prop} {region : σ → Prop} {gate : σ}
    (hstep : ∀ a b, step a b → region a → region b ∨ b = gate) (hij : i ≤ j)
    (hs : Steps step s i j) (hi : region (s i)) :
    region (s j) ∨ ∃ k, i < k ∧ k ≤ j ∧ s k = gate := by
  induction j, hij using Nat.le_induction with
  | base => exact .inl hi
  | succ j hij ih =>
    rcases ih hs.init with hj | ⟨k, hik, hkj, hk⟩
    · rcases hstep _ _ (hs j hij (by omega)) hj with h | h
      · exact .inl h
      · exact .inr ⟨j + 1, by omega, le_rfl, h⟩
    · exact .inr ⟨k, hik, by omega, hk⟩

section Counter

variable {γ : Type*} {colour : σ → γ} {counter : ℕ → ℚ}

/-- From `i` to `j` the counter advances by one at each change of colour, and not otherwise. -/
def Counts (colour : σ → γ) (s : ℕ → σ) (counter : ℕ → ℚ) (i j : ℕ) : Prop :=
  ∀ k, i ≤ k → k < j → (colour (s k) = colour (s (k + 1)) → counter (k + 1) = counter k) ∧
    (colour (s k) ≠ colour (s (k + 1)) → counter (k + 1) = counter k + 1)

theorem Counts.init (h : Counts colour s counter i (j + 1)) : Counts colour s counter i j :=
  fun k hi hj => h k hi (by omega)

theorem counter_mono (hij : i ≤ j) (h : Counts colour s counter i j) : counter i ≤ counter j := by
  induction j, hij using Nat.le_induction with
  | base => exact le_rfl
  | succ j hij ih =>
    have hj := h j hij (by omega)
    by_cases hc : colour (s j) = colour (s (j + 1))
    · rw [hj.1 hc]
      exact ih h.init
    · rw [hj.2 hc]
      linarith [ih h.init]

theorem counter_lt_of_ne (hij : i ≤ j) (h : Counts colour s counter i j)
    (hne : colour (s i) ≠ colour (s j)) : counter i < counter j := by
  induction j, hij using Nat.le_induction with
  | base => exact absurd rfl hne
  | succ j hij ih =>
    have hj := h j hij (by omega)
    by_cases hc : colour (s j) = colour (s (j + 1))
    · rw [hj.1 hc]
      exact ih h.init (hc ▸ hne)
    · rw [hj.2 hc]
      linarith [counter_mono hij h.init]

end Counter

end Runs
