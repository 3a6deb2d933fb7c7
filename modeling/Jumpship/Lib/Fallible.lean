import Mathlib

/-!
# Computations that may throw

What the answer of a `do` block says about its steps.
-/

namespace Fallible

variable {ε α β : Type}

theorem bind_eq_ok {x : Except ε α} {f : α → Except ε β} {b : β} :
    x >>= f = .ok b ↔ ∃ a, x = .ok a ∧ f a = .ok b := by
  cases x with
  | error e =>
    refine iff_of_false (fun h => nomatch h) ?_
    rintro ⟨a, ha, -⟩
    cases ha
  | ok a => exact ⟨fun h => ⟨a, rfl, h⟩, fun ⟨a', ha, h⟩ => Except.ok.inj ha ▸ h⟩

theorem pure_eq_ok {a b : α} : (pure a : Except ε α) = .ok b ↔ a = b :=
  ⟨fun h => Except.ok.inj h, fun h => h ▸ rfl⟩

theorem throw_ne_ok {e : ε} {b : α} : (throw e : Except ε α) ≠ .ok b := fun h => nomatch h

/-- `if p then throw e` before the rest of a block. -/
theorem unless_eq_ok {p : Prop} [Decidable p] {e : ε} {rest : Unit → Except ε β} {b : β} :
    (if p then throw e >>= rest else rest ()) = .ok b ↔ ¬ p ∧ rest () = .ok b := by
  by_cases h : p
  · rw [if_pos h]
    exact iff_of_false (fun h => nomatch h) fun hnot => hnot.1 h
  · rw [if_neg h]
    exact ⟨fun hrest => ⟨h, hrest⟩, fun hrest => hrest.2⟩

theorem ite_throw_eq_ok {p : Prop} [Decidable p] {e : ε} {x : Except ε α} {b : α} :
    (if p then throw e else x) = .ok b ↔ ¬ p ∧ x = .ok b := by
  by_cases h : p
  · rw [if_pos h]
    exact iff_of_false throw_ne_ok fun hnot => hnot.1 h
  · rw [if_neg h]
    exact ⟨fun hx => ⟨h, hx⟩, fun hx => hx.2⟩

theorem mapM_eq_ok {f : α → Except ε β} {xs : List α} {ys : List β} :
    xs.mapM f = .ok ys ↔ List.Forall₂ (fun x y => f x = .ok y) xs ys := by
  induction xs generalizing ys with
  | nil =>
    rw [List.mapM_nil, List.forall₂_nil_left_iff]
    exact pure_eq_ok.trans eq_comm
  | cons x xs ih =>
    rw [List.mapM_cons]
    simp only [bind_eq_ok, pure_eq_ok, List.forall₂_cons_left_iff, ih]
    constructor
    · rintro ⟨y, hy, ys', hys, rfl⟩
      exact ⟨y, ys', hy, hys, rfl⟩
    · rintro ⟨y, ys', hy, hys, rfl⟩
      exact ⟨y, hy, ys', hys, rfl⟩

theorem exists_of_forall₂ {R : α → β → Prop} {xs : List α} {ys : List β}
    (h : List.Forall₂ R xs ys) : ∀ x ∈ xs, ∃ y ∈ ys, R x y := by
  induction h with
  | nil => exact fun x hx => absurd hx List.not_mem_nil
  | cons hxy _ ih =>
    rw [List.forall_mem_cons]
    refine ⟨⟨_, List.mem_cons_self, hxy⟩, fun x hx => ?_⟩
    obtain ⟨y, hy, hR⟩ := ih x hx
    exact ⟨y, List.mem_cons_of_mem _ hy, hR⟩

theorem exists_of_mapM_eq_ok {f : α → Except ε β} {xs : List α} {ys : List β}
    (h : xs.mapM f = .ok ys) : ∀ x ∈ xs, ∃ y ∈ ys, f x = .ok y :=
  exists_of_forall₂ (mapM_eq_ok.1 h)

/-- A step that knows its index and does not depend on it. -/
theorem mapM_zipIdx_eq_ok {f : ℕ → α → Except ε β} {P : α → β → Prop}
    (h : ∀ i x y, f i x = .ok y ↔ P x y) {xs : List α} {ys : List β} {k : ℕ} :
    (xs.zipIdx k).mapM (fun x => f x.2 x.1) = .ok ys ↔ List.Forall₂ P xs ys := by
  simp only [mapM_eq_ok, h]
  induction xs generalizing ys k with
  | nil => rw [List.zipIdx_nil, List.forall₂_nil_left_iff, List.forall₂_nil_left_iff]
  | cons x xs ih => simp only [List.zipIdx_cons, List.forall₂_cons_left_iff, ih]

/-! ## Collecting -/

/-- One element for each entry, checked against those before it. -/
def collect (f : List β → α → Except ε β) (xs : List α) : Except ε (List β) :=
  xs.foldlM (fun ys x => do
    let y ← f ys x
    pure (ys ++ [y])) []

theorem collect_append (f : List β → α → Except ε β) {xs : List α} {ys zs : List β}
    (h : xs.foldlM (fun ys x => do
      let y ← f ys x
      pure (ys ++ [y])) ys = .ok zs) :
    ∃ new, zs = ys ++ new ∧ new.length = xs.length ∧
      ∀ front y back, new = front ++ y :: back → ∃ x ∈ xs, f (ys ++ front) x = .ok y := by
  induction xs generalizing ys with
  | nil =>
    obtain rfl := pure_eq_ok.1 h
    exact ⟨[], (List.append_nil _).symm, rfl, by simp⟩
  | cons x xs ih =>
    simp only [List.foldlM_cons, bind_eq_ok, pure_eq_ok] at h
    obtain ⟨_, ⟨y, hy, rfl⟩, h⟩ := h
    obtain ⟨new, rfl, hlen, hnew⟩ := ih h
    refine ⟨y :: new, by simp, by simp [hlen], fun front z back heq => ?_⟩
    cases front with
    | nil =>
      obtain ⟨rfl, -⟩ := List.cons.inj heq
      exact ⟨x, List.mem_cons_self, by simpa using hy⟩
    | cons z' front =>
      obtain ⟨rfl, rfl⟩ := List.cons.inj heq
      obtain ⟨x', hx', hf⟩ := hnew front z back rfl
      exact ⟨x', List.mem_cons_of_mem _ hx', by simpa using hf⟩

/-- Each element was checked against the ones in front of it. -/
theorem collect_spec {f : List β → α → Except ε β} {xs : List α} {ys : List β}
    (h : collect f xs = .ok ys) : ys.length = xs.length ∧
      ∀ front y back, ys = front ++ y :: back → ∃ x ∈ xs, f front x = .ok y := by
  obtain ⟨new, rfl, hlen, hnew⟩ := collect_append f h
  exact ⟨hlen, hnew⟩

/-- Elements whose keys are new, each to those before it, have different keys. -/
theorem nodup_map_of_new {g : β → α} {ys : List β}
    (h : ∀ front y back, ys = front ++ y :: back → g y ∉ front.map g) : (ys.map g).Nodup := by
  induction ys using List.reverseRecOn with
  | nil => exact List.nodup_nil
  | append_singleton ys y ih =>
    rw [List.map_append, List.map_singleton, List.nodup_append_comm, List.singleton_append,
      List.nodup_cons]
    refine ⟨h ys y [] rfl, ih fun front z back heq => h front z (back ++ [y]) ?_⟩
    rw [heq, List.append_assoc, List.cons_append]

end Fallible
