import Mathlib.Data.Fintype.Pigeonhole
import Mathlib.Tactic.Choose

/-!
# Chains of links

A partial function takes each node to the next one. Among finitely many nodes a chain either ends,
within as many links as there are nodes, or revisits a node.
-/

namespace Chains

variable {κ : Type*} (parent : κ → Option κ)

/-- The node some links further on. -/
def follow : ℕ → κ → Option κ
  | 0, k => some k
  | n + 1, k => (parent k).bind (follow n)

def Ends (k : κ) : Prop := ∃ n, follow parent n k = none

def Revisits (k : κ) : Prop :=
  ∃ i j node, i < j ∧ follow parent i k = some node ∧ follow parent j k = some node

/-- One node leads to another by one link or more. -/
def Leads (k node : κ) : Prop := ∃ n, follow parent (n + 1) k = some node

variable {parent} {k p node : κ}

theorem follow_add (m n : ℕ) (k : κ) :
    follow parent (m + n) k = (follow parent m k).bind (follow parent n) := by
  induction m generalizing k with
  | zero => rw [Nat.zero_add]; rfl
  | succ m ih =>
    rw [Nat.succ_add, follow, follow]
    cases parent k with
    | none => rfl
    | some p => exact ih p

theorem follow_none_of_le {m n : ℕ} (hmn : m ≤ n) (h : follow parent m k = none) :
    follow parent n k = none := by
  obtain ⟨d, rfl⟩ := Nat.exists_eq_add_of_le hmn
  rw [follow_add, h]
  rfl

theorem ends_of_none (h : parent k = none) : Ends parent k := ⟨1, by rw [follow, h]; rfl⟩

theorem ends_iff_of_some (h : parent k = some p) : Ends parent k ↔ Ends parent p := by
  have hstep : ∀ n, follow parent (n + 1) k = follow parent n p := fun n => by rw [follow, h]; rfl
  constructor
  · rintro ⟨n, hn⟩
    exact ⟨n, hstep n ▸ follow_none_of_le (Nat.le_succ n) hn⟩
  · rintro ⟨n, hn⟩
    exact ⟨n + 1, (hstep n).trans hn⟩

theorem leads_of_some (h : parent k = some p) : Leads parent k p := ⟨0, by rw [follow, h]; rfl⟩

theorem Leads.step (h : Leads parent k node) (hp : parent node = some p) : Leads parent k p := by
  obtain ⟨n, hn⟩ := h
  refine ⟨n + 1, ?_⟩
  rw [follow_add, hn]
  show follow parent 1 node = some p
  rw [follow, hp]
  rfl

/-- A chain that comes back to a node goes on for ever. -/
theorem not_ends_of_leads (h : Leads parent k k) : ¬ Ends parent k := by
  obtain ⟨d, hd⟩ := h
  have hround : ∀ m, follow parent (m * (d + 1)) k = some k := by
    intro m
    induction m with
    | zero => rw [Nat.zero_mul]; rfl
    | succ m ih => rw [Nat.succ_mul, follow_add, ih]; exact hd
  rintro ⟨n, hn⟩
  have hle : n ≤ n * (d + 1) := Nat.le_mul_of_pos_right n d.succ_pos
  have hcome := hround n
  rw [follow_none_of_le hle hn] at hcome
  cases hcome

theorem ends_of_follow {n : ℕ} (h : follow parent n k = some node) :
    Ends parent k ↔ Ends parent node := by
  have hshift : ∀ m, follow parent (n + m) k = follow parent m node := fun m => by
    rw [follow_add, h]; rfl
  constructor
  · rintro ⟨m, hm⟩
    exact ⟨m, hshift m ▸ follow_none_of_le (Nat.le_add_left m n) hm⟩
  · rintro ⟨m, hm⟩
    exact ⟨n + m, (hshift m).trans hm⟩

theorem Revisits.not_ends (h : Revisits parent k) : ¬ Ends parent k := by
  obtain ⟨i, j, node, hij, hi, hj⟩ := h
  rw [ends_of_follow hi]
  refine not_ends_of_leads ⟨j - i - 1, ?_⟩
  have hsplit : j = i + (j - i - 1 + 1) := by omega
  rw [hsplit, follow_add, hi] at hj
  exact hj

section Finite

variable {nodes : Finset κ}

theorem mem_of_follow (hclosed : ∀ k ∈ nodes, ∀ p, parent k = some p → p ∈ nodes) {n : ℕ}
    (hk : k ∈ nodes) (h : follow parent n k = some node) : node ∈ nodes := by
  induction n generalizing k with
  | zero => exact Option.some.inj h ▸ hk
  | succ n ih =>
    obtain ⟨p, hp, h⟩ := Option.bind_eq_some_iff.1 h
    exact ih (hclosed k hk p hp) h

/-- Among finitely many nodes a chain ends in time or revisits a node. -/
theorem ends_or_revisits (hclosed : ∀ k ∈ nodes, ∀ p, parent k = some p → p ∈ nodes)
    (hk : k ∈ nodes) : follow parent nodes.card k = none ∨ Revisits parent k := by
  by_cases hlast : follow parent nodes.card k = none
  · exact .inl hlast
  have hsome : ∀ n ∈ Finset.range (nodes.card + 1), ∃ node, follow parent n k = some node := by
    intro n hn
    refine Option.ne_none_iff_exists'.1 fun hnone => hlast ?_
    exact follow_none_of_le (Nat.lt_succ_iff.1 (Finset.mem_range.1 hn)) hnone
  have : Nonempty κ := ⟨k⟩
  choose! visit hvisit using hsome
  obtain ⟨i, hi, j, hj, hne, heq⟩ := Finset.exists_ne_map_eq_of_card_lt_of_maps_to
    (by rw [Finset.card_range]; exact Nat.lt_succ_self _)
    fun n hn => mem_of_follow hclosed hk (hvisit n hn)
  rcases lt_or_gt_of_ne hne with hlt | hlt
  · exact .inr ⟨i, j, _, hlt, hvisit i hi, heq ▸ hvisit j hj⟩
  · exact .inr ⟨j, i, _, hlt, hvisit j hj, heq ▸ hvisit i hi⟩

theorem ends_iff_not_revisits (hclosed : ∀ k ∈ nodes, ∀ p, parent k = some p → p ∈ nodes)
    (hk : k ∈ nodes) : Ends parent k ↔ ¬ Revisits parent k := by
  refine ⟨fun h hr => hr.not_ends h, fun h => ?_⟩
  exact ⟨_, (ends_or_revisits hclosed hk).resolve_right h⟩

theorem follow_card_of_ends (hclosed : ∀ k ∈ nodes, ∀ p, parent k = some p → p ∈ nodes)
    (hk : k ∈ nodes) (h : Ends parent k) : follow parent nodes.card k = none :=
  (ends_or_revisits hclosed hk).resolve_right fun hr => hr.not_ends h

end Finite

end Chains
