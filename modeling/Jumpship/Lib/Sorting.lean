import Mathlib.Data.List.Sort

/-!
# Sorting by a test

What a sort by a test `less` may leave: the elements it was given, none of them less than one
before it. When the test is a strict total order there is exactly one such list, so an unstable
sort, handed the elements in any order, has one result.
-/

namespace Sorting

variable {α : Type} {less : α → α → Bool}

variable (less) in
/-- What a sort by `less` may leave of a list. -/
structure Sorts (input output : List α) : Prop where
  perm : output.Perm input
  ordered : output.Pairwise fun a b => less b a = false

variable [IsStrictTotalOrder α fun a b => less a b = true]

theorem eq_of_not_less {a b : α} (hab : less a b = false) (hba : less b a = false) : a = b :=
  Std.Trichotomous.trichotomous (r := fun a b => less a b = true) a b (by simp [hab]) (by simp [hba])

theorem asymm_less {a b : α} (h : less a b = true) : less b a = false :=
  Bool.eq_false_iff.2 fun h' =>
    irrefl (r := fun a b => less a b = true) a (IsTrans.trans (r := fun a b => less a b = true) _ _ _ h h')

theorem sorts_insertionSort (keys : List α) :
    Sorts less keys (keys.insertionSort fun a b => less b a = false) := by
  have htotal : Std.Total fun a b : α => less b a = false := by
    refine ⟨fun a b => ?_⟩
    by_cases h : less b a = true
    · exact .inr (asymm_less h)
    · exact .inl (Bool.eq_false_iff.2 h)
  have htrans : IsTrans α fun a b : α => less b a = false := by
    refine ⟨fun a b c hba hcb => Bool.eq_false_iff.2 fun hca => ?_⟩
    by_cases hab : less a b = true
    · have hcb' : less c b = true := IsTrans.trans (r := fun a b => less a b = true) _ _ _ hca hab
      exact absurd hcb (by simp [hcb'])
    · obtain rfl := eq_of_not_less (Bool.eq_false_iff.2 hab) hba
      exact absurd hcb (by simp [hca])
  exact ⟨List.perm_insertionSort _ _, List.pairwise_insertionSort _ _⟩

theorem sorts_unique {keys l l' : List α} (h : Sorts less keys l) (h' : Sorts less keys l') : l = l' := by
  refine (h.perm.trans h'.perm.symm).eq_of_pairwise (fun a b _ _ hba hab => ?_) h.ordered h'.ordered
  exact eq_of_not_less hab hba

/-- The order in which the elements are delivered does not show. -/
theorem exists_sorts_iff (keys : List α) : ∃ sorted, ∀ delivered : List α, delivered.Perm keys →
    ∀ result, Sorts less delivered result ↔ result = sorted := by
  have hsorted : Sorts less keys _ := sorts_insertionSort keys
  refine ⟨keys.insertionSort fun a b => less b a = false, fun delivered hdelivered result => ⟨fun h => ?_, ?_⟩⟩
  · exact sorts_unique ⟨h.perm.trans hdelivered, h.ordered⟩ hsorted
  · rintro rfl
    exact ⟨hsorted.perm.trans hdelivered.symm, hsorted.ordered⟩

end Sorting
