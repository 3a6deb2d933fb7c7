import Mathlib.Data.List.Lex
import Mathlib.Data.List.Sort
import Mathlib.Order.Basic
import Jumpship.Py.Text

/-!
# The order of Python strings

`left < right` on `str`, by code points, and `sorted` of a list of ordered values.
-/

namespace Py

theorem Str.codes_injective : Function.Injective Str.codes := by
  have hvalid : ∀ (s : String), ∀ c ∈ s.toList.map Char.toNat, c.isValidChar := by
    intro s c hc
    obtain ⟨c, -, rfl⟩ := List.mem_map.1 hc
    exact c.valid
  have hchar : Function.Injective Char.toNat := fun c d h => Char.ext (UInt32.toNat_inj.1 h)
  intro s t h
  cases s with
  | text s =>
    cases t with
    | text t => rw [String.toList_injective (List.map_injective_iff.2 hchar h)]
    | surrogates codes surrogate =>
      obtain ⟨c, hc, hinvalid⟩ := surrogate
      exact absurd (hvalid s c (show c ∈ (Str.text s).codes from h ▸ hc)) hinvalid
  | surrogates codes surrogate =>
    cases t with
    | text t =>
      obtain ⟨c, hc, hinvalid⟩ := surrogate
      exact absurd (hvalid t c (show c ∈ (Str.text t).codes from h ▸ hc)) hinvalid
    | surrogates codes' surrogate' =>
      obtain rfl : codes = codes' := h
      rfl

instance instLinearOrderStr : LinearOrder Str where
  __ := LinearOrder.lift' Str.codes Str.codes_injective
  toDecidableEq := instDecidableEqStr
  compare_eq_compareOfLessAndEq a b := by
    convert (LinearOrder.lift' Str.codes Str.codes_injective).compare_eq_compareOfLessAndEq a b

section Sorted

variable {α β γ : Type} [LinearOrder γ]

/-- `sorted(xs, key=key)` -/
def sortedBy (key : α → γ) (xs : List α) : List α := xs.insertionSort fun x y => key x ≤ key y

/-- `sorted(xs)` -/
def sorted [LinearOrder α] (xs : List α) : List α := sortedBy id xs

theorem perm_sortedBy (key : α → γ) (xs : List α) : (sortedBy key xs).Perm xs :=
  List.perm_insertionSort _ xs

theorem mem_sortedBy {key : α → γ} {xs : List α} {x : α} : x ∈ sortedBy key xs ↔ x ∈ xs :=
  (perm_sortedBy key xs).mem_iff

theorem pairwise_sortedBy (key : α → γ) (xs : List α) :
    (sortedBy key xs).Pairwise fun x y => key x ≤ key y := by
  have : Std.Total fun x y : α => key x ≤ key y := ⟨fun x y => le_total (key x) (key y)⟩
  have : IsTrans α fun x y => key x ≤ key y := ⟨fun _ _ _ => le_trans⟩
  exact List.pairwise_insertionSort _ xs

theorem mem_sorted [LinearOrder α] {xs : List α} {x : α} : x ∈ sorted xs ↔ x ∈ xs := mem_sortedBy

/-- Sorting a set leaves its members in strict order. -/
theorem pairwise_sorted [LinearOrder α] {xs : List α} (h : xs.Nodup) :
    (sorted xs).Pairwise (· < ·) := by
  have hle := pairwise_sortedBy id xs
  have hne : (sorted xs).Nodup := (perm_sortedBy id xs).nodup_iff.2 h
  exact (hle.and hne).imp fun ⟨hle, hne⟩ => lt_of_le_of_ne hle hne

/-- What is sorted by distinct keys is determined by its keys. -/
theorem map_sortedBy_eq {xs : List α} {ys : List β} {key : α → γ}
    {key' : β → γ} (hkey : (xs.map key).Perm (ys.map key')) :
    (sortedBy key xs).map key = (sortedBy key' ys).map key' := by
  refine @List.Perm.eq_of_pairwise _ (· ≤ ·) _ _ (fun a b _ _ => le_antisymm)
    (List.pairwise_map.2 (pairwise_sortedBy key xs))
    (List.pairwise_map.2 (pairwise_sortedBy key' ys)) ?_
  exact ((perm_sortedBy key xs).map key).trans (hkey.trans ((perm_sortedBy key' ys).map key').symm)

end Sorted

end Py
