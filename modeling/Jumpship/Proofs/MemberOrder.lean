import Jumpship.Js.Strings
import Jumpship.Lib.Sorting
import Jumpship.Proofs.Canonicalization

/-!
# The order of member names

`utf16Less` compares what `[]rune` and `utf16.Encode` make of two strings. On valid UTF-8 both
steps are injective, so it is the lexicographic order of the code units, as ECMAScript has it, and
a strict total order of the strings themselves.
-/

namespace Canonical

open Unicode Sorting

/-- A valid UTF-8 string. -/
def ValidString : Type := { bytes : List UInt8 // (utf8Decode bytes).isSome }

namespace ValidString

variable {left right : ValidString}

/-- The code points of the string. -/
def text (s : ValidString) : List Char := (utf8Decode s.1).get s.2

/-- The same string in ECMAScript. -/
def units (s : ValidString) : List ℕ := utf16 s.text

def less (left right : ValidString) : Bool := stringLess left.1 right.1

theorem utf8_text (s : ValidString) : utf8 s.text = s.1 :=
  utf8Decode_eq_some.1 (Option.some_get s.2).symm

theorem runes_eq (s : ValidString) : runes s.1 = s.text := by
  rw [← s.utf8_text, runes_utf8]

theorem units_injective : Function.Injective units := by
  intro left right h
  refine Subtype.ext ?_
  rw [← left.utf8_text, ← right.utf8_text, utf16_injective h]

theorem less_iff : less left right = true ↔ left.units < right.units := by
  rw [less, stringLess, utf16Less, unitsLess_iff, runes_eq, runes_eq]
  rfl

instance : IsStrictTotalOrder ValidString fun left right => less left right = true where
  trichotomous left right hlr hrl := by
    rw [less_iff, not_lt] at hlr hrl
    exact units_injective (le_antisymm hrl hlr)
  irrefl s h := lt_irrefl _ (less_iff.1 h)
  trans _ _ _ h h' := less_iff.2 ((less_iff.1 h).trans (less_iff.1 h'))

end ValidString

/-- The first units that differ decide, and the lengths where none do. -/
theorem lessThan_iff : ∀ px py : List ℕ, Js.lessThan px py = true ↔ px < py
  | [], [] => by simp [Js.lessThan]
  | [], _ :: _ => by simp [Js.lessThan]
  | _ :: _, [] => by simp [Js.lessThan]
  | x :: px, y :: py => by
    have ih := lessThan_iff px py
    rw [Js.lessThan, List.zip_cons_cons, List.cons_lt_cons_iff]
    by_cases h : x = y
    · subst h
      rw [Js.lessThan] at ih
      simpa using ih
    · simp [h]

/-- The default comparison of two strings, by the order of their units. -/
theorem sortCompare_spec (x y : List ℕ) :
    (Js.sortCompare x y = .lt ↔ x < y) ∧ (Js.sortCompare x y = .eq ↔ x = y) ∧
      (Js.sortCompare x y = .gt ↔ y < x) := by
  rw [Js.sortCompare]
  simp only [lessThan_iff]
  rcases lt_trichotomy x y with h | rfl | h
  · simp [h, h.ne, h.not_gt]
  · simp
  · simp [h, h.ne', h.not_gt]

namespace ValidString

def ofText (s : List Char) : ValidString := ⟨utf8 s, by simp⟩

theorem units_ofText (s : List Char) : (ofText s).units = utf16 s := by
  have htext : (ofText s).text = s := utf8_injective (utf8_text _)
  rw [units, htext]

theorem less_ofText (s t : List Char) : (ofText s).less (ofText t) = utf16Less s t := by
  rw [Bool.eq_iff_iff, less_iff, units_ofText, units_ofText, utf16Less, unitsLess_iff]

/-- The names of the members as they are written. -/
theorem sorts_names {α : Type} (ms : List (List Char × α)) :
    Sorts less ((Json.names ms).map ofText)
      ((Json.names (Json.sortByName KeyLE ms)).map ofText) where
  perm := (Json.perm_names_sortByName KeyLE ms).map ofText
  ordered := by
    rw [List.pairwise_map, Json.names, List.pairwise_map]
    refine (Json.pairwise_sortByName KeyLE ms).imp fun {m n} h => ?_
    rw [less_ofText]
    exact h

end ValidString

open ValidString in
/-- A strict total order, and ECMAScript's: a sort by it has one result whatever order the names
are delivered in, and `appendCanonical` writes the members in that order. -/
theorem utf16Less_total_order :
    IsStrictTotalOrder ValidString (fun left right => left.less right = true) ∧
      (∀ left right : ValidString,
        (left.less right = true ↔ Js.sortCompare left.units right.units = .lt) ∧
          (left = right ↔ Js.sortCompare left.units right.units = .eq) ∧
          (right.less left = true ↔ Js.sortCompare left.units right.units = .gt)) ∧
      (∀ keys : List ValidString, ∃ sorted, ∀ delivered : List ValidString, delivered.Perm keys →
        ∀ result, Sorts less delivered result ↔ result = sorted) ∧
      ∀ (ms : List (List Char × List Char)) (result : List ValidString),
        Sorts less ((Json.names ms).map ofText) result ↔
          result = (Json.names (Json.sortByName KeyLE ms)).map ofText := by
  refine ⟨inferInstance, fun left right => ?_, exists_sorts_iff, fun ms result => ?_⟩
  · obtain ⟨hlt, heq, hgt⟩ := sortCompare_spec left.units right.units
    rw [hlt, heq, hgt, less_iff, less_iff]
    exact ⟨Iff.rfl, units_injective.eq_iff.symm, Iff.rfl⟩
  · constructor
    · exact fun h => sorts_unique h (sorts_names ms)
    · rintro rfl
      exact sorts_names ms

end Canonical
