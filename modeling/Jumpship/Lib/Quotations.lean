import Mathlib.Data.List.Infix

/-!
# Quotations in a text

A text made of quotations, each between two marks, and of other characters. A word without the mark
that is found in such a text stands in one of its quotations, or has only other characters.
-/

namespace Quotations

variable {α : Type*} {mark : α} {other : Set α} {bodies bodies' : Set (List α)}

inductive Made (mark : α) (other : Set α) (bodies : Set (List α)) : List α → Prop
  | nil : Made mark other bodies []
  | other {c : α} {t : List α} (hc : c ∈ other) (h : Made mark other bodies t) :
      Made mark other bodies (c :: t)
  | quotation {body t : List α} (hbody : body ∈ bodies) (h : Made mark other bodies t) :
      Made mark other bodies (mark :: (body ++ mark :: t))

namespace Made

theorem append {s t : List α} (hs : Made mark other bodies s) (ht : Made mark other bodies t) :
    Made mark other bodies (s ++ t) := by
  induction hs with
  | nil => exact ht
  | other hc _ ih => exact .other hc ih
  | quotation hbody _ ih =>
    rw [List.cons_append, List.append_assoc, List.cons_append]
    exact .quotation hbody ih

theorem of_forall {t : List α} (h : ∀ c ∈ t, c ∈ other) : Made mark other bodies t := by
  induction t with
  | nil => exact .nil
  | cons c t ih =>
    obtain ⟨hc, ht⟩ := List.forall_mem_cons.1 h
    exact .other hc (ih ht)

theorem single {body : List α} (h : body ∈ bodies) :
    Made mark other bodies (mark :: (body ++ [mark])) := .quotation h .nil

theorem mono {t : List α} (hsub : bodies ⊆ bodies') (h : Made mark other bodies t) :
    Made mark other bodies' t := by
  induction h with
  | nil => exact .nil
  | other hc _ ih => exact .other hc ih
  | quotation hbody _ ih => exact .quotation (hsub hbody) ih

theorem intercalate {sep : List α} {parts : List (List α)} (hsep : ∀ c ∈ sep, c ∈ other)
    (h : ∀ p ∈ parts, Made mark other bodies p) :
    Made mark other bodies (sep.intercalate parts) := by
  induction parts with
  | nil => exact .nil
  | cons p parts ih =>
    obtain ⟨hp, hparts⟩ := List.forall_mem_cons.1 h
    cases parts with
    | nil => simpa using hp
    | cons q parts =>
      rw [List.intercalate_cons_cons, List.append_assoc]
      exact hp.append ((of_forall hsep).append (ih hparts))

variable {t w : List α}

theorem eq_nil_of_prefix_mark (hw : w <+: mark :: t) (hmark : mark ∉ w) : w = [] := by
  rcases List.prefix_cons_iff.1 hw with rfl | ⟨w, rfl, -⟩
  · rfl
  · exact absurd List.mem_cons_self hmark

theorem forall_of_isPrefix (h : Made mark other bodies t) (hw : w <+: t) (hmark : mark ∉ w) :
    ∀ c ∈ w, c ∈ other := by
  induction h generalizing w with
  | nil =>
    rw [List.prefix_nil.1 hw]
    simp
  | other hc _ ih =>
    rcases List.prefix_cons_iff.1 hw with rfl | ⟨w, rfl, hrest⟩
    · simp
    · exact List.forall_mem_cons.2 ⟨hc, ih hrest fun hmem => hmark (List.mem_cons_of_mem _ hmem)⟩
  | quotation =>
    rw [eq_nil_of_prefix_mark hw hmark]
    simp

/-- What is found in the text is found in one quotation, or is made of other characters. -/
theorem infix_body (h : Made mark other bodies t) (hw : w <:+: t) (hmark : mark ∉ w) :
    (∃ body ∈ bodies, w <:+: body) ∨ ∀ c ∈ w, c ∈ other := by
  induction h with
  | nil =>
    rw [List.infix_nil.1 hw]
    exact .inr (by simp)
  | other hc h ih =>
    rcases List.infix_cons_iff.1 hw with hw | hw
    · exact .inr ((Made.other hc h).forall_of_isPrefix hw hmark)
    · exact ih hw
  | @quotation body t hbody _ ih =>
    rcases List.infix_cons_iff.1 hw with hw | hw
    · rw [eq_nil_of_prefix_mark hw hmark]
      exact .inr (by simp)
    rcases List.infix_append_iff.1 hw with hw | hw | ⟨w₁, w₂, rfl, hw₁, hw₂⟩
    · exact .inl ⟨body, hbody, hw⟩
    · rcases List.infix_cons_iff.1 hw with hw | hw
      · rw [eq_nil_of_prefix_mark hw hmark]
        exact .inr (by simp)
      · exact ih hw
    · rw [eq_nil_of_prefix_mark hw₂ fun hmem => hmark (List.mem_append_right _ hmem),
        List.append_nil]
      exact .inl ⟨body, hbody, hw₁.isInfix⟩

end Made

end Quotations
