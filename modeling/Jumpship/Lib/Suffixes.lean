import Mathlib

/-!
# Names with a suffix where they are taken

Items come with a name of their own and a name to take instead when that one is used. The second is
not checked again, so the names are distinct exactly when no item has both of them taken by the items
before it.
-/

namespace Suffixes

variable {α : Type} [DecidableEq α] {items front back : List (α × α)} {item : α × α} {a : α}

def name (used : List α) (item : α × α) : α := if item.1 ∈ used then item.2 else item.1

theorem name_eq_contains [BEq α] [LawfulBEq α] (used : List α) (own other : α) :
    name used (own, other) = if used.contains own then other else own := by
  rw [name]
  by_cases h : own ∈ used
  · rw [if_pos h, if_pos (List.contains_iff_mem.2 h)]
  · rw [if_neg h, if_neg (List.contains_iff_mem.not.2 h)]

/-- The names of the items, with `used` taken before them. -/
def assignFrom (used : List α) : List (α × α) → List α
  | [] => []
  | item :: items => name used item :: assignFrom (used ++ [name used item]) items

def assign (items : List (α × α)) : List α := assignFrom [] items

theorem assignFrom_append (used : List α) (items items' : List (α × α)) :
    assignFrom used (items ++ items') =
      assignFrom used items ++ assignFrom (used ++ assignFrom used items) items' := by
  induction items generalizing used with
  | nil => rw [List.nil_append, assignFrom, List.append_nil, List.nil_append]
  | cons item items ih =>
    rw [List.cons_append, assignFrom, ih, assignFrom, List.cons_append, List.append_assoc,
      List.singleton_append]

theorem assign_concat (items : List (α × α)) (item : α × α) :
    assign (items ++ [item]) = assign items ++ [name (assign items) item] := by
  rw [assign, assignFrom_append]
  rfl

/-- Every name given is one of the item's two. -/
theorem mem_assignFrom {used : List α} (h : a ∈ assignFrom used items) :
    ∃ item ∈ items, a = item.1 ∨ a = item.2 := by
  induction items generalizing used with
  | nil => cases h
  | cons item items ih =>
    rcases List.mem_cons.1 h with rfl | h
    · refine ⟨item, List.mem_cons_self, ?_⟩
      rw [name]
      split_ifs
      · exact .inr rfl
      · exact .inl rfl
    · obtain ⟨item', hmem, heq⟩ := ih h
      exact ⟨item', List.mem_cons_of_mem _ hmem, heq⟩

/-- A text that the items take: the own name of one of them, or the other name of one whose own is
taken by those before it. -/
inductive Taken : List (α × α) → α → Prop
  | own (front : List (α × α)) (item : α × α) (back : List (α × α)) :
      Taken (front ++ item :: back) item.1
  | other (front : List (α × α)) (item : α × α) (back : List (α × α)) (h : Taken front item.1) :
      Taken (front ++ item :: back) item.2

omit [DecidableEq α] in
theorem taken_concat :
    Taken (items ++ [item]) a ↔ Taken items a ∨ a = item.1 ∨ Taken items item.1 ∧ a = item.2 := by
  have hsplit : ∀ {front back : List (α × α)} {x : α × α}, front ++ x :: back = items ++ [item] →
      (front = items ∧ x = item) ∨ ∃ back', items = front ++ x :: back' := by
    intro front back x h
    rcases List.eq_nil_or_concat back with rfl | ⟨back, z, rfl⟩
    · obtain ⟨rfl, hx⟩ := List.append_inj' h rfl
      exact .inl ⟨rfl, (List.cons.inj hx).1⟩
    · rw [List.concat_eq_append, ← List.cons_append, ← List.append_assoc] at h
      exact .inr ⟨back, (List.append_inj' h rfl).1.symm⟩
  constructor
  · intro h
    generalize hitems : items ++ [item] = all at h
    cases h with
    | own front x back =>
      rcases hsplit hitems.symm with ⟨-, rfl⟩ | ⟨back', rfl⟩
      · exact .inr (.inl rfl)
      · exact .inl (.own front x back')
    | other front x back h =>
      rcases hsplit hitems.symm with ⟨rfl, rfl⟩ | ⟨back', rfl⟩
      · exact .inr (.inr ⟨h, rfl⟩)
      · exact .inl (.other front x back' h)
  · rintro (h | rfl | ⟨h, rfl⟩)
    · cases h with
      | own front x back => simpa using Taken.own front x (back ++ [item])
      | other front x back h => simpa using Taken.other front x (back ++ [item]) h
    · exact .own items item []
    · exact .other items item [] h

theorem mem_assign : a ∈ assign items ↔ Taken items a := by
  induction items using List.reverseRecOn generalizing a with
  | nil =>
    refine iff_of_false (by simp [assign, assignFrom]) fun h => ?_
    generalize hnil : ([] : List (α × α)) = all at h
    cases h <;> simp at hnil
  | append_singleton items item ih =>
    rw [assign_concat, List.mem_append, List.mem_singleton, ih, taken_concat, name]
    by_cases h : Taken items item.1
    · rw [if_pos (ih.2 h)]
      constructor
      · rintro (ha | rfl)
        · exact .inl ha
        · exact .inr (.inr ⟨h, rfl⟩)
      · rintro (ha | rfl | ⟨-, rfl⟩)
        · exact .inl ha
        · exact .inl h
        · exact .inr rfl
    · rw [if_neg fun hmem => h (ih.1 hmem)]
      exact or_congr_right ⟨.inl, fun ha => ha.resolve_right fun hother => h hother.1⟩

/-- The names are distinct unless an item finds both of its names taken. -/
theorem nodup_assign_iff : (assign items).Nodup ↔
    ∀ front item back, items = front ++ item :: back → Taken front item.1 → ¬ Taken front item.2 := by
  induction items using List.reverseRecOn with
  | nil => exact iff_of_true List.nodup_nil (by simp)
  | append_singleton items item ih =>
    have hname : name (assign items) item ∉ assign items ↔
        (Taken items item.1 → ¬ Taken items item.2) := by
      rw [name]
      by_cases h : Taken items item.1
      · rw [if_pos (mem_assign.2 h), mem_assign]
        exact ⟨fun hnot _ => hnot, fun hnot => hnot h⟩
      · rw [if_neg fun hmem => h (mem_assign.1 hmem), mem_assign]
        exact iff_of_true h fun htaken => absurd htaken h
    rw [assign_concat, List.nodup_append_comm, List.singleton_append, List.nodup_cons, ih, hname]
    constructor
    · rintro ⟨hlast, hall⟩ front x back heq
      rcases List.eq_nil_or_concat back with rfl | ⟨back, z, rfl⟩
      · obtain ⟨rfl, hx⟩ := List.append_inj' heq rfl
        rw [← (List.cons.inj hx).1]
        exact hlast
      · rw [List.concat_eq_append, ← List.cons_append, ← List.append_assoc] at heq
        exact hall front x back (List.append_inj' heq rfl).1
    · intro hall
      refine ⟨hall items item [] rfl, fun front x back heq => hall front x (back ++ [item]) ?_⟩
      rw [heq, List.append_assoc, List.cons_append]

end Suffixes
