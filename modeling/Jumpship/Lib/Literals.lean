import Jumpship.Lib.JsonText

/-!
# String literals as they are written

The characters and escapes between the quotes of a string literal, before any of them is decoded,
and the surrogates among them that no neighbour pairs.
-/

namespace JsonText

open Unicode

/-! ## Pieces -/

section Pieces

/-- A character or an escape of a string literal. -/
inductive Piece where
  | plain (c : Char)
  | escape (u : ℕ)
  /-- A `\u` escape, with the code unit it writes. -/
  | unicode (u : ℕ)
deriving DecidableEq

/-- `PiecesOf t ps r`: `t` is the rest of a string literal written as `ps`, its closing quote and
then `r`. -/
inductive PiecesOf : List Char → List Piece → List Char → Prop
  | close (r : List Char) : PiecesOf ('"' :: r) [] r
  | plain {c : Char} {t : List Char} {ps : List Piece} {r : List Char} :
      IsPlain c → PiecesOf t ps r → PiecesOf (c :: t) (.plain c :: ps) r
  | escape {e : Char} {u : ℕ} {t : List Char} {ps : List Piece} {r : List Char} :
      simpleEscape? e = some u → PiecesOf t ps r → PiecesOf ('\\' :: e :: t) (.escape u :: ps) r
  | unicode {a b c d : Char} {u : ℕ} {t : List Char} {ps : List Piece} {r : List Char} :
      hex4 a b c d = some u → PiecesOf t ps r →
      PiecesOf ('\\' :: 'u' :: a :: b :: c :: d :: t) (.unicode u :: ps) r

def Piece.units : Piece → List ℕ
  | .plain c => utf16Char c
  | .escape u | .unicode u => [u]

theorem PiecesOf.stringBody {t r : List Char} {ps : List Piece} (h : PiecesOf t ps r) :
    StringBody t (ps.flatMap Piece.units) r := by
  induction h with
  | close r => exact .close r
  | plain hc _ ih => exact .plain hc ih
  | escape he _ ih => exact .escape he ih
  | unicode hx _ ih => exact .unicode hx ih

/-- A simple escape writes no surrogate. -/
def Piece.Simple : Piece → Prop
  | .escape u => u < 0x80
  | .plain _ | .unicode _ => True

theorem PiecesOf.simple {t r : List Char} {ps : List Piece} (h : PiecesOf t ps r) :
    ∀ p ∈ ps, p.Simple := by
  induction h with
  | close => simp
  | plain _ _ ih => exact List.forall_mem_cons.2 ⟨trivial, ih⟩
  | escape he _ ih => exact List.forall_mem_cons.2 ⟨simpleEscape?_lt he, ih⟩
  | unicode _ _ ih => exact List.forall_mem_cons.2 ⟨trivial, ih⟩

end Pieces

/-! ## Lone surrogates -/

section Surrogates

/-- Some `\u` escape writes a surrogate that is not part of a high and a low one that adjacent
escapes write in this order. -/
def LoneEscape (ps : List Piece) : Prop :=
  ∃ before u after, ps = before ++ .unicode u :: after ∧
    ((isHighSurrogate u = true ∧ ∀ v rest, after = .unicode v :: rest → isLowSurrogate v = false) ∨
      (isLowSurrogate u = true ∧
        ∀ front v, before = front ++ [.unicode v] → isHighSurrogate v = false))

theorem isLowSurrogate_of_high {u : ℕ} (h : isHighSurrogate u = true) : isLowSurrogate u = false := by
  simp only [isHighSurrogate, isLowSurrogate, Bool.and_eq_true, Bool.and_eq_false_iff,
    decide_eq_true_eq, decide_eq_false_iff_not] at h ⊢
  omega

theorem not_loneEscape_nil : ¬ LoneEscape [] := by
  rintro ⟨before, u, after, h, -⟩
  exact List.append_ne_nil_of_right_ne_nil before (List.cons_ne_nil _ _) h.symm

/-- A low surrogate at the start of a literal is lone. -/
theorem loneEscape_low {u : ℕ} (h : isLowSurrogate u = true) (ps : List Piece) :
    LoneEscape (.unicode u :: ps) :=
  ⟨[], u, ps, rfl, .inr ⟨h, fun front v heq => (by simp at heq)⟩⟩

theorem loneEscape_high {u : ℕ} {ps : List Piece} (h : isHighSurrogate u = true)
    (hps : ∀ v rest, ps = .unicode v :: rest → isLowSurrogate v = false) :
    LoneEscape (.unicode u :: ps) :=
  ⟨[], u, ps, rfl, .inl ⟨h, hps⟩⟩

/-- What the pieces before a piece that is no high surrogate's escape are does not matter. -/
theorem loneEscape_append {front ps : List Piece} {p : Piece}
    (hp : ∀ v, p = .unicode v → isHighSurrogate v = false) (h : LoneEscape ps) :
    LoneEscape (front ++ p :: ps) := by
  obtain ⟨before, u, after, rfl, hu⟩ := h
  refine ⟨front ++ p :: before, u, after, by simp, hu.imp_right fun ⟨hlow, hbefore⟩ => ?_⟩
  refine ⟨hlow, fun front' v heq => ?_⟩
  rcases List.eq_nil_or_concat before with rfl | ⟨before', q, rfl⟩
  · exact hp v (List.append_inj_right' heq rfl |> List.singleton_inj.1)
  · refine hbefore before' v ?_
    rw [List.concat_eq_append] at heq ⊢
    rw [← List.cons_append, ← List.append_assoc] at heq
    rw [List.append_inj_right' heq rfl]

/-- A piece that is no surrogate's escape is passed over. -/
theorem loneEscape_cons {p : Piece} {ps : List Piece}
    (hp : ∀ v, p = .unicode v → isHighSurrogate v = false ∧ isLowSurrogate v = false) :
    LoneEscape (p :: ps) ↔ LoneEscape ps := by
  refine ⟨?_, @loneEscape_append [] ps p fun v hv => (hp v hv).1⟩
  rintro ⟨before, u, after, h, hu⟩
  rcases before with _ | ⟨q, before⟩
  · obtain ⟨rfl, rfl⟩ := List.cons.inj h
    obtain ⟨hhigh, hlow⟩ := hp u rfl
    rcases hu with ⟨hu, -⟩ | ⟨hu, -⟩
    · rw [hhigh] at hu
      cases hu
    · rw [hlow] at hu
      cases hu
  · obtain ⟨rfl, rfl⟩ := List.cons.inj h
    exact ⟨before, u, after, rfl, hu.imp_right fun ⟨hlow, hbefore⟩ =>
      ⟨hlow, fun front v heq => hbefore (p :: front) v (by rw [heq, List.cons_append])⟩⟩

/-- A high surrogate and a low one are passed over together. -/
theorem loneEscape_pair {u v : ℕ} {ps : List Piece} (hu : isHighSurrogate u = true)
    (hv : isLowSurrogate v = true) :
    LoneEscape (.unicode u :: .unicode v :: ps) ↔ LoneEscape ps := by
  have hvh : isHighSurrogate v = false := by
    by_contra hne
    rw [isLowSurrogate_of_high (by simpa using hne)] at hv
    cases hv
  refine ⟨?_, @loneEscape_append [.unicode u] ps _ fun w hw => by cases hw; exact hvh⟩
  rintro ⟨before, w, after, h, hw⟩
  rcases before with _ | ⟨q, _ | ⟨q', before⟩⟩ <;>
    simp only [List.cons_append, List.nil_append, List.cons.injEq, Piece.unicode.injEq] at h
  · obtain ⟨rfl, rfl⟩ := h
    rcases hw with ⟨-, hw⟩ | ⟨hw, -⟩
    · rw [hw v ps rfl] at hv
      cases hv
    · rw [isLowSurrogate_of_high hu] at hw
      cases hw
  · obtain ⟨rfl, rfl, rfl⟩ := h
    rcases hw with ⟨hw, -⟩ | ⟨-, hw⟩
    · rw [hvh] at hw
      cases hw
    · rw [hw [] u rfl] at hu
      cases hu
  · obtain ⟨rfl, rfl, rfl⟩ := h
    exact ⟨before, w, after, rfl, hw.imp_right fun ⟨hlow, hbefore⟩ =>
      ⟨hlow, fun front x heq => hbefore (.unicode u :: .unicode v :: front) x (by
        rw [heq, List.cons_append, List.cons_append])⟩⟩

end Surrogates

/-! ## The strings of a value -/

section Strings

variable {σ ν : Type}

mutual
/-- The strings a value is written with: its own, or its members' names and theirs. -/
def strings : Json σ ν → List σ
  | .null | .bool _ | .num _ => []
  | .str s => [s]
  | .arr xs => stringsList xs
  | .obj ms => stringsMembers ms
def stringsList : List (Json σ ν) → List σ
  | [] => []
  | x :: xs => strings x ++ stringsList xs
def stringsMembers : List (σ × Json σ ν) → List σ
  | [] => []
  | (k, x) :: ms => k :: (strings x ++ stringsMembers ms)
end

def Symbol.strings : Symbol σ ν → List σ
  | .value v => JsonText.strings v
  | .elements xs => stringsList xs
  | .members ms => stringsMembers ms

end Strings

end JsonText
