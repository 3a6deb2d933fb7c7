import Mathlib.Data.List.Infix

/-!
# Expressions in a workflow's strings

The expressions that stand between `${{` and `}}` in a string, and the contexts an expression
reads. A name is a context's where it is neither a property, behind a dot, nor a function, before
an opening bracket; the letters' case does not matter. Texts are code points.
-/

namespace Expressions

/-! ## The expressions of a string -/

/-- The bodies, from outside of an expression or, with what has been read of its body and whether a
literal is open, from inside. A body that is not closed is none. -/
def bodies : Option (List ℕ × Bool) → List ℕ → List (List ℕ)
  | none, 0x24 :: 0x7B :: 0x7B :: t => bodies (some ([], false)) t
  | none, _ :: t => bodies none t
  | some (body, false), 0x7D :: 0x7D :: t => body :: bodies none t
  | some (body, quoted), c :: t => bodies (some (body ++ [c], if c = 0x27 then !quoted else quoted)) t
  | _, [] => []

def embedded (s : List ℕ) : List (List ℕ) := bodies none s

/-! ## The contexts of an expression -/

def isWhitespace (c : ℕ) : Bool :=
  (9 ≤ c && c ≤ 13) || c = 0x20 || c = 0x85 || c = 0xA0 || c = 0x1680 || (0x2000 ≤ c && c ≤ 0x200A) ||
    c = 0x2028 || c = 0x2029 || c = 0x202F || c = 0x205F || c = 0x3000

/-- `(` `,` `[` `!` `>` `<` `=` `&` `|` -/
def isOpening (c : ℕ) : Bool := [0x28, 0x2C, 0x5B, 0x21, 0x3E, 0x3C, 0x3D, 0x26, 0x7C].contains c

/-- A character that ends a name. -/
def isBoundary (c : ℕ) : Bool :=
  isWhitespace c || isOpening c || c = 0x29 || c = 0x5D || c = 0x2E

/-- What stands before the place. -/
inductive Before where
  | opening
  | dot
  | operand
deriving DecidableEq

inductive Mode where
  | gap (before : Before)
  | literal
  | number
  | name (text : List ℕ) (property : Bool)
deriving DecidableEq

/-- A character outside of names, numbers and literals. -/
def enter (before : Before) (c : ℕ) : Mode :=
  if isWhitespace c then .gap before
  else if c = 0x27 then .literal
  else if c = 0x2E then if before = .opening then .number else .gap .dot
  else if isOpening c then .gap .opening
  else if c = 0x29 ∨ c = 0x5D ∨ c = 0x2A then .gap .operand
  else if (0x30 ≤ c && c ≤ 0x39) || c = 0x2B || c = 0x2D then .number
  else .name [c] (before = .dot)

def Mode.step : Mode → ℕ → Mode
  | .gap before, c => enter before c
  | .literal, c => if c = 0x27 then .gap .operand else .literal
  | .number, c => if isBoundary c && c ≠ 0x2E then enter .operand c else .number
  | .name text property, c =>
    if isBoundary c then enter .operand c else .name (text ++ [c]) property

def isCalled (t : List ℕ) : Bool := (t.dropWhile isWhitespace).head? = some 0x28

/-- The name of a context that ends before a text, with the text. -/
def Mode.ended : Mode → List ℕ → List (List ℕ × List ℕ)
  | .name text property, t =>
    if t.head?.all isBoundary && !property && !isCalled t then [(text, t)] else []
  | _, _ => []

def contextsFrom : Mode → List ℕ → List (List ℕ × List ℕ)
  | mode, [] => mode.ended []
  | mode, c :: t => mode.ended (c :: t) ++ contextsFrom (mode.step c) t

/-- The names of contexts, each with what stands behind it. -/
def contexts (e : List ℕ) : List (List ℕ × List ℕ) := contextsFrom (.gap .opening) e

def lower (c : ℕ) : ℕ := if 0x41 ≤ c ∧ c ≤ 0x5A then c + 0x20 else c

/-- The expression reads the context: one of its properties, one by index, or the whole. -/
def Reads (e context : List ℕ) : Prop := ∃ m ∈ contexts e, m.1.map lower = context

/-! ## What is read stands in the text -/

theorem infix_bodies {mode : Option (List ℕ × Bool)} {s e : List ℕ} (h : e ∈ bodies mode s) :
    e <:+: mode.elim [] Prod.fst ++ s := by
  fun_induction bodies mode s with
  | case1 t ih => exact (ih h).trans (List.suffix_append [0x24, 0x7B, 0x7B] t).isInfix
  | case2 t c _ ih => exact (ih h).trans (List.suffix_cons t c).isInfix
  | case3 body t ih =>
    rcases List.mem_cons.1 h with rfl | h
    · exact (List.prefix_append _ _).isInfix
    · have hsuffix : t <:+ body ++ 0x7D :: 0x7D :: t := ⟨body ++ [0x7D, 0x7D], by simp⟩
      exact (ih h).trans hsuffix.isInfix
  | case4 body quoted c t _ ih => simpa using ih h
  | case5 => cases h

theorem infix_of_mem_embedded {s e : List ℕ} (h : e ∈ embedded s) : e <:+: s := infix_bodies h

/-- The part of a name that has been read. -/
def Mode.text : Mode → List ℕ
  | .name text _ => text
  | _ => []

theorem suffix_enter (before : Before) (c : ℕ) (t : List ℕ) :
    (enter before c).text ++ t <:+ c :: t := by
  unfold enter
  split_ifs <;> first | exact List.suffix_rfl | exact List.suffix_cons _ _

theorem suffix_step (mode : Mode) (c : ℕ) (t : List ℕ) :
    (mode.step c).text ++ t <:+ mode.text ++ c :: t := by
  cases mode with
  | gap before => exact suffix_enter before c t
  | literal =>
    rw [Mode.step]
    split_ifs <;> exact List.suffix_cons c t
  | number =>
    rw [Mode.step]
    split_ifs
    · exact suffix_enter _ c t
    · exact List.suffix_cons c t
  | name text property =>
    rw [Mode.step]
    split_ifs
    · exact (suffix_enter _ c t).trans (List.suffix_append _ _)
    · simp [Mode.text]

theorem suffix_ended {mode : Mode} {t : List ℕ} {m : List ℕ × List ℕ} (h : m ∈ mode.ended t) :
    m.1 ++ m.2 <:+ mode.text ++ t := by
  cases mode with
  | name text property =>
    rw [Mode.ended] at h
    split_ifs at h
    · rw [List.mem_singleton.1 h]
      exact List.suffix_rfl
    · cases h
  | _ => cases h

/-- A context's name and what stands behind it are the end of the text. -/
theorem suffix_contextsFrom {mode : Mode} {t : List ℕ} {m : List ℕ × List ℕ}
    (h : m ∈ contextsFrom mode t) : m.1 ++ m.2 <:+ mode.text ++ t := by
  induction t generalizing mode with
  | nil => exact suffix_ended h
  | cons c t ih =>
    rcases List.mem_append.1 h with h | h
    · exact suffix_ended h
    · exact (ih h).trans (suffix_step mode c t)

theorem infix_of_mem_contexts {e : List ℕ} {m : List ℕ × List ℕ} (h : m ∈ contexts e) :
    m.1 ++ m.2 <:+: e := (suffix_contextsFrom h).isInfix

end Expressions
