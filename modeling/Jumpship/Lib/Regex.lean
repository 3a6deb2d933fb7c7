import Jumpship.Lib.Pattern

/-!
# Anchored patterns

The part of the syntax that regular expression dialects share, what it matches, how it is written,
and what each dialect's anchors make of `^p$`.
-/

namespace Pattern

open Computability

variable {α : Type}

/-! ## The characters of a word -/

section Characters

/-- The words of `p` are over `S`. -/
def Over (S : α → Prop) (p : RegularExpression α) : Prop := ∀ w ∈ p.matches', ∀ a ∈ w, S a

variable {S : α → Prop} {p q : RegularExpression α}

theorem over_one : Over S (1 : RegularExpression α) := fun w hw a ha => by
  rw [mem_matches_one.1 hw] at ha
  cases ha

theorem over_char {a : α} (h : S a) : Over S (.char a) := fun w hw b hb => by
  rw [mem_matches_char.1 hw, List.mem_singleton] at hb
  rwa [hb]

theorem over_oneOf {cs : List α} (h : ∀ c ∈ cs, S c) : Over S (oneOf cs) := fun w hw a ha => by
  obtain ⟨c, hc, rfl⟩ := mem_oneOf.1 hw
  rw [List.mem_singleton.1 ha]
  exact h c hc

theorem Over.add (hp : Over S p) (hq : Over S q) : Over S (p + q) := fun w hw =>
  (mem_matches_add.1 hw).elim (hp w) (hq w)

theorem Over.mul (hp : Over S p) (hq : Over S q) : Over S (p * q) := fun w hw => by
  obtain ⟨u, hu, v, hv, rfl⟩ := mem_matches_mul.1 hw
  exact List.forall_mem_append.2 ⟨hp u hu, hq v hv⟩

theorem Over.star (hp : Over S p) : Over S p.star := fun w hw a ha => by
  rw [RegularExpression.matches'_star, Language.mem_kstar] at hw
  obtain ⟨ws, rfl, hws⟩ := hw
  obtain ⟨u, hu, ha⟩ := List.mem_flatten.1 ha
  exact hp u (hws u hu) a ha

theorem Over.pow (hp : Over S p) (n : ℕ) : Over S (p ^ n) := by
  induction n with
  | zero => exact over_one
  | succ n ih => exact (ih.mul hp)

theorem Over.between (hp : Over S p) (lo extra : ℕ) : Over S (between p lo extra) :=
  (hp.pow lo).mul ((over_one.add hp).pow extra)

end Characters

/-! ## Syntax -/

section Syntax

inductive Regex where
  | literal (c : Char)
  /-- A class of ranges, from one character to another. -/
  | cls (ranges : List (Char × Char))
  | empty
  | cat (p q : Regex)
  /-- `(?:p|q)` -/
  | alt (p q : Regex)
  /-- `(?:p)` -/
  | group (p : Regex)
  | star (p : Regex)
  | plus (p : Regex)
  | opt (p : Regex)
  | times (p : Regex) (n : ℕ)
  | range (p : Regex) (lo hi : ℕ)

namespace Regex

def seq : List Regex → Regex
  | [] => .empty
  | [p] => p
  | p :: ps => .cat p (seq ps)

def word (text : String) : Regex := seq (text.toList.map literal)

def codes (r : Char × Char) : List ℕ := List.range' r.1.toNat (r.2.toNat + 1 - r.1.toNat)

/-- What is matched, as an expression over character codes. -/
def expression : Regex → RegularExpression ℕ
  | .literal c => .char c.toNat
  | .cls ranges => oneOf (ranges.flatMap codes)
  | .empty => 1
  | .cat p q => p.expression * q.expression
  | .alt p q => p.expression + q.expression
  | .group p => p.expression
  | .star p => p.expression.star
  | .plus p => p.expression * p.expression.star
  | .opt p => 1 + p.expression
  | .times p n => p.expression ^ n
  | .range p lo hi => between p.expression lo (hi - lo)

def escaped (c : Char) : List Char :=
  if c = '\n' then ['\\', 'n']
  else if c = '\r' then ['\\', 'r']
  else if c ∈ ['.', '\\', '^', '$', '|', '?', '*', '+', '(', ')', '[', ']', '{', '}'] then ['\\', c]
  else [c]

def rangeSource (r : Char × Char) : List Char :=
  if r.1 = r.2 then (if r.1 = '\n' || r.1 = '\r' then escaped r.1 else [r.1]) else [r.1, '-', r.2]

/-- The pattern as it is written. -/
def source : Regex → List Char
  | .literal c => escaped c
  | .cls ranges => '[' :: (ranges.flatMap rangeSource ++ [']'])
  | .empty => []
  | .cat p q => p.source ++ q.source
  | .alt p q => ['(', '?', ':'] ++ p.source ++ '|' :: q.source ++ [')']
  | .group p => ['(', '?', ':'] ++ p.source ++ [')']
  | .star p => p.source ++ ['*']
  | .plus p => p.source ++ ['+']
  | .opt p => p.source ++ ['?']
  | .times p n => p.source ++ '{' :: (toString n).toList ++ ['}']
  | .range p lo hi => p.source ++ '{' :: (toString lo).toList ++ ',' :: (toString hi).toList ++ ['}']

/-- `^p$` -/
def anchored (p : Regex) : List Char := '^' :: p.source ++ ['$']

/-- Every character the pattern names is ASCII. -/
def Ascii : Regex → Prop
  | .literal c => c.toNat < 128
  | .cls ranges => ∀ r ∈ ranges, r.2.toNat < 128
  | .empty => True
  | .cat p q | .alt p q => p.Ascii ∧ q.Ascii
  | .group p | .star p | .plus p | .opt p | .times p _ | .range p _ _ => p.Ascii

def decidableAscii : (p : Regex) → Decidable p.Ascii
  | .literal c => inferInstanceAs (Decidable (c.toNat < 128))
  | .cls ranges => inferInstanceAs (Decidable (∀ r ∈ ranges, r.2.toNat < 128))
  | .empty => .isTrue trivial
  | .cat p q | .alt p q => @instDecidableAnd _ _ (decidableAscii p) (decidableAscii q)
  | .group p | .star p | .plus p | .opt p | .times p _ | .range p _ _ => decidableAscii p

instance instDecidableAscii (p : Regex) : Decidable p.Ascii := decidableAscii p

theorem over_ascii {p : Regex} (h : p.Ascii) : Over (· < 128) p.expression := by
  induction p with
  | literal c => exact over_char h
  | cls ranges =>
    refine over_oneOf fun c hc => ?_
    obtain ⟨r, hr, hc⟩ := List.mem_flatMap.1 hc
    have hlt := h r hr
    have := List.mem_range'_1.1 hc
    omega
  | empty => exact over_one
  | cat p q hp hq => exact (hp h.1).mul (hq h.2)
  | alt p q hp hq => exact (hp h.1).add (hq h.2)
  | group p hp => exact hp h
  | star p hp => exact (hp h).star
  | plus p hp => exact (hp h).mul (hp h).star
  | opt p hp => exact over_one.add (hp h)
  | times p n hp => exact (hp h).pow n
  | range p lo hi hp => exact (hp h).between lo (hi - lo)

end Regex

end Syntax

/-! ## Anchors -/

section Anchors

inductive Dialect where
  | python
  | go
  | ecmaScript

/-- Whether `$` matches where this is left of the subject, without a multiline flag. -/
def Dialect.atEnd : Dialect → List ℕ → Bool
  | .python, rest => rest = [] || rest = [0x0A]
  | .go, rest | .ecmaScript, rest => rest = []

/-- Whether `^p$` is found in the subject: a match that starts where it does and ends where `$`
matches. -/
def Dialect.finds (d : Dialect) (p : Regex) (subject : List ℕ) : Bool :=
  (List.range (subject.length + 1)).any fun n =>
    p.expression.rmatch (subject.take n) && d.atEnd (subject.drop n)

variable {p : Regex} {subject : List ℕ}

theorem finds_iff {d : Dialect} : d.finds p subject = true ↔
    ∃ w rest, subject = w ++ rest ∧ w ∈ p.expression.matches' ∧ d.atEnd rest = true := by
  rw [Dialect.finds, List.any_eq_true]
  simp only [Bool.and_eq_true, RegularExpression.rmatch_iff_matches', List.mem_range]
  constructor
  · rintro ⟨n, -, hw, hend⟩
    exact ⟨_, _, (List.take_append_drop n subject).symm, hw, hend⟩
  · rintro ⟨w, rest, rfl, hw, hend⟩
    refine ⟨w.length, by simp only [List.length_append]; omega, ?_⟩
    rw [List.take_left, List.drop_left]
    exact ⟨hw, hend⟩

/-- Without a `$` before a last newline it is the whole subject that has to match. -/
theorem finds_go : Dialect.go.finds p subject = true ↔ subject ∈ p.expression.matches' := by
  rw [finds_iff]
  constructor
  · rintro ⟨w, rest, rfl, hw, hend⟩
    rw [of_decide_eq_true hend, List.append_nil]
    exact hw
  · intro h
    exact ⟨subject, [], (List.append_nil _).symm, h, rfl⟩

theorem finds_ecmaScript :
    Dialect.ecmaScript.finds p subject = true ↔ subject ∈ p.expression.matches' := finds_go

theorem finds_python : Dialect.python.finds p subject = true ↔
    subject ∈ p.expression.matches' ∨ ∃ w ∈ p.expression.matches', subject = w ++ [0x0A] := by
  rw [finds_iff]
  constructor
  · rintro ⟨w, rest, rfl, hw, hend⟩
    simp only [Dialect.atEnd, Bool.or_eq_true, decide_eq_true_eq] at hend
    rcases hend with rfl | rfl
    · rw [List.append_nil]
      exact .inl hw
    · exact .inr ⟨w, hw, rfl⟩
  · rintro (h | ⟨w, hw, rfl⟩)
    · exact ⟨subject, [], (List.append_nil _).symm, h, rfl⟩
    · exact ⟨w, [0x0A], rfl, hw, rfl⟩

end Anchors

end Pattern
