import Mathlib.Data.List.Basic
import Mathlib.Logic.Basic

/-!
# Backtracking matchers

A matcher of a regular expression engine that backtracks: all ways to match at a place of a text,
the preferred one first. A search takes the first way at the first place there is one.
-/

namespace Matching

/-- A place in a text: what is left of it, and whether a line starts here. -/
structure Place where
  lineStart : Bool
  rest : List ℕ
deriving DecidableEq

/-- The start of a text. -/
def Place.ofText (text : List ℕ) : Place := ⟨true, text⟩

/-- The place after the character `c`. -/
def Place.after (c : ℕ) (rest : List ℕ) : Place := ⟨c = '\n'.toNat, rest⟩

/-- The ways to match at a place, each with what it captures and the place after it. -/
structure Matcher (α : Type) where
  ways : Place → List (α × Place)

variable {α β : Type}

def Matcher.bind (m : Matcher α) (f : α → Matcher β) : Matcher β :=
  ⟨fun p => (m.ways p).flatMap fun w => (f w.1).ways w.2⟩

instance instMonadMatcher : Monad Matcher where
  pure a := ⟨fun p => [(a, p)]⟩
  bind := Matcher.bind

def none : Matcher α := ⟨fun _ => []⟩

/-- `m|n` -/
def either (m n : Matcher α) : Matcher α := ⟨fun p => m.ways p ++ n.ways p⟩

/-- `(m)?` -/
def optional (m : Matcher α) : Matcher (Option α) := either (some <$> m) (pure Option.none)

/-- `[p]` -/
def oneOf (p : ℕ → Bool) : Matcher ℕ where
  ways
    | ⟨_, []⟩ => []
    | ⟨_, c :: rest⟩ => if p c then [(c, .after c rest)] else []

/-- `[p]*` from a place. -/
def manyAt (p : ℕ → Bool) (lineStart : Bool) : List ℕ → List (List ℕ × Place)
  | [] => [([], ⟨lineStart, []⟩)]
  | c :: rest =>
    (if p c then (manyAt p (c = '\n'.toNat) rest).map fun w => (c :: w.1, w.2) else [])
      ++ [([], ⟨lineStart, c :: rest⟩)]

/-- `[p]*` -/
def many (p : ℕ → Bool) : Matcher (List ℕ) := ⟨fun q => manyAt p q.lineStart q.rest⟩

/-- `[p]+` -/
def many1 (p : ℕ → Bool) : Matcher (List ℕ) := do
  let c ← oneOf p
  let cs ← many p
  pure (c :: cs)

/-- `.*?` from a place, with newlines. -/
def anythingAt (lineStart : Bool) : List ℕ → List (List ℕ × Place)
  | [] => [([], ⟨lineStart, []⟩)]
  | c :: rest => ([], ⟨lineStart, c :: rest⟩) ::
      (anythingAt (c = '\n'.toNat) rest).map fun w => (c :: w.1, w.2)

/-- `.*?` with newlines. -/
def anything : Matcher (List ℕ) := ⟨fun q => anythingAt q.lineStart q.rest⟩

def literalCodes : List ℕ → Matcher Unit
  | [] => pure ()
  | c :: cs => do
    let _ ← oneOf (· = c)
    literalCodes cs

def literal (s : String) : Matcher Unit := literalCodes (s.toList.map Char.toNat)

/-- `^` of a text of lines. -/
def lineStart : Matcher Unit := ⟨fun p => if p.lineStart then [((), p)] else []⟩

/-- The matches of a search that goes on after each. Every match takes at least one character. -/
def findAllAt (m : Matcher α) : ℕ → Place → List α
  | 0, _ => []
  | fuel + 1, p =>
    match m.ways p, p.rest with
    | (a, q) :: _, _ => a :: findAllAt m fuel q
    | [], [] => []
    | [], c :: rest => findAllAt m fuel (.after c rest)

def findAll (m : Matcher α) (text : List ℕ) : List α :=
  findAllAt m (text.length + 1) (.ofText text)

/-- The first match of a search. -/
def find (m : Matcher α) (text : List ℕ) : Option α := (findAll m text).head?

end Matching
