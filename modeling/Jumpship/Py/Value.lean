import Jumpship.Lib.Json
import Jumpship.Lib.Binary64

/-!
# Python values

The values `json.loads` builds, numbers compared and divided as Python does. A `dict` keeps its
members in insertion order.
-/

namespace Py

/-- A `str`: a text, or code points with a surrogate among them. -/
inductive Str where
  | text (s : String)
  | surrogates (codes : List ℕ) (surrogate : ∃ c ∈ codes, ¬ c.isValidChar)
deriving DecidableEq

abbrev str (s : String) : Str := .text s

namespace Str

/-- The code points. -/
def codes : Str → List ℕ
  | .text s => s.toList.map Char.toNat
  | .surrogates codes _ => codes

def ofCodes (codes : List ℕ) : Str :=
  if h : ∃ c ∈ codes, ¬ c.isValidChar then .surrogates codes h
  else .text (String.ofList (codes.map Char.ofNat))

/-- `len(s)` -/
def length (s : Str) : ℕ := s.codes.length

/-- `s.startswith(start)` -/
def startsWith (start s : Str) : Bool := start.codes.isPrefixOf s.codes

/-- `part in s` -/
def hasInfix (part s : Str) : Bool := s.codes.tails.any part.codes.isPrefixOf

end Str

/-- A `float`. A `Binary64` has one zero, so the negative one is a case of its own. -/
inductive Double where
  | finite (x : Binary64)
  | negZero
  | inf (negative : Bool)
  | nan
deriving DecidableEq

/-- The double with the sign of a zero forgotten. -/
def Double.unsigned : Double → Double
  | .negZero => .finite 0
  | x => x

inductive Number where
  | int (n : ℤ)
  | float (x : Double)
deriving DecidableEq

abbrev Value := Json Str Number

abbrev Dict := List (Str × Value)

def int (n : ℤ) : Value := .num (.int n)

/-! ## Numbers -/

/-- The rational a number is, for all but the infinities and nan. -/
def Number.value? : Number → Option ℚ
  | .int n => some n
  | .float (.finite x) => some x.value
  | .float .negZero => some 0
  | .float _ => none

def Number.isFinite (x : Number) : Bool := x.value?.isSome

/-- `left < right` -/
def Number.less : Number → Number → Bool
  | .float .nan, _ | _, .float .nan => false
  | .float (.inf l), .float (.inf r) => l && !r
  | .float (.inf l), _ => l
  | _, .float (.inf r) => !r
  | l, r =>
    match l.value?, r.value? with
    | some p, some q => p < q
    | _, _ => false

def Number.isNan : Number → Bool
  | .float .nan => true
  | _ => false

/-- `left <= right` -/
def Number.atMost (left right : Number) : Bool :=
  !left.isNan && !right.isNan && !right.less left

/-- `left == right` of two finite numbers. -/
def Number.sameValue (left right : Number) : Bool :=
  match left.value?, right.value? with
  | some p, some q => p = q
  | _, _ => false

/-- The number a value counts as in arithmetic: a `bool` is an `int`. -/
def number? : Value → Option Number
  | .num x => some x
  | .bool b => some (.int b.toNat)
  | _ => none

/-! ## Collections -/

/-- `bool(value)` -/
def truthy : Value → Bool
  | .null => false
  | .bool b => b
  | .num x => x.value? ≠ some 0
  | .str s => s.codes ≠ []
  | .arr xs => !xs.isEmpty
  | .obj ms => !ms.isEmpty

/-- What a loop over a value sees. -/
def items? : Value → Option (List Value)
  | .arr xs => some xs
  | .obj ms => some (ms.map fun m => .str m.1)
  | .str s => some (s.codes.map fun c => .str (.ofCodes [c]))
  | _ => none

/-- `hash(value)` is defined. -/
def hashable : Value → Bool
  | .arr _ | .obj _ => false
  | _ => true

/-- `text.partition(mark)` without its middle part, and whether the mark is there. -/
def partition (mark : ℕ) : List ℕ → List ℕ × Bool × List ℕ
  | [] => ([], false, [])
  | c :: s =>
    if c = mark then ([], true, s)
    else
      let (before, found, after) := partition mark s
      (c :: before, found, after)

end Py
