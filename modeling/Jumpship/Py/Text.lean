import Jumpship.Py.Value

/-!
# Python string methods

On the code points of a `str`.
-/

namespace Py

/-- `str.isspace` of one code point. -/
def isSpaceCode (c : ℕ) : Bool :=
  (9 ≤ c && c ≤ 13) || (28 ≤ c && c ≤ 32) || c = 0x85 || c = 0xA0 || c = 0x1680 ||
    (0x2000 ≤ c && c ≤ 0x200A) || c = 0x2028 || c = 0x2029 || c = 0x202F || c = 0x205F || c = 0x3000

/-- `s.strip()` -/
def strip (s : List ℕ) : List ℕ :=
  ((s.dropWhile isSpaceCode).reverse.dropWhile isSpaceCode).reverse

/-- `s.split(separator)` -/
def splitOn (separator : ℕ) : List ℕ → List (List ℕ)
  | [] => [[]]
  | c :: s =>
    if c = separator then [] :: splitOn separator s
    else
      match splitOn separator s with
      | [] => [[c]]
      | part :: parts => (c :: part) :: parts

/-- `s.split()` -/
def splitSpace (s : List ℕ) : List (List ℕ) :=
  (s.splitBy fun c d => isSpaceCode c = isSpaceCode d).filter fun part =>
    match part with
    | [] => false
    | c :: _ => !isSpaceCode c

/-- `separator.join(parts)` -/
def join (separator : ℕ) (parts : List (List ℕ)) : List ℕ := List.intercalate [separator] parts

end Py
