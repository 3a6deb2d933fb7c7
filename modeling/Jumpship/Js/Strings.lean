import Mathlib.Data.List.Basic

/-!
# Strings in ECMAScript

A string is its code units. Strings are compared by the first units in which they differ, and
`sort` without a comparison of its own compares them so.
-/

namespace Js

/-- `x < y` of two strings. -/
def lessThan (px py : List ℕ) : Bool :=
  match (px.zip py).find? fun c => c.1 ≠ c.2 with
  | some (cx, cy) => cx < cy
  | none => px.length < py.length

/-- What `sort` compares by default. -/
def sortCompare (x y : List ℕ) : Ordering :=
  if lessThan x y then .lt else if lessThan y x then .gt else .eq

end Js
