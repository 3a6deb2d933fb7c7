import Jumpship.Lib.JsonWriter
import Jumpship.Lib.Hex

/-!
# JSON and Number in ECMAScript

A source text is its UTF-16 code units. `JSON.parse` is taken on one string literal, and
`JSON.stringify` on one string or number. A string whose surrogates are all paired is kept as its
code points.
-/

namespace Js

open JsonText Unicode Decimal

/-- The character of a code unit; a surrogate is none. -/
def charAt (u : ℕ) : Char := Char.ofNat u

/-- `JSON.parse` of a string literal, from after its opening quote. -/
def parseLiteral : List ℕ → Option (List ℕ)
  | [] => none
  | u :: t =>
    if u = 0x22 then if t = [] then some [] else none
    else if u = 0x5C then
      match t with
      | 0x75 :: a :: b :: c :: d :: t =>
        match hex4 (charAt a) (charAt b) (charAt c) (charAt d) with
        | some v => (parseLiteral t).map (v :: ·)
        | none => none
      | e :: t =>
        match simpleEscape? (charAt e) with
        | some v => (parseLiteral t).map (v :: ·)
        | none => none
      | [] => none
    else if u < 0x20 then none
    else (parseLiteral t).map (u :: ·)

/-- What `QuoteJSONString` writes for a character. -/
def quoteChar (c : Char) : List Char :=
  match c.toNat with
  | 0x08 => ['\\', 'b']
  | 0x09 => ['\\', 't']
  | 0x0A => ['\\', 'n']
  | 0x0C => ['\\', 'f']
  | 0x0D => ['\\', 'r']
  | 0x22 => ['\\', '"']
  | 0x5C => ['\\', '\\']
  | u =>
    if u < 0x20 then
      ['\\', 'u', Hex.digit (u / 4096), Hex.digit (u / 256 % 16), Hex.digit (u / 16 % 16),
        Hex.digit (u % 16)]
    else [c]

def digitsText (ds : List Digit) : List Char := ds.map digitChar

/-- The decimal digits of a natural number. -/
def natToString (n : ℕ) : List Char := if n = 0 then ['0'] else digitsText (Decimal.ofNat n)

/-- `Number::toString` of a positive number with digits `ds`, `0.d₁d₂… · 10^n`. -/
def positiveToString (ds : List Digit) (n : ℤ) : List Char :=
  if ds.length ≤ n ∧ n ≤ 21 then digitsText ds ++ List.replicate (n - ds.length).toNat '0'
  else if 0 < n ∧ n ≤ 21 then digitsText (ds.take n.toNat) ++ '.' :: digitsText (ds.drop n.toNat)
  else if -6 < n ∧ n ≤ 0 then '0' :: '.' :: (List.replicate (-n).toNat '0' ++ digitsText ds)
  else
    let exponent := 'e' :: (if n - 1 < 0 then '-' else '+') :: natToString (n - 1).natAbs
    if ds.length = 1 then digitsText ds ++ exponent
    else digitsText (ds.take 1) ++ '.' :: (digitsText (ds.drop 1) ++ exponent)

def numberToString (x : Binary64) : List Char :=
  if x.value = 0 then ['0']
  else if x.value < 0 then
    '-' :: positiveToString (shortest (-x.value)).1 (shortest (-x.value)).2
  else positiveToString (shortest x.value).1 (shortest x.value).2

end Js
