import Jumpship.Lib.JsonText

/-!
# strconv

`parseFloat` and `formatFloat` at precision -1 and 64 bits, `atoi`, `itoa` and the hexadecimal
`parseUint`, as far as the canonical encoder calls them.
-/

namespace Go

open JsonText Decimal

/-- `ParseFloat(raw, 64)`: none is `ErrRange`. -/
def parseFloat (raw : Number) : Option Binary64 := Binary64.nearest raw.value

def digitsText (ds : List Digit) : List Char := ds.map digitChar

def natText (n : ℕ) : List Char := if n = 0 then ['0'] else digitsText (Decimal.ofNat n)

def itoa (z : ℤ) : List Char := if z < 0 then '-' :: natText z.natAbs else natText z.natAbs

/-- Format `'f'` of `0.d₁d₂… · 10^point`. -/
def fixedText (ds : List Digit) (point : ℤ) : List Char :=
  if point ≤ 0 then '0' :: '.' :: (List.replicate (-point).toNat '0' ++ digitsText ds)
  else if point < ds.length then
    digitsText (ds.take point.toNat) ++ '.' :: digitsText (ds.drop point.toNat)
  else digitsText ds ++ List.replicate (point - ds.length).toNat '0'

/-- Format `'e'` of `0.d₁d₂… · 10^point`: at least two exponent digits. -/
def scientificText (ds : List Digit) (point : ℤ) : List Char :=
  let exponent := (point - 1).natAbs
  digitsText (ds.take 1) ++ (if ds.length ≤ 1 then [] else '.' :: digitsText (ds.drop 1))
    ++ 'e' :: (if point - 1 < 0 then '-' else '+')
      :: ((if exponent < 10 then ['0'] else []) ++ natText exponent)

def formatFloat (layout : List Digit → ℤ → List Char) (x : Binary64) : List Char :=
  (if x.value < 0 then ['-'] else []) ++ layout (shortest |x.value|).1 (shortest |x.value|).2

/-- `SplitN(text, "e", 2)`. -/
def splitE (text : List Char) : List (List Char) :=
  match text.dropWhile (· ≠ 'e') with
  | [] => [text]
  | _ :: rest => [text.takeWhile (· ≠ 'e'), rest]

def digitsValue : List Char → Option ℕ
  | [] => none
  | t => (t.mapM digit?).map Decimal.toNat

def atoi : List Char → Option ℤ
  | '+' :: t => (digitsValue t).map fun (n : ℕ) => (n : ℤ)
  | '-' :: t => (digitsValue t).map fun (n : ℕ) => -(n : ℤ)
  | t => (digitsValue t).map fun (n : ℕ) => (n : ℤ)

/-- `ParseUint(text, 16, 16)` of four bytes. -/
def parseHexUnit (bs : List UInt8) : Option ℕ :=
  match bs with
  | [a, b, c, d] =>
    hex4 (Char.ofNat a.toNat) (Char.ofNat b.toNat) (Char.ofNat c.toNat) (Char.ofNat d.toNat)
  | _ => none

end Go
