import Jumpship.Py.Value
import Jumpship.Lib.JsonText
import Jumpship.Lib.Hex

/-!
# Python's json

`loads` of a text and `dumps` of a value. `loads` takes `NaN` and the infinities, reads the
surrogates of a string literal as they stand unless two of them pair, and lets the last member of a
name win.
-/

namespace Py

open JsonText Decimal Unicode

/-! ## Strings and numbers -/

/-- The code points of UTF-16 code units: a surrogate without a partner stays one. -/
def joinSurrogates : List ℕ → List ℕ
  | [] => []
  | [u] => [u]
  | u :: v :: us =>
    if isHighSurrogate u && isLowSurrogate v then
      (0x10000 + (u - 0xD800) * 0x400 + (v - 0xDC00)) :: joinSurrogates us
    else u :: joinSurrogates (v :: us)

/-- The code units of a string literal, from after its opening quote. -/
def scanString : List Char → Option (List ℕ × List Char)
  | [] => none
  | c :: t =>
    if c = '"' then some ([], t)
    else if c = '\\' then
      match t with
      | 'u' :: a :: b :: c :: d :: t =>
        match hex4 a b c d with
        | some u => (scanString t).map fun p => (u :: p.1, p.2)
        | none => none
      | e :: t =>
        match simpleEscape? e with
        | some u => (scanString t).map fun p => (u :: p.1, p.2)
        | none => none
      | [] => none
    else if c.toNat < 0x20 then none
    else (scanString t).map fun p => (utf16Char c ++ p.1, p.2)

def strOf (units : List ℕ) : Str := .ofCodes (joinSurrogates units)

def matchDigits : List Char → List Digit × List Char
  | [] => ([], [])
  | c :: t =>
    match digit? c with
    | some d => (d :: (matchDigits t).1, (matchDigits t).2)
    | none => ([], c :: t)

/-- `(?:0|[1-9][0-9]*)`, no digits where it does not match. -/
def matchInt (t : List Char) : List Digit × List Char :=
  match matchDigits t with
  | (0 :: _, _) => ([0], t.drop 1)
  | r => r

/-- `(\.[0-9]+)?` -/
def matchFrac (t : List Char) : List Digit × List Char :=
  match t with
  | '.' :: u => if (matchDigits u).1 = [] then ([], t) else matchDigits u
  | _ => ([], t)

def matchSign : List Char → Option Bool × List Char
  | '+' :: t => (some false, t)
  | '-' :: t => (some true, t)
  | t => (none, t)

/-- `([eE][-+]?[0-9]+)?` -/
def matchExp (t : List Char) : Option Exponent × List Char :=
  match t with
  | e :: u =>
    if e = 'e' ∨ e = 'E' then
      if h : (matchDigits (matchSign u).2).1 ≠ [] then
        (some ⟨e = 'E', (matchSign u).1, (matchDigits (matchSign u).2).1, h⟩,
          (matchDigits (matchSign u).2).2)
      else (none, t)
    else (none, t)
  | [] => (none, t)

theorem matchInt_zero {t : List Char} {ds : List Digit} (h : (matchInt t).1 = 0 :: ds) :
    ds = [] := by
  unfold matchInt at h
  split at h
  · simp only [List.cons.injEq, true_and] at h
    exact h.symm
  · rename_i hne
    rcases hs : matchDigits t with ⟨es, r⟩
    rw [hs] at h
    dsimp only at h
    subst h
    exact absurd hs (hne ds r)

def matchMinus : List Char → Bool × List Char
  | '-' :: t => (true, t)
  | t => (false, t)

def matchUnsigned (neg : Bool) (t : List Char) : Option (JsonText.Number × List Char) :=
  if h : (matchInt t).1 = [] then none
  else
    let (frac, t') := matchFrac (matchInt t).2
    let (exp, rest) := matchExp t'
    some (⟨neg, (matchInt t).1, frac, exp, h, fun _ => matchInt_zero⟩, rest)

def matchNumber (t : List Char) : Option (JsonText.Number × List Char) :=
  matchUnsigned (matchMinus t).1 (matchMinus t).2

/-- `float(literal)` -/
def floatOf (n : JsonText.Number) : Double :=
  match Binary64.nearest n.value with
  | none => .inf n.neg
  | some x => if n.neg && x.value = 0 then .negZero else .finite x

/-- `int(literal)` -/
def intOf (n : JsonText.Number) : ℤ := if n.neg then -toNat n.int else toNat n.int

def numberOf (n : JsonText.Number) : Number :=
  if n.frac = [] ∧ n.exp = none then .int (intOf n) else .float (floatOf n)

/-! ## json.loads -/

/-- `d[key] = value` -/
def setItem : Dict → Str → Value → Dict
  | [], key, value => [(key, value)]
  | (k, v) :: d, key, value =>
    if k = key then (k, value) :: d else (k, v) :: setItem d key value

/-- `dict(pairs)` -/
def dictOf (pairs : List (Str × Value)) : Dict := pairs.foldl (fun d m => setItem d m.1 m.2) []

mutual
/-- The fuel bounds the calls in progress; the length of the text is enough. -/
def scanValue : ℕ → List Char → Option (Value × List Char)
  | 0, _ => none
  | fuel + 1, text =>
    match text with
    | '"' :: t => (scanString t).map fun p => (.str (strOf p.1), p.2)
    | '{' :: t =>
      match skipSpace t with
      | '}' :: t => some (.obj [], t)
      | t => (scanMembers fuel t).map fun p => (.obj (dictOf p.1), p.2)
    | '[' :: t =>
      match skipSpace t with
      | ']' :: t => some (.arr [], t)
      | t => (scanElements fuel t).map fun p => (.arr p.1, p.2)
    | 'n' :: 'u' :: 'l' :: 'l' :: t => some (.null, t)
    | 't' :: 'r' :: 'u' :: 'e' :: t => some (.bool true, t)
    | 'f' :: 'a' :: 'l' :: 's' :: 'e' :: t => some (.bool false, t)
    | 'N' :: 'a' :: 'N' :: t => some (.num (.float .nan), t)
    | 'I' :: 'n' :: 'f' :: 'i' :: 'n' :: 'i' :: 't' :: 'y' :: t =>
      some (.num (.float (.inf false)), t)
    | '-' :: 'I' :: 'n' :: 'f' :: 'i' :: 'n' :: 'i' :: 't' :: 'y' :: t =>
      some (.num (.float (.inf true)), t)
    | t => (matchNumber t).map fun p => (.num (numberOf p.1), p.2)
def scanMembers : ℕ → List Char → Option (List (Str × Value) × List Char)
  | 0, _ => none
  | fuel + 1, '"' :: t => do
    let (key, t) ← scanString t
    match skipSpace t with
    | ':' :: t => do
      let (value, t) ← scanValue fuel (skipSpace t)
      match skipSpace t with
      | '}' :: t => some ([(strOf key, value)], t)
      | ',' :: t => (scanMembers fuel (skipSpace t)).map fun p => ((strOf key, value) :: p.1, p.2)
      | _ => none
    | _ => none
  | _, _ => none
def scanElements : ℕ → List Char → Option (List Value × List Char)
  | 0, _ => none
  | fuel + 1, t => do
    let (value, t) ← scanValue fuel t
    match skipSpace t with
    | ']' :: t => some ([value], t)
    | ',' :: t => (scanElements fuel (skipSpace t)).map fun p => (value :: p.1, p.2)
    | _ => none
end

def loads (text : List Char) : Option Value := do
  let (value, rest) ← scanValue (text.length + 1) (skipSpace text)
  if skipSpace rest = [] then some value else none

/-! ## json.dumps -/

/-- The code units of a code point. -/
def units (c : ℕ) : List ℕ :=
  if c < 0x10000 then [c] else [0xD800 + (c - 0x10000) / 0x400, 0xDC00 + (c - 0x10000) % 0x400]

/-- `'\\u{0:04x}'` -/
def escapeUnit (u : ℕ) : List Char :=
  ['\\', 'u', Hex.digit (u / 4096), Hex.digit (u / 256 % 16), Hex.digit (u / 16 % 16),
    Hex.digit (u % 16)]

/-- What `py_encode_basestring_ascii` writes for a code point. -/
def escapeCode (c : ℕ) : List Char :=
  match c with
  | 0x22 => ['\\', '"']
  | 0x5C => ['\\', '\\']
  | 0x0A => ['\\', 'n']
  | 0x0D => ['\\', 'r']
  | 0x09 => ['\\', 't']
  | 0x0C => ['\\', 'f']
  | 0x08 => ['\\', 'b']
  | c => if 0x20 ≤ c ∧ c ≤ 0x7E then [Char.ofNat c] else (units c).flatMap escapeUnit

def quote (s : Str) : List Char := '"' :: (s.codes.flatMap escapeCode ++ ['"'])

/-- `str(n)` of a natural number. -/
def natRepr (n : ℕ) : List Char := if n = 0 then ['0'] else (Decimal.ofNat n).map digitChar

def intRepr (n : ℤ) : List Char := (if n < 0 then ['-'] else []) ++ natRepr n.natAbs

/-- `repr` of the positive double with the shortest digits `ds`, `0.d₁d₂… · 10^point`. -/
def positiveRepr (ds : List Digit) (point : ℤ) : List Char :=
  let digits := ds.map digitChar
  if point ≤ -4 ∨ 16 < point then
    let exponent := (if point - 1 < 0 then '-' else '+') ::
      ((if (point - 1).natAbs < 10 then ['0'] else []) ++ natRepr (point - 1).natAbs)
    digits.take 1 ++ (if ds.length = 1 then [] else '.' :: digits.drop 1) ++ 'e' :: exponent
  else if point ≤ 0 then '0' :: '.' :: (List.replicate (-point).toNat '0' ++ digits)
  else if ds.length ≤ point then
    digits ++ List.replicate (point - ds.length).toNat '0' ++ ['.', '0']
  else digits.take point.toNat ++ '.' :: digits.drop point.toNat

/-- `float.__repr__`, as `json` writes it. -/
def floatRepr : Double → List Char
  | .nan => ['N', 'a', 'N']
  | .inf negative => (if negative then ['-'] else []) ++ "Infinity".toList
  | .negZero => ['-', '0', '.', '0']
  | .finite x =>
    if x.value = 0 then ['0', '.', '0']
    else
      (if x.value < 0 then ['-'] else []) ++
        positiveRepr (shortest |x.value|).1 (shortest |x.value|).2

def numberRepr : Number → List Char
  | .int n => intRepr n
  | .float x => floatRepr x

/-- The arguments of `json.dumps`. -/
structure Layout where
  indent : Option ℕ
  itemSeparator : List Char
  keySeparator : List Char
  sortKeys : Bool

namespace Layout

/-- `json.dumps(value)` -/
def plain : Layout := ⟨none, [',', ' '], [':', ' '], false⟩

/-- `json.dumps(value, indent=2, sort_keys=True)` -/
def pretty : Layout := ⟨some 2, [','], [':', ' '], true⟩

def newline (layout : Layout) (depth : ℕ) : List Char :=
  match layout.indent with
  | none => []
  | some n => '\n' :: List.replicate (n * depth) ' '

/-- The parts of a list or a dict between its brackets. -/
def body (layout : Layout) (depth : ℕ) (parts : List (List Char)) : List Char :=
  if parts = [] then []
  else
    layout.newline (depth + 1)
      ++ List.intercalate (layout.itemSeparator ++ layout.newline (depth + 1)) parts
      ++ layout.newline depth

/-- The order of keys: by code points. -/
def KeyLE (left right : Str) : Prop := left.codes ≤ right.codes

instance decidableRelKeyLE : DecidableRel KeyLE := fun left right =>
  inferInstanceAs (Decidable (left.codes ≤ right.codes))

def order {α : Type} (layout : Layout) (ms : List (Str × α)) : List (Str × α) :=
  if layout.sortKeys then Json.sortByName KeyLE ms else ms

def member (layout : Layout) (m : Str × List Char) : List Char :=
  quote m.1 ++ layout.keySeparator ++ m.2

end Layout

mutual
/-- The members of a dict are written before its keys are sorted: writing never fails. -/
def dumpsAt (layout : Layout) (depth : ℕ) : Value → List Char
  | .null => ['n', 'u', 'l', 'l']
  | .bool true => ['t', 'r', 'u', 'e']
  | .bool false => ['f', 'a', 'l', 's', 'e']
  | .num n => numberRepr n
  | .str s => quote s
  | .arr xs => '[' :: (layout.body depth (dumpsElements layout (depth + 1) xs) ++ [']'])
  | .obj ms =>
    '{' :: (layout.body depth ((layout.order (dumpsMembers layout (depth + 1) ms)).map layout.member)
      ++ ['}'])
def dumpsElements (layout : Layout) (depth : ℕ) : List Value → List (List Char)
  | [] => []
  | x :: xs => dumpsAt layout depth x :: dumpsElements layout depth xs
def dumpsMembers (layout : Layout) (depth : ℕ) : List (Str × Value) → List (Str × List Char)
  | [] => []
  | (k, x) :: ms => (k, dumpsAt layout depth x) :: dumpsMembers layout depth ms
end

def dumps (layout : Layout) (value : Value) : List Char := dumpsAt layout 0 value

end Py
