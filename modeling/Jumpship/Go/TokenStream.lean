import Jumpship.Lib.JsonText

/-!
# encoding/json's token stream

`Decoder` is a `json.Decoder` after `UseNumber`, over the text left to read. `token` and `more`
are its `Token` and `More`: commas and colons are not tokens, `tokenState` is where they are
checked and `tokenStack` holds the state outside each open delimiter.
-/

namespace Go

open JsonText Unicode

/-- What `Token` returns. -/
inductive Token where
  | delim (c : Char)
  | null
  | bool (b : Bool)
  | string (s : List Char)
  | number (n : Number)
deriving DecidableEq

inductive TokenState where
  | topValue
  | arrayStart
  | arrayValue
  | arrayComma
  | objectStart
  | objectKey
  | objectColon
  | objectValue
  | objectComma
deriving DecidableEq

structure Decoder where
  buf : List Char
  tokenState : TokenState
  tokenStack : List TokenState
deriving DecidableEq

def newDecoder (text : List Char) : Decoder := ⟨text, .topValue, []⟩

def TokenState.valueAllowed : TokenState → Bool
  | .topValue | .arrayStart | .arrayValue | .objectValue => true
  | _ => false

def TokenState.valueEnd : TokenState → TokenState
  | .arrayStart | .arrayValue => .arrayComma
  | .objectValue => .objectComma
  | s => s

/-! ## Scalars -/

def scanDigits : List Char → List Digit × List Char
  | [] => ([], [])
  | c :: t =>
    match digit? c with
    | some d => (d :: (scanDigits t).1, (scanDigits t).2)
    | none => ([], c :: t)

/-- The digits before the point: a zero stands alone. -/
def scanInt (t : List Char) : List Digit × List Char :=
  match scanDigits t with
  | (0 :: _, _) => ([0], t.drop 1)
  | r => r

/-- A point needs a digit after it. -/
def scanFrac : List Char → Option (List Digit × List Char)
  | '.' :: t => if (scanDigits t).1 = [] then none else some (scanDigits t)
  | t => some ([], t)

def scanSign : List Char → Option Bool × List Char
  | '+' :: t => (some false, t)
  | '-' :: t => (some true, t)
  | t => (none, t)

def scanExpDigits (upper : Bool) (t : List Char) : Option (Option Exponent × List Char) :=
  if h : (scanDigits (scanSign t).2).1 ≠ [] then
    some (some ⟨upper, (scanSign t).1, (scanDigits (scanSign t).2).1, h⟩,
      (scanDigits (scanSign t).2).2)
  else none

def scanExp : List Char → Option (Option Exponent × List Char)
  | 'e' :: t => scanExpDigits false t
  | 'E' :: t => scanExpDigits true t
  | t => some (none, t)

theorem scanInt_zero {t : List Char} {ds : List Digit} (h : (scanInt t).1 = 0 :: ds) : ds = [] := by
  unfold scanInt at h
  split at h
  · simp only [List.cons.injEq, true_and] at h
    exact h.symm
  · rename_i hne
    rcases hs : scanDigits t with ⟨es, r⟩
    rw [hs] at h
    dsimp only at h
    subst h
    exact absurd hs (hne ds r)

def scanMinus : List Char → Bool × List Char
  | '-' :: t => (true, t)
  | t => (false, t)

/-- A number literal after its sign. -/
def scanUnsigned (neg : Bool) (t : List Char) : Option (Number × List Char) :=
  if h : (scanInt t).1 = [] then none
  else
    match scanFrac (scanInt t).2 with
    | none => none
    | some (frac, t') =>
      match scanExp t' with
      | none => none
      | some (exp, r) => some (⟨neg, (scanInt t).1, frac, exp, h, fun _ => scanInt_zero⟩, r)

def scanNumber (t : List Char) : Option (Number × List Char) :=
  scanUnsigned (scanMinus t).1 (scanMinus t).2

/-- The code units of a string literal, from after its opening quote. -/
def scanString : List Char → Option (List ℕ × List Char)
  | [] => none
  | c :: t =>
    if c = '"' then some ([], t)
    else if c = '\\' then
      match t with
      | 'u' :: a :: b :: c :: d :: t =>
        match hex4 a b c d with
        | some u => (scanString t).map fun p => (u :: p.1, p.2)
        | none => none
      | e :: t =>
        match simpleEscape? e with
        | some u => (scanString t).map fun p => (u :: p.1, p.2)
        | none => none
      | [] => none
    else if c.toNat < 0x20 then none
    else (scanString t).map fun p => (utf16Char c ++ p.1, p.2)

/-- A value that is not an array or an object. A surrogate escape without a partner decodes to
U+FFFD. -/
def scanScalar : List Char → Option (Token × List Char)
  | 'n' :: 'u' :: 'l' :: 'l' :: r => some (.null, r)
  | 't' :: 'r' :: 'u' :: 'e' :: r => some (.bool true, r)
  | 'f' :: 'a' :: 'l' :: 's' :: 'e' :: r => some (.bool false, r)
  | '"' :: t => (scanString t).map fun p => (.string (utf16DecodeLossy p.1), p.2)
  | t => (scanNumber t).map fun p => (.number p.1, p.2)

/-! ## The decoder -/

/-- Whether a value or a member follows before the enclosing delimiter closes. -/
def Decoder.more (d : Decoder) : Bool :=
  match skipSpace d.buf with
  | [] => false
  | c :: _ => c ≠ ']' && c ≠ '}'

/-- Past the comma or the colon the state calls for. -/
def Decoder.advance (d : Decoder) : Option Decoder :=
  match skipSpace d.buf with
  | ':' :: t =>
    if d.tokenState = .objectColon then some ⟨t, .objectValue, d.tokenStack⟩ else none
  | ',' :: t =>
    if d.tokenState = .arrayComma then some ⟨t, .arrayValue, d.tokenStack⟩
    else if d.tokenState = .objectComma then some ⟨t, .objectKey, d.tokenStack⟩
    else none
  | _ => some d

/-- The token at the next character. A second comma or colon is an error, as no state that
`advance` leaves allows one. -/
def Decoder.next (d : Decoder) : Option (Token × Decoder) :=
  match skipSpace d.buf with
  | [] => none
  | c :: t =>
    if c = '[' then
      if d.tokenState.valueAllowed then
        some (.delim '[', ⟨t, .arrayStart, d.tokenState :: d.tokenStack⟩)
      else none
    else if c = ']' then
      if d.tokenState = .arrayStart ∨ d.tokenState = .arrayComma then
        match d.tokenStack with
        | s :: stack => some (.delim ']', ⟨t, s.valueEnd, stack⟩)
        | [] => none
      else none
    else if c = '{' then
      if d.tokenState.valueAllowed then
        some (.delim '{', ⟨t, .objectStart, d.tokenState :: d.tokenStack⟩)
      else none
    else if c = '}' then
      if d.tokenState = .objectStart ∨ d.tokenState = .objectComma then
        match d.tokenStack with
        | s :: stack => some (.delim '}', ⟨t, s.valueEnd, stack⟩)
        | [] => none
      else none
    else if c = ':' ∨ c = ',' then none
    else if c = '"' ∧ (d.tokenState = .objectStart ∨ d.tokenState = .objectKey) then
      (scanString t).map fun p =>
        (.string (utf16DecodeLossy p.1), ⟨p.2, .objectColon, d.tokenStack⟩)
    else if d.tokenState.valueAllowed then
      (scanScalar (c :: t)).map fun p => (p.1, ⟨p.2, d.tokenState.valueEnd, d.tokenStack⟩)
    else none

def Decoder.token (d : Decoder) : Option (Token × Decoder) := d.advance.bind Decoder.next

/-- `Decode` into an empty interface answers `io.EOF`: only whitespace is left. -/
def Decoder.atEOF (d : Decoder) : Bool := skipSpace d.buf = []

end Go
