import Jumpship.Js.Json
import Jumpship.Lib.Pattern
import Jumpship.Lib.Sha256
import Jumpship.Lib.Hex

/-!
# The generated canonicalization client

`canonicalizeJson` and `typedDigest` of the generated TypeScript. A function that throws answers
none.
-/

namespace Client

open JsonText Unicode Pattern

/-- A value `strictParse` builds. Its strings have passed `rejectLoneSurrogates`. -/
abbrev JsonValue := Json (List Char) Binary64

/-! ## Patterns -/

/-- The code units from one ASCII character to another. -/
def span (first last : Char) : List ℕ :=
  List.range' first.toNat (last.toNat + 1 - first.toNat)

def digitClass : RegularExpression ℕ := oneOf (span '0' '9')

def domainTokenClass : List ℕ := span 'a' 'z' ++ span '0' '9' ++ ['_'.toNat, '-'.toNat]

/-- `^[a-z0-9_-]{1,96}$` -/
def domainToken : RegularExpression ℕ := between (oneOf domainTokenClass) 1 95

/-- `(0|[1-9][0-9]*)` -/
def versionPart : RegularExpression ℕ :=
  .char '0'.toNat + oneOf (span '1' '9') * digitClass.star

/-- `^(0|[1-9][0-9]*)\.(0|[1-9][0-9]*)\.(0|[1-9][0-9]*)$` -/
def schemaVersion : RegularExpression ℕ :=
  versionPart * (.char '.'.toNat * (versionPart * (.char '.'.toNat * versionPart)))

/-! ## strictParse -/

/-- The text of a string whose surrogates are all paired. -/
def rejectLoneSurrogates (value : List ℕ) : Option (List Char) := utf16Decode value

def isWhitespace (u : ℕ) : Bool := u = 0x09 || u = 0x0A || u = 0x0D || u = 0x20

def whitespace : List ℕ → List ℕ
  | [] => []
  | u :: t => if isWhitespace u then whitespace t else u :: t

/-- The slice `parseString` hands to `JSON.parse`, from after its opening quote, and the rest. The
four units after a `\u` are skipped unread. -/
def sliceString : List ℕ → Option (List ℕ × List ℕ)
  | [] => none
  | current :: t =>
    if current = 0x22 then some ([0x22], t)
    else if current = 0x5C then
      match t with
      | 0x75 :: a :: b :: c :: d :: t =>
        (sliceString t).map fun p => (0x5C :: 0x75 :: a :: b :: c :: d :: p.1, p.2)
      | escape :: t =>
        if escape = 0x75 then none
        else (sliceString t).map fun p => (0x5C :: escape :: p.1, p.2)
      | [] => none
    else if current < 0x20 then none
    else (sliceString t).map fun p => (current :: p.1, p.2)

def parseString : List ℕ → Option (List Char × List ℕ)
  | 0x22 :: t => do
    let (literal, rest) ← sliceString t
    let units ← Js.parseLiteral literal
    let value ← rejectLoneSurrogates units
    some (value, rest)
  | _ => none

def matchDigits : List ℕ → List Digit × List ℕ
  | [] => ([], [])
  | u :: t =>
    match digit? (Js.charAt u) with
    | some d => (d :: (matchDigits t).1, (matchDigits t).2)
    | none => ([], u :: t)

/-- `(?:0|[1-9][0-9]*)`, no digits where it does not match. -/
def matchInt (t : List ℕ) : List Digit × List ℕ :=
  match matchDigits t with
  | (0 :: _, _) => ([0], t.drop 1)
  | r => r

/-- `(?:\.[0-9]+)?` -/
def matchFrac (t : List ℕ) : List Digit × List ℕ :=
  match t with
  | 0x2E :: u => if (matchDigits u).1 = [] then ([], t) else matchDigits u
  | _ => ([], t)

def matchSign : List ℕ → Option Bool × List ℕ
  | 0x2B :: t => (some false, t)
  | 0x2D :: t => (some true, t)
  | t => (none, t)

/-- `(?:[eE][+-]?[0-9]+)?` -/
def matchExp (t : List ℕ) : Option Exponent × List ℕ :=
  match t with
  | e :: u =>
    if e = 0x65 ∨ e = 0x45 then
      if h : (matchDigits (matchSign u).2).1 ≠ [] then
        (some ⟨e = 0x45, (matchSign u).1, (matchDigits (matchSign u).2).1, h⟩,
          (matchDigits (matchSign u).2).2)
      else (none, t)
    else (none, t)
  | [] => (none, t)

theorem matchInt_zero {t : List ℕ} {ds : List Digit} (h : (matchInt t).1 = 0 :: ds) : ds = [] := by
  unfold matchInt at h
  split at h
  · simp only [List.cons.injEq, true_and] at h
    exact h.symm
  · rename_i hne
    rcases hs : matchDigits t with ⟨es, r⟩
    rw [hs] at h
    dsimp only at h
    subst h
    exact absurd hs (hne ds r)

def matchMinus : List ℕ → Bool × List ℕ
  | 0x2D :: t => (true, t)
  | t => (false, t)

/-- The number pattern after its `-?`, each part taken as far as it goes. -/
def matchUnsigned (neg : Bool) (t : List ℕ) : Option (Number × List ℕ) :=
  if h : (matchInt t).1 = [] then none
  else
    let (frac, t') := matchFrac (matchInt t).2
    let (exp, rest) := matchExp t'
    some (⟨neg, (matchInt t).1, frac, exp, h, fun _ => matchInt_zero⟩, rest)

def matchNumber (t : List ℕ) : Option (Number × List ℕ) :=
  matchUnsigned (matchMinus t).1 (matchMinus t).2

/-- A literal name or a number. `Number` of an overflowing literal is infinite and is refused. -/
def parseScalar : List ℕ → Option (JsonValue × List ℕ)
  | 0x74 :: 0x72 :: 0x75 :: 0x65 :: t => some (.bool true, t)
  | 0x66 :: 0x61 :: 0x6C :: 0x73 :: 0x65 :: t => some (.bool false, t)
  | 0x6E :: 0x75 :: 0x6C :: 0x6C :: t => some (.null, t)
  | t => do
    let (number, rest) ← matchNumber t
    let value ← Binary64.nearest number.value
    some (.num value, rest)

mutual
/-- The fuel bounds the calls in progress; the length of the source is enough. -/
def parseValue : ℕ → List ℕ → Option (JsonValue × List ℕ)
  | 0, _ => none
  | fuel + 1, source =>
    match whitespace source with
    | 0x7B :: t =>
      match whitespace t with
      | 0x7D :: t => some (.obj [], t)
      | t => parseMembers fuel [] t
    | 0x5B :: t =>
      match whitespace t with
      | 0x5D :: t => some (.arr [], t)
      | t => parseElements fuel [] t
    | 0x22 :: t => (parseString (0x22 :: t)).map fun p => (.str p.1, p.2)
    | t => parseScalar t
def parseMembers : ℕ → List (List Char × JsonValue) → List ℕ → Option (JsonValue × List ℕ)
  | 0, _, _ => none
  | fuel + 1, object, t => do
    let (key, t) ← parseString (whitespace t)
    if key ∈ Json.names object then none
    else
      match whitespace t with
      | 0x3A :: t => do
        let (value, t) ← parseValue fuel t
        match whitespace t with
        | 0x7D :: t => some (.obj (object ++ [(key, value)]), t)
        | 0x2C :: t => parseMembers fuel (object ++ [(key, value)]) t
        | _ => none
      | _ => none
def parseElements : ℕ → List JsonValue → List ℕ → Option (JsonValue × List ℕ)
  | 0, _, _ => none
  | fuel + 1, array, t => do
    let (value, t) ← parseValue fuel t
    match whitespace t with
    | 0x5D :: t => some (.arr (array ++ [value]), t)
    | 0x2C :: t => parseElements fuel (array ++ [value]) t
    | _ => none
end

def strictParse (source : List ℕ) : Option JsonValue := do
  let (value, rest) ← parseValue (source.length + 1) source
  if whitespace rest = [] then some value else none

/-! ## canonicalValue -/

/-- The order `sort` leaves the keys in. -/
def UnitLE (left right : List Char) : Prop := utf16 left ≤ utf16 right

instance : DecidableRel UnitLE := fun left right =>
  inferInstanceAs (Decidable (utf16 left ≤ utf16 right))

mutual
/-- The values of an object are rendered before its keys are sorted: rendering never throws. -/
def canonicalValue : JsonValue → List Char
  | .null => ['n', 'u', 'l', 'l']
  | .bool true => ['t', 'r', 'u', 'e']
  | .bool false => ['f', 'a', 'l', 's', 'e']
  | .num x => Js.numberToString x
  | .str s => writeString Js.quoteChar s
  | .arr xs => '[' :: (joinComma (canonicalElements xs) ++ [']'])
  | .obj ms =>
    '{' :: (joinComma ((Json.sortByName UnitLE (canonicalMembers ms)).map
      (writeMember Js.quoteChar)) ++ ['}'])
def canonicalElements : List JsonValue → List (List Char)
  | [] => []
  | x :: xs => canonicalValue x :: canonicalElements xs
def canonicalMembers : List (List Char × JsonValue) → List (List Char × List Char)
  | [] => []
  | (key, x) :: ms => (key, canonicalValue x) :: canonicalMembers ms
end

/-- `canonicalizeJson` of a text. -/
def canonicalizeJson (input : List ℕ) : Option (List Char) := (strictParse input).map canonicalValue

/-! ## typedDigest -/

/-- `TextEncoder`'s bytes of a string of code units, an unpaired surrogate encoded as U+FFFD. -/
def encodeText (units : List ℕ) : List UInt8 := utf8 (utf16DecodeLossy units)

/-- The bytes `typedDigest` hashes for a payload value. -/
def typedDigestInput (objectType version : List ℕ) (payload : JsonValue) : Option (List UInt8) :=
  if !domainToken.rmatch objectType || !schemaVersion.rmatch version then none
  else
    some (utf8 "jumpship:".toList ++ encodeText objectType ++ utf8 ":".toList ++ encodeText version
      ++ [0] ++ utf8 (canonicalValue payload))

def typedDigest (objectType version : List ℕ) (payload : JsonValue) : Option (List Char) :=
  (typedDigestInput objectType version payload).map fun bytes =>
    Hex.encodeToString (Sha256.sha256 bytes)

end Client
