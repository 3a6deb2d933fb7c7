import Jumpship.Go.TokenStream
import Jumpship.Go.Strconv
import Jumpship.Lib.JsonWriter
import Jumpship.Lib.Sha256
import Jumpship.Lib.Hex

/-!
# CanonicalizeJSON and TypedDigest

The Go package `canonical`. A Go string that came out of the JSON decoder is kept as its code
points; the strings and byte slices handed in are bytes.
-/

namespace Canonical

open Go JsonText Unicode

/-- A Go value of type `any` as `decodeValue` builds it, numbers being `json.Number`. A map keeps
its members in the order they were added. -/
abbrev Value := Json (List Char) Number

inductive DecodeError where
  | token
  | memberName
  | duplicate (key : List Char)
  | unterminatedObject
  | unterminatedArray
  | unexpectedDelimiter (c : Char)
deriving DecidableEq

inductive Error where
  | invalidJSON
  | decode (cause : DecodeError)
  | trailingValue
  | unsupportedNumber
  | invalidDomain
deriving DecidableEq

/-! ## Decoding -/

mutual
/-- The fuel bounds the calls in progress; the length of the text is enough. -/
def decodeValue : ℕ → Decoder → Except DecodeError (Value × Decoder)
  | 0, _ => .error .token
  | fuel + 1, d =>
    match d.token with
    | none => .error .token
    | some (.null, d) => .ok (.null, d)
    | some (.bool b, d) => .ok (.bool b, d)
    | some (.string s, d) => .ok (.str s, d)
    | some (.number n, d) => .ok (.num n, d)
    | some (.delim c, d) =>
      if c = '{' then decodeObject fuel [] d
      else if c = '[' then decodeArray fuel [] d
      else .error (.unexpectedDelimiter c)
def decodeObject : ℕ → List (List Char × Value) → Decoder → Except DecodeError (Value × Decoder)
  | 0, _, _ => .error .token
  | fuel + 1, result, d =>
    if d.more then
      match d.token with
      | none => .error .token
      | some (.string key, d) =>
        if key ∈ Json.names result then .error (.duplicate key)
        else
          match decodeValue fuel d with
          | .error e => .error e
          | .ok (child, d) => decodeObject fuel (result ++ [(key, child)]) d
      | some _ => .error .memberName
    else
      match d.token with
      | some (.delim '}', d) => .ok (.obj result, d)
      | _ => .error .unterminatedObject
def decodeArray : ℕ → List Value → Decoder → Except DecodeError (Value × Decoder)
  | 0, _, _ => .error .token
  | fuel + 1, result, d =>
    if d.more then
      match decodeValue fuel d with
      | .error e => .error e
      | .ok (child, d) => decodeArray fuel (result ++ [child]) d
    else
      match d.token with
      | some (.delim ']', d) => .ok (.arr result, d)
      | _ => .error .unterminatedArray
end

/-! ## Encoding -/

/-- What `appendString` writes for one code point. -/
def appendRune (r : Char) : List Char :=
  if r = '"' ∨ r = '\\' then ['\\', r]
  else if r.toNat = 8 then ['\\', 'b']
  else if r.toNat = 9 then ['\\', 't']
  else if r.toNat = 10 then ['\\', 'n']
  else if r.toNat = 12 then ['\\', 'f']
  else if r.toNat = 13 then ['\\', 'r']
  else if r.toNat < 0x20 then
    ['\\', 'u', '0', '0', Hex.digit (r.toNat / 16), Hex.digit (r.toNat % 16)]
  else [r]

/-- The value is well-formed text, so neither error of the source can arise. -/
def appendString (value : List Char) : List Char := writeString appendRune value

/-- The double nearest the constant `1e-6`. -/
def smallest : ℚ := Binary64.roundMagnitude (1 / 10 ^ 6)

def canonicalNumber (raw : Number) : Except Error (List Char) :=
  match parseFloat raw with
  | none => .error .unsupportedNumber
  | some value =>
    if value.value = 0 then .ok ['0']
    else if smallest ≤ |value.value| ∧ |value.value| < 10 ^ 21 then
      .ok (formatFloat fixedText value)
    else
      match splitE (formatFloat scientificText value) with
      | [mantissa, exponentText] =>
        match atoi exponentText with
        | none => .error .unsupportedNumber
        | some exponent =>
          .ok (mantissa ++ 'e' :: ((if 0 ≤ exponent then ['+'] else []) ++ itoa exponent))
      | _ => .error .unsupportedNumber

/-! ## The text of a double -/

section Text

/-- The digits with a point after the first. -/
def mantissaText (ds : List Digit) : List Char :=
  digitsText (ds.take 1) ++ (if ds.length ≤ 1 then [] else '.' :: digitsText (ds.drop 1))

/-- Scientific notation with the exponent as JCS writes it. -/
def exponentText (ds : List Digit) (point : ℤ) : List Char :=
  mantissaText ds ++ 'e' :: ((if 0 ≤ point - 1 then ['+'] else []) ++ itoa (point - 1))

/-- The canonical text of a double. -/
def numberText (x : Binary64) : List Char :=
  if x.value = 0 then ['0']
  else if smallest ≤ |x.value| ∧ |x.value| < 10 ^ 21 then formatFloat fixedText x
  else formatFloat exponentText x

end Text

/-! ## Members in order -/

def unitsLess : List ℕ → List ℕ → Bool
  | left :: ls, right :: rs => if left ≠ right then left < right else unitsLess ls rs
  | [], _ :: _ => true
  | _, [] => false

def utf16Less (left right : List Char) : Bool := unitsLess (utf16 left) (utf16 right)

/-- `utf16Less` of two Go strings: `[]rune` decodes their bytes. -/
def stringLess (left right : List UInt8) : Bool := utf16Less (runes left) (runes right)

/-- The order `sort.Slice` leaves the keys in. -/
def KeyLE (left right : List Char) : Prop := utf16Less right left = false

instance : DecidableRel KeyLE := fun left right =>
  inferInstanceAs (Decidable (utf16Less right left = false))

mutual
/-- The values of an object are rendered before its keys are sorted: there is one error a value
can give, so the order does not show. -/
def appendCanonical : Value → Except Error (List Char)
  | .null => .ok ['n', 'u', 'l', 'l']
  | .bool true => .ok ['t', 'r', 'u', 'e']
  | .bool false => .ok ['f', 'a', 'l', 's', 'e']
  | .str s => .ok (appendString s)
  | .num raw => canonicalNumber raw
  | .arr xs => do
    let texts ← appendElements xs
    .ok ('[' :: (joinComma texts ++ [']']))
  | .obj ms => do
    let members ← appendMembers ms
    .ok ('{' :: (joinComma ((Json.sortByName KeyLE members).map (writeMember appendRune)) ++ ['}']))
def appendElements : List Value → Except Error (List (List Char))
  | [] => .ok []
  | x :: xs => do
    let text ← appendCanonical x
    let texts ← appendElements xs
    .ok (text :: texts)
def appendMembers : List (List Char × Value) → Except Error (List (List Char × List Char))
  | [] => .ok []
  | (key, x) :: ms => do
    let text ← appendCanonical x
    let members ← appendMembers ms
    .ok ((key, text) :: members)
end

/-! ## Lone surrogate escapes -/

/-- The scan of `hasLoneSurrogateEscape` over the bytes left, from its two flags. -/
def surrogateScan : (inString escaped : Bool) → List UInt8 → Bool
  | _, _, [] => false
  | false, escaped, current :: rest =>
    if current = 0x22 then surrogateScan true escaped rest else surrogateScan false escaped rest
  | true, true, current :: rest =>
    if current ≠ 0x75 then surrogateScan true false rest
    else
      match rest with
      | a :: b :: c :: d :: after =>
        match parseHexUnit [a, b, c, d] with
        | none => surrogateScan true false (a :: b :: c :: d :: after)
        | some unit =>
          if isHighSurrogate unit then
            match after with
            | s :: u :: e :: f :: g :: h :: after' =>
              if s ≠ 0x5C || u ≠ 0x75 then true
              else
                match parseHexUnit [e, f, g, h] with
                | none => true
                | some low =>
                  if isLowSurrogate low then surrogateScan true false after' else true
            | _ => true
          else if isLowSurrogate unit then true
          else surrogateScan true false after
      | rest => surrogateScan true false rest
  | true, false, current :: rest =>
    if current = 0x5C then surrogateScan true true rest
    else if current = 0x22 then surrogateScan false false rest
    else surrogateScan true false rest

def hasLoneSurrogateEscape (input : List UInt8) : Bool := surrogateScan false false input

/-! ## CanonicalizeJSON -/

def canonicalizeJSON (input : List UInt8) : Except Error (List UInt8) :=
  match utf8Decode input with
  | none => .error .invalidJSON
  | some text =>
    if hasLoneSurrogateEscape input then .error .invalidJSON
    else
      match decodeValue (text.length + 1) (newDecoder text) with
      | .error e => .error (.decode e)
      | .ok (value, decoder) =>
        if decoder.more then .error .trailingValue
        else if !decoder.atEOF then .error .trailingValue
        else (appendCanonical value).map utf8

/-! ## TypedDigest -/

def ascii (text : String) : List UInt8 := utf8 text.toList

def validDomainToken (value : List UInt8) : Bool :=
  if value = [] || 96 < value.length then false
  else (runes value).all fun r =>
    ('a' ≤ r && r ≤ 'z') || ('0' ≤ r && r ≤ '9') || r = '_' || r = '-'

def validPart (part : List UInt8) : Bool :=
  if part = [] || (1 < part.length && part.head? = some 0x30) then false
  else (runes part).all fun r => '0' ≤ r && r ≤ '9'

def validSchemaVersion (value : List UInt8) : Bool :=
  let parts := value.splitOn 0x2E
  if parts.length ≠ 3 then false else parts.all validPart

/-- The bytes `TypedDigest` hashes. -/
def typedDigestInput (objectType schemaVersion logicalPayload : List UInt8) :
    Except Error (List UInt8) :=
  if !validDomainToken objectType || !validSchemaVersion schemaVersion then .error .invalidDomain
  else do
    let canonical ← canonicalizeJSON logicalPayload
    .ok (ascii "jumpship:" ++ objectType ++ ascii ":" ++ schemaVersion ++ [0] ++ canonical)

def typedDigest (objectType schemaVersion logicalPayload : List UInt8) :
    Except Error (List UInt8) :=
  (typedDigestInput objectType schemaVersion logicalPayload).map Sha256.sha256

def typedDigestHex (objectType schemaVersion logicalPayload : List UInt8) :
    Except Error (List Char) :=
  (typedDigest objectType schemaVersion logicalPayload).map Hex.encodeToString

end Canonical
