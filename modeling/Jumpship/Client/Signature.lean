import Jumpship.Js.Base64

/-!
# The signatures of the generated client

`base64Bytes` and `ecdsaDERToRaw` of the generated TypeScript. A function that throws answers none.
-/

namespace Client

open Pattern

/-! ## base64Bytes -/

/-- `^(?:[A-Za-z0-9+/]{4})*(?:[A-Za-z0-9+/]{2}==|[A-Za-z0-9+/]{3}=)?$` -/
def canonicalBase64 : RegularExpression ℕ :=
  (oneOf Base64.alphabet ^ 4).star *
    (1 + (oneOf Base64.alphabet ^ 2 * word [Base64.pad, Base64.pad] +
      oneOf Base64.alphabet ^ 3 * .char Base64.pad))

def base64Bytes (value : List ℕ) : Option (List UInt8) :=
  if !canonicalBase64.rmatch value then none
  else do
    let decoded ← Js.atob value
    if Js.btoa decoded ≠ value then none else some decoded

/-! ## ecdsaDERToRaw -/

/-- `readLength`: the length written at an offset, and the offset after it. -/
def readLength (signature : List UInt8) (limit offset : ℕ) : Option (ℕ × ℕ) :=
  if limit ≤ offset then none
  else do
    let first ← signature[offset]?
    if first < 0x80 then some (first.toNat, offset + 1)
    else
      let count := (first &&& 0x7F).toNat
      if count < 1 || 2 < count || limit < offset + 1 + count then none
      else if signature[offset + 1]? = some 0 then none
      else
        let length := ((signature.drop (offset + 1)).take count).foldl (fun n b => n * 256 + b.toNat) 0
        if length < 0x80 then none else some (length, offset + 1 + count)

/-- The integer of two's complement bytes in 32 bytes. -/
def paddedInteger (encoded : List UInt8) : Option (List UInt8) := do
  let first ← encoded[0]?
  if first &&& 0x80 ≠ 0 then none
  else if 1 < encoded.length && first = 0 && encoded[1]?.map (· &&& 0x80) = some 0 then none
  else
    let integer := if 1 < encoded.length && first = 0 then encoded.drop 1 else encoded
    if integer.all (· = 0) then none
    else if 32 < integer.length then none
    else some (List.replicate (32 - integer.length) 0 ++ integer)

/-- One round of the loop over `part`: the integer at an offset in 32 bytes, and the offset after
it. -/
def readInteger (signature : List UInt8) (sequenceEnd offset : ℕ) : Option (List UInt8 × ℕ) :=
  if sequenceEnd ≤ offset then none
  else if signature[offset]? ≠ some 0x02 then none
  else do
    let (length, offset) ← readLength signature sequenceEnd (offset + 1)
    if length = 0 || sequenceEnd < offset + length then none
    else
      let padded ← paddedInteger ((signature.drop offset).take length)
      some (padded, offset + length)

def ecdsaDERToRaw (signature : List UInt8) : Option (List UInt8) :=
  if signature.length ≤ 0 then none
  else if signature[0]? ≠ some 0x30 then none
  else do
    let (sequenceLength, offset) ← readLength signature signature.length 1
    let sequenceEnd := offset + sequenceLength
    if sequenceEnd ≠ signature.length then none
    else
      let (r, offset) ← readInteger signature sequenceEnd offset
      let (s, offset) ← readInteger signature sequenceEnd offset
      if offset ≠ sequenceEnd then none else some (r ++ s)

end Client
