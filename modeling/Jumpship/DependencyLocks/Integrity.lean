import Jumpship.Lib.Base64

/-!
# Integrity values

`_integrity_value_valid` of the dependency checks, on code points.
-/

namespace DependencyLocks

abbrev Codes := List ℕ

def codes (s : String) : Codes := s.toList.map Char.toNat

/-- `base64.b64decode(encoded, validate=True)` -/
def b64decode : Codes → Option (List UInt8)
  | [] => some []
  | a :: b :: c :: d :: rest => do
    let w ← Base64.digit? a
    let x ← Base64.digit? b
    if c = Base64.pad then
      if d = Base64.pad && rest = [] then some [Base64.byte₁ w x] else none
    else
      let y ← Base64.digit? c
      if d = Base64.pad then
        if rest = [] then some [Base64.byte₁ w x, Base64.byte₂ x y] else none
      else
        let z ← Base64.digit? d
        let bytes ← b64decode rest
        some (Base64.byte₁ w x :: Base64.byte₂ x y :: Base64.byte₃ y z :: bytes)
  | _ => none

/-- `[0-9a-f]{count}` -/
def isHex (count : ℕ) (value : Codes) : Bool :=
  value.length = count && value.all fun c => (48 ≤ c && c ≤ 57) || (97 ≤ c && c ≤ 102)

/-- An encoding of so many bytes after a prefix. -/
def isEncoded (start : String) (length : ℕ) (value : Codes) : Bool :=
  (codes start).isPrefixOf value &&
    (b64decode (value.drop (codes start).length)).any fun decoded => decoded.length = length

/-- `_integrity_value_valid` of two strings. -/
def integrityValueValid (algorithm value : Codes) : Bool :=
  if algorithm = codes "sha256" then isHex 64 value
  else if algorithm = codes "sha512" then isHex 128 value
  else if algorithm = codes "oci-digest" then
    (codes "sha256:").isPrefixOf value && isHex 64 (value.drop 7)
  else if algorithm = codes "npm-sri" then isEncoded "sha512-" 64 value
  else if algorithm = codes "go-sum" then isEncoded "h1:" 32 value
  else false

end DependencyLocks
