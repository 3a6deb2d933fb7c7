import Jumpship.Go.Base64
import Jumpship.Lib.Unicode

/-!
# Detached signatures

The decoding of `signature_base64` in `VerifyDetached`.
-/

namespace Canonical

open Pattern Unicode

/-- `^(?:[A-Za-z0-9+/]{4})*(?:[A-Za-z0-9+/]{2}==|[A-Za-z0-9+/]{3}=)?$` -/
def canonicalBase64Pattern : RegularExpression ℕ :=
  (oneOf Base64.alphabet ^ 4).star *
    (1 + (oneOf Base64.alphabet ^ 2 * word [Base64.pad, Base64.pad] +
      oneOf Base64.alphabet ^ 3 * .char Base64.pad))

/-- The bytes of a detached signature, none where its encoding is invalid. -/
def decodeSignature (signatureBase64 : List UInt8) : Option (List UInt8) :=
  if canonicalBase64Pattern.rmatch ((runes signatureBase64).map Char.toNat) then
    Go.strictDecodeString signatureBase64
  else none

end Canonical
