import Jumpship.Canonical.Detached
import Jumpship.Client.Jcs
import Jumpship.Client.Registry
import Jumpship.Client.Signature
import Jumpship.Client.Time

/-!
# Detached signatures in the browser

`validatePublicKeyRegistry` and `verifyDetached` of the generated TypeScript, on texts of payloads. What
`crypto.subtle` imports and verifies is left open; a call that throws answers none.
-/

namespace Client

open Unicode Pattern
open Canonical (SignatureClaims SignatureEnvelope PublicKeyRegistry RegistryKey numberOfVersion)

/-- `VerifyExpectation`; `at.getTime()` is none where it is not finite. -/
structure VerifyExpectation where
  objectType : List Char
  objectSchemaID : List Char
  objectSchemaVersion : List Char
  purpose : List Char
  environment : List Char
  tenantScope : Option (List Char)
  migrationScope : Option (List Char)
  registryHash : List Char
  getTime : Option ℤ
deriving DecidableEq

/-- `crypto.subtle`: an imported key with its algorithm's name and its curve, or its modulus length. -/
structure Subtle (κ : Type) where
  importECDSA : List UInt8 → Option (κ × List Char × List Char)
  importRSAPSS : List UInt8 → Option (κ × List Char × ℕ)
  verifyECDSA : κ → List UInt8 → List UInt8 → Bool
  verifyRSAPSS : κ → List UInt8 → List UInt8 → Bool

/-! ## Public keys -/

/-- `[A-Za-z0-9+/=\r\n]` -/
def isBodyUnit (u : ℕ) : Bool := Base64.alphabet.contains u || u = Base64.pad || u = 0x0D || u = 0x0A

/-- `\r?\n`, taken off the front. -/
def lineEnd : List ℕ → Option (List ℕ)
  | 0x0D :: 0x0A :: rest => some rest
  | 0x0A :: rest => some rest
  | _ => none

def stripPrefix : List ℕ → List ℕ → Option (List ℕ)
  | [], rest => some rest
  | c :: cs, u :: rest => if c = u then stripPrefix cs rest else none
  | _ :: _, [] => none

/-- The body has no `-`, so the greedy group ends where the footer begins. -/
def publicKeyDER (pem : List ℕ) : Option (List UInt8) := do
  let rest ← stripPrefix (utf16 "-----BEGIN PUBLIC KEY-----".toList) pem
  let rest ← lineEnd rest
  let body := rest.takeWhile isBodyUnit
  let rest ← stripPrefix (utf16 "-----END PUBLIC KEY-----".toList) (rest.dropWhile isBodyUnit)
  if body = [] then none
  else if rest = [] ∨ lineEnd rest = some [] then
    base64Bytes (body.filter fun u => !(u = 0x0D || u = 0x0A))
  else none

section Verify

variable {κ : Type} (subtle : Subtle κ)

/-! ## validatePublicKeyRegistry -/

/-- `^[0-9a-f]{64}$` -/
def hashHex : RegularExpression ℕ := oneOf (span '0' '9' ++ span 'a' 'f') ^ 64

def isHashHex (value : List Char) : Bool := hashHex.rmatch (utf16 value)

/-- The checks ahead of the loops. The version is the number it is read as. -/
def validHeader (registry : PublicKeyRegistry) : Bool :=
  if registry.schemaVersion ≠ "1.0.0".toList || (numberOfVersion registry.registryVersion).value < 1 ||
      registry.keys.length < 1 then
    false
  else if !isHashHex registry.registryID || !isHashHex registry.rootFingerprint ||
      !isHashHex registry.purposePolicyHash then
    false
  else if (if (numberOfVersion registry.registryVersion).value = 1 then registry.previousRegistryHash ≠ none
      else registry.previousRegistryHash.all fun hash => !isHashHex hash) then
    false
  else if strictRFC3339Nanos (utf16 registry.issuedAt) = none then false
  else decide (registry.keys.map RegistryKey.kid).Nodup

/-- The status of a candidate against its metadata. -/
def validStatus (candidate : RegistryKey) (validFrom : ℤ) : Bool :=
  let revokedAt := candidate.revokedAt.bind fun text => strictRFC3339Nanos (utf16 text)
  if candidate.status = "revoked".toList then
    match revokedAt with
    | none => false
    | some revokedAt => candidate.revocationReason ≠ none && !(revokedAt < validFrom)
  else if candidate.status = "active".toList || candidate.status = "superseded".toList then
    candidate.revokedAt = none && candidate.revocationReason = none
  else false

/-- The imported key against the algorithm. -/
def validKey (candidate : RegistryKey) : Bool :=
  if candidate.algorithm = "ECDSA_P256_SHA256".toList then
    match (publicKeyDER (utf16 candidate.publicKeyPem)).bind subtle.importECDSA with
    | none => false
    | some (_, name, curve) => name = "ECDSA".toList && curve = "P-256".toList
  else if candidate.algorithm = "RSA_PSS_SHA256".toList then
    match (publicKeyDER (utf16 candidate.publicKeyPem)).bind subtle.importRSAPSS with
    | none => false
    | some (_, name, modulusLength) => name = "RSA-PSS".toList && !(modulusLength < 2048)
  else false

def validCandidate (candidate : RegistryKey) : Bool :=
  match strictRFC3339Nanos (utf16 candidate.validFrom), strictRFC3339Nanos (utf16 candidate.validUntil) with
  | some validFrom, some validUntil =>
    !(validUntil < validFrom) && validStatus candidate validFrom && validKey subtle candidate
  | _, _ => false

/-- The loop over the candidates checks the link of each too; whichever fails first, the answer is
false. -/
def validatePublicKeyRegistry (registry : PublicKeyRegistry) : Option Bool :=
  if !validHeader registry then some false
  else if !registry.keys.all (validCandidate subtle) then some false
  else validSupersession registry.keys

/-! ## verifyDetached -/

def registryDigest (registry : PublicKeyRegistry) : List Char :=
  Hex.encodeToString (Sha256.sha256 (utf8 (canonicalValue (registry.json numberOfVersion))))

/-- What is compared with the claims before the registry is checked. -/
def meant (claims : SignatureClaims) (registry : PublicKeyRegistry) (expected : VerifyExpectation) :
    Bool :=
  claims.schemaVersion = "1.0.0".toList && claims.objectType = expected.objectType &&
    claims.objectSchemaID = expected.objectSchemaID &&
    claims.objectSchemaVersion = expected.objectSchemaVersion && claims.purpose = expected.purpose &&
    claims.environment = expected.environment && claims.tenantScope = expected.tenantScope &&
    claims.migrationScope = expected.migrationScope && claims.keyRegistryID = registry.registryID &&
    claims.keyRegistryHash = expected.registryHash &&
    expected.registryHash = registryDigest registry

/-- `includes` of a list that may be null: none is the TypeError. -/
def includes (items : Option (List (List Char))) (item : List Char) : Option Bool :=
  items.map fun items => items.contains item

/-- The checks of the key of the claims, and of the instants against it. -/
def validInstants (claims : SignatureClaims) (key : RegistryKey) (atNanos : ℤ) : Bool :=
  match strictRFC3339Nanos (utf16 claims.issuedAt), strictRFC3339Nanos (utf16 key.validFrom),
    strictRFC3339Nanos (utf16 key.validUntil) with
  | some issuedAt, some keyValidFrom, some keyValidUntil =>
    !(atNanos < issuedAt || issuedAt < keyValidFrom || keyValidUntil < issuedAt) &&
      !(atNanos < keyValidFrom || keyValidUntil < atNanos) &&
      (key.revokedAt.all fun text =>
        (strictRFC3339Nanos (utf16 text)).any fun revokedAt => atNanos < revokedAt) &&
      claims.expiresAt.all fun text =>
        (strictRFC3339Nanos (utf16 text)).any fun expiresAt =>
          !(expiresAt < issuedAt) && !(expiresAt < atNanos)
  | _, _, _ => false

/-- The block that answers false where it throws. -/
def validSignature (claims : SignatureClaims) (key : RegistryKey) (signatureBase64 : List Char) : Bool :=
  let claimsBytes := utf8 (canonicalValue claims.json)
  match base64Bytes (utf16 signatureBase64) with
  | none => false
  | some signature =>
    if claims.algorithm = "ECDSA_P256_SHA256".toList then
      match (publicKeyDER (utf16 key.publicKeyPem)).bind subtle.importECDSA, ecdsaDERToRaw signature with
      | some (publicKey, _), some raw => subtle.verifyECDSA publicKey raw claimsBytes
      | _, _ => false
    else if claims.algorithm ≠ "RSA_PSS_SHA256".toList then false
    else
      match (publicKeyDER (utf16 key.publicKeyPem)).bind subtle.importRSAPSS with
      | some (publicKey, _) => subtle.verifyRSAPSS publicKey signature claimsBytes
      | none => false

/-- The part of `verifyDetached` after the registry is found valid. -/
def validForKey (claims : SignatureClaims) (signatureBase64 : List Char) (registry : PublicKeyRegistry)
    (atNanos : ℤ) : Option Bool :=
  if (strictRFC3339Nanos (utf16 registry.issuedAt)).all fun issuedAt => atNanos < issuedAt then some false
  else
    match registry.keys.find? fun candidate => candidate.kid = claims.kid with
    | none => some false
    | some key =>
      if key.status ≠ "active".toList || claims.algorithm ≠ key.algorithm then some false
      else do
        if !(← includes key.purposes claims.purpose) then some false
        else if !(← includes key.environments claims.environment) then some false
        else if key.tenantScope ≠ claims.tenantScope then some false
        else if !validInstants claims key atNanos then some false
        else some (validSignature subtle claims key signatureBase64)

/-- `verifyDetached` of the text of a payload. -/
def verifyDetached (payload : List ℕ) (envelope : SignatureEnvelope) (registry : PublicKeyRegistry)
    (expected : VerifyExpectation) : Option Bool :=
  match expected.getTime with
  | none => some false
  | some time =>
    if !meant envelope.claims registry expected then some false
    else do
      let value ← strictParse payload
      let digest ← typedDigest (utf16 envelope.objectType) (utf16 envelope.objectSchemaVersion) value
      if envelope.payloadDigest ≠ digest then some false
      else do
        let identity ← typedDigest (utf16 "signature_envelope".toList) (utf16 envelope.schemaVersion)
          envelope.claims.json
        if envelope.envelopeID ≠ identity then some false
        else if !(← validatePublicKeyRegistry subtle registry) then some false
        else validForKey subtle envelope.claims envelope.signatureBase64 registry (time * 1000000)

end Verify

end Client
