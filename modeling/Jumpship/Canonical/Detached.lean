import Jumpship.Canonical.Registry
import Jumpship.Canonical.Signature

/-!
# Detached signatures

`SignDetached` and `VerifyDetached` of the Go package `canonical`. What a `crypto.Signer` computes is
left open.
-/

namespace Canonical

open Go JsonText Unicode

/-! ## Contract types -/

structure SignatureClaims where
  algorithm : List Char
  environment : List Char
  expiresAt : Option (List Char)
  issuedAt : List Char
  keyRegistryHash : List Char
  keyRegistryID : List Char
  kid : List Char
  migrationScope : Option (List Char)
  objectSchemaID : List Char
  objectSchemaVersion : List Char
  objectType : List Char
  payloadDigest : List Char
  purpose : List Char
  schemaVersion : List Char
  signerID : List Char
  signerRole : List Char
  tenantScope : Option (List Char)
deriving DecidableEq

structure SignatureEnvelope where
  algorithm : List Char
  envelopeID : List Char
  environment : List Char
  expiresAt : Option (List Char)
  issuedAt : List Char
  keyRegistryHash : List Char
  keyRegistryID : List Char
  kid : List Char
  migrationScope : Option (List Char)
  objectSchemaID : List Char
  objectSchemaVersion : List Char
  objectType : List Char
  payloadDigest : List Char
  purpose : List Char
  schemaVersion : List Char
  signatureBase64 : List Char
  signerID : List Char
  signerRole : List Char
  tenantScope : Option (List Char)
deriving DecidableEq

structure VerificationKey where
  algorithm : List Char
  publicKeyPEM : List Char
  purposes : Option (List (List Char))
  environments : Option (List (List Char))
  tenantScope : Option (List Char)
  validFrom : List Char
  validUntil : List Char
  status : List Char
  revokedAt : Option (List Char)
deriving DecidableEq

structure VerifyExpectation where
  objectType : List Char
  objectSchemaID : List Char
  objectSchemaVersion : List Char
  purpose : List Char
  environment : List Char
  tenantScope : Option (List Char)
  migrationScope : Option (List Char)
  registryHash : List Char
  atTime : Time
deriving DecidableEq

inductive DetachedError where
  | registry (cause : SignatureError)
  | replay
  | scope
  | registryBinding
  | registryBytes
  | digest (cause : Error)
  | payloadDigest
  | malformedDigest
  | issuance
  | verificationTime
  | registryIssuance
  | issuedLater
  | expired
  | inactiveKey
  | ineligibleKey
  | ineligibleTenant
  | keyInterval
  | keyRevoked
  | unknownKey (kid : List Char)
  | envelopeIdentity
  | encoding
  | publicKey (cause : SignatureError)
  | ecdsa
  | rsaPSS
  | unsupportedKey
  | signClaims
  | signExpiry
  | keyMismatch
  | unsupportedSigner
  | signer
deriving DecidableEq

/-! ## The texts of contract values -/

section Marshal

theorem natDigits_zero {n : ℕ} {ds : List Digit}
    (h : (if n = 0 then [0] else Decimal.ofNat n) = 0 :: ds) : ds = [] := by
  split_ifs at h with hn
  · exact (List.cons.inj h).2.symm
  · obtain ⟨d, es, hd, hne⟩ := Decimal.ofNat_eq_cons (Nat.pos_of_ne_zero hn)
    rw [hd] at h
    exact absurd (List.cons.inj h).1 hne

/-- The number literal that `itoa` writes. -/
def integer (n : ℤ) : Number where
  neg := n < 0
  int := if n.natAbs = 0 then [0] else Decimal.ofNat n.natAbs
  frac := []
  exp := none
  int_ne := by
    split_ifs with hn
    · simp
    · obtain ⟨d, ds, hds, -⟩ := Decimal.ofNat_eq_cons (Nat.pos_of_ne_zero hn)
      simp [hds]
  int_zero := fun _ => natDigits_zero

/-- The double that a version is read back as. -/
def numberOfVersion (version : Int64) : Binary64 := (Binary64.nearest version.toInt).getD 0

/-- `json.Marshal` of a value without maps. -/
def marshal (v : Value) : List UInt8 := utf8 (write htmlEscape Number.text v)

section Json

variable {ν : Type}

/-- A `*string`. -/
def pointer (value : Option (List Char)) : Json (List Char) ν := value.elim .null .str

/-- A `[]string`. -/
def slice (value : Option (List (List Char))) : Json (List Char) ν :=
  value.elim .null fun items => .arr (items.map .str)

def SignatureClaims.json (claims : SignatureClaims) : Json (List Char) ν :=
  .obj [("algorithm".toList, .str claims.algorithm),
    ("environment".toList, .str claims.environment),
    ("expires_at".toList, pointer claims.expiresAt),
    ("issued_at".toList, .str claims.issuedAt),
    ("key_registry_hash".toList, .str claims.keyRegistryHash),
    ("key_registry_id".toList, .str claims.keyRegistryID),
    ("kid".toList, .str claims.kid),
    ("migration_scope".toList, pointer claims.migrationScope),
    ("object_schema_id".toList, .str claims.objectSchemaID),
    ("object_schema_version".toList, .str claims.objectSchemaVersion),
    ("object_type".toList, .str claims.objectType),
    ("payload_digest".toList, .str claims.payloadDigest),
    ("purpose".toList, .str claims.purpose),
    ("schema_version".toList, .str claims.schemaVersion),
    ("signer_id".toList, .str claims.signerID),
    ("signer_role".toList, .str claims.signerRole),
    ("tenant_scope".toList, pointer claims.tenantScope)]

def RegistryKey.json (key : RegistryKey) : Json (List Char) ν :=
  .obj [("algorithm".toList, .str key.algorithm),
    ("environments".toList, slice key.environments),
    ("kid".toList, .str key.kid),
    ("public_key_pem".toList, .str key.publicKeyPem),
    ("purposes".toList, slice key.purposes),
    ("revocation_reason".toList, pointer key.revocationReason),
    ("revoked_at".toList, pointer key.revokedAt),
    ("status".toList, .str key.status),
    ("supersedes_kid".toList, pointer key.supersedesKid),
    ("tenant_scope".toList, pointer key.tenantScope),
    ("valid_from".toList, .str key.validFrom),
    ("valid_until".toList, .str key.validUntil)]

/-- The version stands as `number` has it. -/
def PublicKeyRegistry.json (number : Int64 → ν) (registry : PublicKeyRegistry) :
    Json (List Char) ν :=
  .obj [("issued_at".toList, .str registry.issuedAt),
    ("keys".toList, .arr (registry.keys.map RegistryKey.json)),
    ("previous_registry_hash".toList, pointer registry.previousRegistryHash),
    ("purpose_policy_hash".toList, .str registry.purposePolicyHash),
    ("registry_id".toList, .str registry.registryID),
    ("registry_version".toList, .num (number registry.registryVersion)),
    ("root_fingerprint".toList, .str registry.rootFingerprint),
    ("schema_version".toList, .str registry.schemaVersion)]

end Json

def canonicalClaimsBytes (claims : SignatureClaims) : Except Error (List UInt8) :=
  canonicalizeJSON (marshal claims.json)

def registryDigest (registry : PublicKeyRegistry) : Except Error (List Char) := do
  let canonical ← canonicalizeJSON
    (marshal (registry.json fun version => integer version.toInt))
  .ok (Hex.encodeToString (Sha256.sha256 canonical))

end Marshal

/-! ## Verification -/

section Verify

variable {ε ρ : Type}

def SignatureEnvelope.claims (envelope : SignatureEnvelope) : SignatureClaims where
  algorithm := envelope.algorithm
  environment := envelope.environment
  expiresAt := envelope.expiresAt
  issuedAt := envelope.issuedAt
  keyRegistryHash := envelope.keyRegistryHash
  keyRegistryID := envelope.keyRegistryID
  kid := envelope.kid
  migrationScope := envelope.migrationScope
  objectSchemaID := envelope.objectSchemaID
  objectSchemaVersion := envelope.objectSchemaVersion
  objectType := envelope.objectType
  payloadDigest := envelope.payloadDigest
  purpose := envelope.purpose
  schemaVersion := envelope.schemaVersion
  signerID := envelope.signerID
  signerRole := envelope.signerRole
  tenantScope := envelope.tenantScope

def sameOptionalString : Option (List Char) → Option (List Char) → Bool
  | some left, some right => left = right
  | left, right => left = none && right = none

/-- `slices.Contains` -/
def contains (items : Option (List (List Char))) (item : List Char) : Bool :=
  (items.getD []).any fun other => other = item

def RegistryKey.verificationKey (key : RegistryKey) : VerificationKey where
  algorithm := key.algorithm
  publicKeyPEM := key.publicKeyPem
  purposes := key.purposes
  environments := key.environments
  tenantScope := key.tenantScope
  validFrom := key.validFrom
  validUntil := key.validUntil
  status := key.status
  revokedAt := key.revokedAt

/-- The checks of `findEligibleKey` on the key of the kid. -/
def checkEligible (key : RegistryKey) (claims : SignatureClaims) (issuedAt atTime : Time) :
    Except DetachedError VerificationKey :=
  if key.status ≠ "active".toList then .error .inactiveKey
  else if key.algorithm ≠ claims.algorithm || !contains key.purposes claims.purpose ||
      !contains key.environments claims.environment then
    .error .ineligibleKey
  else if !sameOptionalString key.tenantScope claims.tenantScope then .error .ineligibleTenant
  else
    match parseContractTime key.validFrom, parseContractTime key.validUntil with
    | some validFrom, some validUntil =>
      if issuedAt < validFrom || validUntil < issuedAt || atTime < validFrom || validUntil < atTime then
        .error .keyInterval
      else
        match key.revokedAt with
        | none => .ok key.verificationKey
        | some text =>
          match parseContractTime text with
          | none => .error .keyRevoked
          | some revokedAt =>
            if !(atTime < revokedAt) then .error .keyRevoked else .ok key.verificationKey
    | _, _ => .error .keyInterval

def findEligibleKey (claims : SignatureClaims) (issuedAt atTime : Time) :
    List RegistryKey → Except DetachedError VerificationKey
  | [] => .error (.unknownKey claims.kid)
  | key :: keys =>
    if key.kid ≠ claims.kid then findEligibleKey claims issuedAt atTime keys
    else checkEligible key claims issuedAt atTime

/-- The error of a digest, under the verifier's error type. -/
def liftDigest {α : Type} (result : Except Error α) : Except DetachedError α :=
  result.mapError .digest

/-- What the claims are compared with before any hash: the expectation and the registry's names. -/
def checkExpectation (claims : SignatureClaims) (registry : PublicKeyRegistry)
    (expected : VerifyExpectation) : Except DetachedError Unit :=
  if claims.schemaVersion ≠ "1.0.0".toList || claims.objectType ≠ expected.objectType ||
      claims.objectSchemaID ≠ expected.objectSchemaID ||
      claims.objectSchemaVersion ≠ expected.objectSchemaVersion || claims.purpose ≠ expected.purpose then
    .error .replay
  else if claims.environment ≠ expected.environment ||
      !sameOptionalString claims.tenantScope expected.tenantScope ||
      !sameOptionalString claims.migrationScope expected.migrationScope then
    .error .scope
  else if claims.keyRegistryID ≠ registry.registryID ||
      claims.keyRegistryHash ≠ expected.registryHash then
    .error .registryBinding
  else .ok ()

/-- The registry is the expected one, and the payload the one claimed. -/
def checkBindings (logicalPayload : List UInt8) (claims : SignatureClaims)
    (registry : PublicKeyRegistry) (expected : VerifyExpectation) : Except DetachedError Unit :=
  match registryDigest registry with
  | .error _ => .error .registryBytes
  | .ok registryHash =>
    if registryHash ≠ expected.registryHash then .error .registryBytes
    else do
      let digest ← liftDigest
        (typedDigestHex (utf8 claims.objectType) (utf8 claims.objectSchemaVersion) logicalPayload)
      if claims.payloadDigest ≠ digest then .error .payloadDigest
      else if !isHash claims.payloadDigest then .error .malformedDigest
      else .ok ()

/-- The expiry of a signature issued at a time. -/
def checkExpiry (expiresAt : Option (List Char)) (issuedAt atTime : Time) : Except DetachedError Unit :=
  match expiresAt with
  | none => .ok ()
  | some text =>
    match parseContractTime text with
    | none => .error .expired
    | some expiresAt => if expiresAt < issuedAt || expiresAt < atTime then .error .expired else .ok ()

/-- The temporal checks; the answer is the instant of issue. -/
def checkTimes (claims : SignatureClaims) (registry : PublicKeyRegistry) (atTime : Time) :
    Except DetachedError Time :=
  match parseContractTime claims.issuedAt with
  | none => .error .issuance
  | some issuedAt =>
    if atTime.isZero then .error .verificationTime
    else
      match parseContractTime registry.issuedAt with
      | none => .error .registryIssuance
      | some registryIssuedAt =>
        if atTime < registryIssuedAt then .error .registryIssuance
        else if atTime < issuedAt then .error .issuedLater
        else do
          checkExpiry claims.expiresAt issuedAt atTime
          .ok issuedAt

/-- The signature bytes against the registry's public key. -/
def checkSignature (lib : Primitives ε ρ) (key : VerificationKey) (claims : SignatureClaims)
    (canonicalClaims signature : List UInt8) : Except DetachedError Unit :=
  let claimsHash := Sha256.sha256 canonicalClaims
  match parsePublicKey lib key.publicKeyPEM with
  | .error e => .error (.publicKey e)
  | .ok (.ecdsa publicKey curve) =>
    if claims.algorithm ≠ algorithmECDSAP256SHA256 || curve ≠ "P-256".toList ||
        !lib.verifyASN1 publicKey claimsHash signature then
      .error .ecdsa
    else .ok ()
  | .ok (.rsa publicKey bitLen) =>
    if claims.algorithm ≠ algorithmRSAPSSSHA256 || bitLen < 2048 ||
        !lib.verifyPSS publicKey claimsHash signature then
      .error .rsaPSS
    else .ok ()
  | .ok .other => .error .unsupportedKey

/-- The part of `VerifyDetached` after the key is found: envelope identity and signature. -/
def checkEnvelope (lib : Primitives ε ρ) (key : VerificationKey) (envelope : SignatureEnvelope) :
    Except DetachedError Unit := do
  let canonicalClaims ← liftDigest (canonicalClaimsBytes envelope.claims)
  match typedDigestHex (ascii "signature_envelope") (utf8 envelope.claims.schemaVersion)
      canonicalClaims with
  | .error _ => .error .envelopeIdentity
  | .ok envelopeID =>
    if envelopeID ≠ envelope.envelopeID then .error .envelopeIdentity
    else
      match decodeSignature (utf8 envelope.signatureBase64) with
      | none => .error .encoding
      | some signature => checkSignature lib key envelope.claims canonicalClaims signature

/-- `VerifyDetached`, when the map of the kids is ranged over in an order. -/
def verifyDetached (lib : Primitives ε ρ) (order : List (List Char)) (logicalPayload : List UInt8)
    (envelope : SignatureEnvelope) (registry : PublicKeyRegistry) (expected : VerifyExpectation) :
    Option (Except DetachedError Unit) :=
  match validateRegistry lib order registry with
  | none => none
  | some (.error e) => some (.error (.registry e))
  | some (.ok ()) => some (do
      checkExpectation envelope.claims registry expected
      checkBindings logicalPayload envelope.claims registry expected
      let issuedAt ← checkTimes envelope.claims registry expected.atTime
      let key ← findEligibleKey envelope.claims issuedAt expected.atTime registry.keys
      checkEnvelope lib key envelope)

end Verify

/-! ## Signing -/

section Sign

variable {ε ρ : Type}

/-- The options a digest is signed with: `crypto.SHA256`, or PSS with a salt of so many bytes. -/
inductive SignerOptions where
  | sha256
  | pss (saltLength : ℕ)
deriving DecidableEq

/-- A `crypto.Signer`: `Sign` of a digest fails or gives the bytes of a signature. -/
structure Signer (ε ρ : Type) where
  publicKey : PublicKey ε ρ
  sign : List UInt8 → SignerOptions → Option (List UInt8)

def sha256Size : ℕ := 32

/-- The times of the claims that are signed. -/
def checkSignedTimes (claims : SignatureClaims) : Except DetachedError Unit :=
  match parseContractTime claims.issuedAt with
  | none => .error .issuance
  | some issuedAt =>
    match claims.expiresAt with
    | none => .ok ()
    | some text =>
      match parseContractTime text with
      | none => .error .signExpiry
      | some expiresAt => if expiresAt < issuedAt then .error .signExpiry else .ok ()

/-- The switch over the type of the public key. -/
def signClaims (signer : Signer ε ρ) (claims : SignatureClaims) (claimsHash : List UInt8) :
    Except DetachedError (List UInt8) :=
  match signer.publicKey with
  | .ecdsa _ curve =>
    if claims.algorithm ≠ algorithmECDSAP256SHA256 || curve ≠ "P-256".toList then .error .keyMismatch
    else (signer.sign claimsHash .sha256).elim (.error .signer) .ok
  | .rsa _ bitLen =>
    if claims.algorithm ≠ algorithmRSAPSSSHA256 || bitLen < 2048 then .error .keyMismatch
    else (signer.sign claimsHash (.pss sha256Size)).elim (.error .signer) .ok
  | .other => .error .unsupportedSigner

/-- The envelope of claims, under an identity and with a signature. -/
def SignatureClaims.envelope (claims : SignatureClaims) (envelopeID : List Char)
    (signature : List UInt8) : SignatureEnvelope where
  schemaVersion := claims.schemaVersion
  envelopeID := envelopeID
  objectType := claims.objectType
  objectSchemaID := claims.objectSchemaID
  objectSchemaVersion := claims.objectSchemaVersion
  payloadDigest := claims.payloadDigest
  purpose := claims.purpose
  environment := claims.environment
  tenantScope := claims.tenantScope
  migrationScope := claims.migrationScope
  kid := claims.kid
  algorithm := claims.algorithm
  signerID := claims.signerID
  signerRole := claims.signerRole
  issuedAt := claims.issuedAt
  expiresAt := claims.expiresAt
  keyRegistryID := claims.keyRegistryID
  keyRegistryHash := claims.keyRegistryHash
  signatureBase64 := Base64.text signature

/-- `SignDetached`; a nil signer is none. -/
def signDetached (logicalPayload : List UInt8) (claims : SignatureClaims)
    (signer : Option (Signer ε ρ)) : Except DetachedError SignatureEnvelope :=
  match signer with
  | none => .error .signClaims
  | some signer =>
    if claims.schemaVersion ≠ "1.0.0".toList then .error .signClaims
    else do
      checkSignedTimes claims
      let digest ← liftDigest
        (typedDigestHex (utf8 claims.objectType) (utf8 claims.objectSchemaVersion) logicalPayload)
      let claims := { claims with payloadDigest := digest }
      let canonicalClaims ← liftDigest (canonicalClaimsBytes claims)
      let signature ← signClaims signer claims (Sha256.sha256 canonicalClaims)
      let envelopeID ← liftDigest
        (typedDigestHex (ascii "signature_envelope") (utf8 claims.schemaVersion) canonicalClaims)
      .ok (claims.envelope envelopeID signature)

end Sign

end Canonical
