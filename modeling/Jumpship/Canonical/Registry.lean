import Jumpship.Canonical.Identity
import Jumpship.Go.Time

/-!
# The registry of public keys

`validateRegistry` of the Go package `canonical`. What `encoding/pem`, `crypto/x509`, `crypto/ecdsa`
and `crypto/rsa` compute is left open.
-/

namespace Canonical

open Go Unicode

/-! ## Contract types -/

/-- The element type of `PublicKeyRegistry.Keys`. A nil slice is `none`. -/
structure RegistryKey where
  algorithm : List Char
  environments : Option (List (List Char))
  kid : List Char
  publicKeyPem : List Char
  purposes : Option (List (List Char))
  revocationReason : Option (List Char)
  revokedAt : Option (List Char)
  status : List Char
  supersedesKid : Option (List Char)
  tenantScope : Option (List Char)
  validFrom : List Char
  validUntil : List Char
deriving DecidableEq

structure PublicKeyRegistry where
  issuedAt : List Char
  keys : List RegistryKey
  previousRegistryHash : Option (List Char)
  purposePolicyHash : List Char
  registryID : List Char
  registryVersion : Int64
  rootFingerprint : List Char
  schemaVersion : List Char
deriving DecidableEq

inductive SignatureError where
  | registryHeader
  | registryHash
  | registryIssuance
  | genesisPrevious
  | missingPrevious
  | previousHash
  | missingKid
  | duplicateKid
  | validityInterval
  | revocationMetadata
  | revocationTime
  | unexpectedRevocation
  | keyStatus
  | publicKeyPem
  | publicKey
  | keyMismatch
  | keyAlgorithm
  | selfSuperseding
  | brokenChain
  | cyclicChain
deriving DecidableEq

/-! ## Public keys -/

/-- What `x509.ParsePKIXPublicKey` returns, by its dynamic type. -/
inductive PublicKey (ε ρ : Type) where
  | ecdsa (key : ε) (curve : List Char)
  | rsa (key : ρ) (bitLen : ℕ)
  | other

/-- The functions of the Go standard library that keys are parsed and signatures verified with. -/
structure Primitives (ε ρ : Type) where
  pemDecode : List UInt8 → Option (List Char × List UInt8) × List UInt8
  parsePKIXPublicKey : List UInt8 → Option (PublicKey ε ρ)
  verifyASN1 : ε → List UInt8 → List UInt8 → Bool
  verifyPSS : ρ → List UInt8 → List UInt8 → Bool

variable {ε ρ : Type}

def parsePublicKey (lib : Primitives ε ρ) (value : List Char) :
    Except SignatureError (PublicKey ε ρ) :=
  match lib.pemDecode (utf8 value) with
  | (none, _) => .error .publicKeyPem
  | (some (type, bytes), remainder) =>
    if type ≠ "PUBLIC KEY".toList || remainder ≠ [] then .error .publicKeyPem
    else
      match lib.parsePKIXPublicKey bytes with
      | none => .error .publicKey
      | some key => .ok key

def algorithmECDSAP256SHA256 : List Char := "ECDSA_P256_SHA256".toList

def algorithmRSAPSSSHA256 : List Char := "RSA_PSS_SHA256".toList

/-! ## Header and keys -/

/-- A hash the Go code takes: `hex.DecodeString` reads digits of either case. -/
def isHash (value : List Char) : Bool :=
  match Hex.decodeString value with
  | none => false
  | some decoded => decoded.length = 32

def validateHeader (registry : PublicKeyRegistry) : Except SignatureError Unit :=
  if registry.schemaVersion ≠ "1.0.0".toList || registry.registryVersion = 0 ||
      registry.keys.length = 0 then
    .error .registryHeader
  else if !([registry.registryID, registry.rootFingerprint, registry.purposePolicyHash].all isHash)
    then .error .registryHash
  else if parseContractTime registry.issuedAt = none then .error .registryIssuance
  else if registry.registryVersion = 1 && registry.previousRegistryHash ≠ none then
    .error .genesisPrevious
  else if 1 < registry.registryVersion then
    match registry.previousRegistryHash with
    | none => .error .missingPrevious
    | some hash => if isHash hash then .ok () else .error .previousHash
  else .ok ()

/-- The checks of the status of a key. -/
def validateStatus (key : RegistryKey) (validFrom : Time) : Except SignatureError Unit :=
  if key.status = "revoked".toList then
    match key.revokedAt, key.revocationReason with
    | some revokedAt, some _ =>
      match parseContractTime revokedAt with
      | none => .error .revocationTime
      | some revokedAt => if revokedAt < validFrom then .error .revocationTime else .ok ()
    | _, _ => .error .revocationMetadata
  else if key.status = "active".toList ∨ key.status = "superseded".toList then
    if key.revokedAt ≠ none || key.revocationReason ≠ none then .error .unexpectedRevocation
    else .ok ()
  else .error .keyStatus

/-- The checks of the public key against the algorithm. -/
def validatePublicKey (lib : Primitives ε ρ) (key : RegistryKey) : Except SignatureError Unit :=
  match parsePublicKey lib key.publicKeyPem with
  | .error e => .error e
  | .ok publicKey =>
    if key.algorithm = algorithmECDSAP256SHA256 then
      match publicKey with
      | .ecdsa _ curve => if curve = "P-256".toList then .ok () else .error .keyMismatch
      | _ => .error .keyMismatch
    else if key.algorithm = algorithmRSAPSSSHA256 then
      match publicKey with
      | .rsa _ bitLen => if bitLen < 2048 then .error .keyMismatch else .ok ()
      | _ => .error .keyMismatch
    else .error .keyAlgorithm

/-- The body of the loop over the keys, after those of `seen`. -/
def validateKey (lib : Primitives ε ρ) (seen : List RegistryKey) (key : RegistryKey) :
    Except SignatureError Unit :=
  if key.kid = [] then .error .missingKid
  else if seen.any fun other => other.kid = key.kid then .error .duplicateKid
  else
    match parseContractTime key.validFrom, parseContractTime key.validUntil with
    | some validFrom, some validUntil =>
      if validUntil < validFrom then .error .validityInterval
      else do
        validateStatus key validFrom
        validatePublicKey lib key
    | _, _ => .error .validityInterval

/-- The loop over the keys; the map `seen` is kept as the keys themselves, in their order. -/
def validateKeys (lib : Primitives ε ρ) :
    List RegistryKey → List RegistryKey → Except SignatureError Unit
  | _, [] => .ok ()
  | seen, key :: keys => do
    validateKey lib seen key
    validateKeys lib (seen ++ [key]) keys

/-! ## Supersession -/

/-- `seen[kid]` once all keys are seen. -/
def seenKey (keys : List RegistryKey) (kid : List Char) : Option RegistryKey :=
  keys.find? fun key => key.kid = kid

def validateLink (keys : List RegistryKey) (key : RegistryKey) : Except SignatureError Unit :=
  match key.supersedesKid with
  | none => .ok ()
  | some parent =>
    if parent = key.kid then .error .selfSuperseding
    else
      match seenKey keys parent with
      | none => .error .brokenChain
      | some prior =>
        if prior.status ≠ "superseded".toList || prior.algorithm ≠ key.algorithm then
          .error .brokenChain
        else .ok ()

def validateLinks (keys : List RegistryKey) : List RegistryKey → Except SignatureError Unit
  | [] => .ok ()
  | key :: rest => do
    validateLink keys key
    validateLinks keys rest

/-- The link that the loop of `visit` follows: the first key of that kid that supersedes another. -/
def supersedes (keys : List RegistryKey) (kid : List Char) : Option (List Char) :=
  (keys.find? fun key => key.kid = kid && key.supersedesKid.isSome).bind (·.supersedesKid)

/-- The maps `visiting` and `visited`. -/
structure Marks where
  visiting : List Char → Bool
  visited : List Char → Bool

/-- `visit`, with the depth it may recurse to. -/
def visit (keys : List RegistryKey) :
    ℕ → Marks → List Char → Option (Except SignatureError Marks)
  | 0, _, _ => none
  | fuel + 1, marks, kid =>
    if marks.visiting kid then some (.error .cyclicChain)
    else if marks.visited kid then some (.ok marks)
    else
      let entered := { marks with visiting := Function.update marks.visiting kid true }
      let leave (m : Marks) : Marks :=
        ⟨Function.update m.visiting kid false, Function.update m.visited kid true⟩
      match supersedes keys kid with
      | none => some (.ok (leave entered))
      | some parent =>
        match visit keys fuel entered parent with
        | some (.ok m) => some (.ok (leave m))
        | failure => failure

/-- The loop over the kids of `seen`, in the order the map yields them. -/
def visitAll (keys : List RegistryKey) :
    List (List Char) → Marks → Option (Except SignatureError Unit)
  | [], _ => some (.ok ())
  | kid :: kids, marks =>
    match visit keys (keys.length + 1) marks kid with
    | none => none
    | some (.error e) => some (.error e)
    | some (.ok marks) => visitAll keys kids marks

/-- The verdict on the supersession links. -/
def validateSupersession (order : List (List Char)) (keys : List RegistryKey) :
    Option (Except SignatureError Unit) :=
  match validateLinks keys keys with
  | .error e => some (.error e)
  | .ok () => visitAll keys order ⟨fun _ => false, fun _ => false⟩

/-- `validateRegistry`, when the map of the kids is ranged over in an order. -/
def validateRegistry (lib : Primitives ε ρ) (order : List (List Char))
    (registry : PublicKeyRegistry) : Option (Except SignatureError Unit) :=
  match validateHeader registry with
  | .error e => some (.error e)
  | .ok () =>
    match validateKeys lib [] registry.keys with
    | .error e => some (.error e)
    | .ok () => validateSupersession order registry.keys

end Canonical
