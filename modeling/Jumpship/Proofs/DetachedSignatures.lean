import Jumpship.Proofs.ContractValues
import Jumpship.Proofs.Identity
import Jumpship.Proofs.SignatureBase64
import Jumpship.Proofs.Supersession

/-!
# Detached signatures

What `VerifyDetached` accepts, stated without an order of checks (`verifyDetached_iff`); that it
accepts what `SignDetached` made (`verifyDetached_signDetached`); and that an envelope identity
stands for one set of claims and one payload (`verifyDetached_binding`).
-/

namespace Canonical

open Go JsonText Unicode

/-! ## Valid keys -/

section Keys

variable {ε ρ : Type} {lib : Primitives ε ρ} {seen keys : List RegistryKey} {key : RegistryKey}

/-- The public key is of the kind and the strength that an algorithm asks for. -/
inductive Suits : PublicKey ε ρ → List Char → Prop
  | ecdsa (publicKey : ε) : Suits (.ecdsa publicKey "P-256".toList) algorithmECDSAP256SHA256
  | rsa (publicKey : ρ) {bitLen : ℕ} (h : 2048 ≤ bitLen) :
      Suits (.rsa publicKey bitLen) algorithmRSAPSSSHA256

theorem validatePublicKey_eq_ok : validatePublicKey lib key = .ok () ↔
    ∃ publicKey, parsePublicKey lib key.publicKeyPem = .ok publicKey ∧ Suits publicKey key.algorithm := by
  unfold validatePublicKey
  cases parsePublicKey lib key.publicKeyPem with
  | error e => exact iff_of_false (fun h => by cases h) (by simp)
  | ok publicKey =>
    simp only [Except.ok.injEq, exists_eq_left']
    constructor
    · intro h
      split_ifs at h with hecdsa hrsa
      · cases publicKey with
        | ecdsa k curve =>
          simp only at h
          split_ifs at h with hcurve
          rw [hecdsa, hcurve]
          exact .ecdsa k
        | rsa k bitLen => cases h
        | other => cases h
      · cases publicKey with
        | ecdsa k curve => cases h
        | rsa k bitLen =>
          simp only at h
          split_ifs at h with hlt
          rw [hrsa]
          exact .rsa k (not_lt.1 hlt)
        | other => cases h
    · intro h
      have hdiffer : algorithmRSAPSSSHA256 ≠ algorithmECDSAP256SHA256 := by decide
      generalize key.algorithm = algorithm at h
      cases h with
      | ecdsa k => rw [if_pos rfl]; exact if_pos rfl
      | rsa k hle => rw [if_neg hdiffer, if_pos rfl]; exact if_neg (not_lt.2 hle)

/-- An active key is not revoked, and its public key suits its algorithm. -/
theorem active_of_validateKey (h : validateKey lib seen key = .ok ())
    (hactive : key.status = "active".toList) : key.revokedAt = none ∧
      ∃ publicKey, parsePublicKey lib key.publicKeyPem = .ok publicKey ∧
        Suits publicKey key.algorithm := by
  unfold validateKey at h
  split_ifs at h with hkid hseen
  split at h
  · rename_i validFrom validUntil hfrom huntil
    split_ifs at h
    obtain ⟨hstatus, hpublic⟩ := bind_unit_eq_ok.1 h
    refine ⟨?_, validatePublicKey_eq_ok.1 hpublic⟩
    rw [validateStatus, if_neg (by rw [hactive]; decide), if_pos (.inl hactive)] at hstatus
    split_ifs at hstatus with hrevoked
    simp only [Bool.or_eq_true, decide_eq_true_eq, not_or, not_not] at hrevoked
    exact hrevoked.1
  · cases h

theorem active_of_validateKeys (h : validateKeys lib seen keys = .ok ()) (hkey : key ∈ keys)
    (hactive : key.status = "active".toList) : key.revokedAt = none ∧
      ∃ publicKey, parsePublicKey lib key.publicKeyPem = .ok publicKey ∧
        Suits publicKey key.algorithm := by
  induction keys generalizing seen with
  | nil => cases hkey
  | cons first keys ih =>
    obtain ⟨hfirst, hrest⟩ := bind_unit_eq_ok.1 h
    rcases List.mem_cons.1 hkey with rfl | hkey
    · exact active_of_validateKey hfirst hactive
    · exact ih hrest hkey

theorem validateKeys_of_validateRegistry {order : List (List Char)} {registry : PublicKeyRegistry}
    (h : validateRegistry lib order registry = some (.ok ())) :
    validateHeader registry = .ok () ∧ validateKeys lib [] registry.keys = .ok () := by
  unfold validateRegistry at h
  split at h
  · cases h
  · rename_i hheader
    split at h
    · cases h
    · rename_i hkeys
      exact ⟨hheader, hkeys⟩

theorem issuedAt_of_validateHeader {registry : PublicKeyRegistry}
    (h : validateHeader registry = .ok ()) : ∃ t, parseContractTime registry.issuedAt = some t := by
  unfold validateHeader at h
  split_ifs at h with h1 h2 h3
  all_goals exact Option.ne_none_iff_exists'.1 h3

end Keys

/-! ## The checks one by one -/

section Checks

variable {ε ρ : Type} {lib : Primitives ε ρ} {claims : SignatureClaims} {registry : PublicKeyRegistry}
  {expected : VerifyExpectation} {payload : List UInt8} {t issuedAt : Time}

def hexDigest (bytes : List UInt8) : List Char := Hex.encodeToString (Sha256.sha256 bytes)

/-- What is hashed of a canonical text under a type and a version. -/
def taggedBytes (objectType version : List Char) (canonical : List UInt8) : List UInt8 :=
  ascii "jumpship:" ++ utf8 objectType ++ ascii ":" ++ utf8 version ++ [0] ++ canonical

/-- A payload under a type and a version has a digest. -/
def HasDigest (objectType version : List Char) (payload : List UInt8) (digest : List Char) : Prop :=
  validDomainToken (utf8 objectType) = true ∧ validSchemaVersion (utf8 version) = true ∧
    ∃ w, Denotes payload w ∧
      digest = hexDigest (taggedBytes objectType version (utf8 (canonicalForm w)))

theorem typedDigestHex_eq_ok {objectType version digest : List Char} :
    typedDigestHex (utf8 objectType) (utf8 version) payload = .ok digest ↔
      HasDigest objectType version payload digest := by
  rw [typedDigestHex, typedDigest, HasDigest]
  cases hinput : typedDigestInput (utf8 objectType) (utf8 version) payload with
  | error e =>
    refine iff_of_false (fun h => by cases h) ?_
    rintro ⟨htype, hversion, w, hw, -⟩
    have hok := typedDigestInput_eq_ok.2 ⟨htype, hversion, _, canonicalizeJSON_eq_ok.2 ⟨w, hw, rfl⟩, rfl⟩
    rw [hinput] at hok
    cases hok
  | ok hashed =>
    obtain ⟨htype, hversion, _, hcanonical, rfl⟩ := typedDigestInput_eq_ok.1 hinput
    obtain ⟨w, hw, rfl⟩ := canonicalizeJSON_eq_ok.1 hcanonical
    rw [and_iff_right htype, and_iff_right hversion]
    constructor
    · intro h
      exact ⟨w, hw, (Except.ok.inj h).symm⟩
    · rintro ⟨w', hw', rfl⟩
      rw [denotes_unique hw' hw]
      rfl

theorem isHash_hexDigest (bytes : List UInt8) : isHash (hexDigest bytes) = true := by
  rw [isHash, hexDigest, Hex.decodeString_encodeToString]
  simp

theorem sameOptionalString_iff {a b : Option (List Char)} : sameOptionalString a b = true ↔ a = b := by
  cases a with
  | none => cases b with
    | none => simp [sameOptionalString]
    | some t => simp [sameOptionalString]
  | some s => cases b with
    | none => simp [sameOptionalString]
    | some t => simp [sameOptionalString]

theorem contains_iff {items : Option (List (List Char))} {item : List Char} :
    contains items item = true ↔ item ∈ items.getD [] := by
  simp [contains]

/-- The claims are the expected ones, under the name and the hash of the registry. -/
structure Meant (claims : SignatureClaims) (registry : PublicKeyRegistry)
    (expected : VerifyExpectation) : Prop where
  schemaVersion : claims.schemaVersion = "1.0.0".toList
  objectType : claims.objectType = expected.objectType
  objectSchemaID : claims.objectSchemaID = expected.objectSchemaID
  objectSchemaVersion : claims.objectSchemaVersion = expected.objectSchemaVersion
  purpose : claims.purpose = expected.purpose
  environment : claims.environment = expected.environment
  tenantScope : claims.tenantScope = expected.tenantScope
  migrationScope : claims.migrationScope = expected.migrationScope
  keyRegistryID : claims.keyRegistryID = registry.registryID
  keyRegistryHash : claims.keyRegistryHash = expected.registryHash

theorem checkExpectation_eq_ok :
    checkExpectation claims registry expected = .ok () ↔ Meant claims registry expected := by
  unfold checkExpectation
  constructor
  · intro h
    split_ifs at h with h1 h2 h3
    simp only [Bool.or_eq_true, decide_eq_true_eq, Bool.not_eq_true', not_or, not_not,
      Bool.not_eq_false, sameOptionalString_iff] at h1 h2 h3
    obtain ⟨⟨⟨⟨hversion, htype⟩, hid⟩, hschema⟩, hpurpose⟩ := h1
    exact ⟨hversion, htype, hid, hschema, hpurpose, h2.1.1, h2.1.2, h2.2, h3.1, h3.2⟩
  · intro h
    have hsame (a : Option (List Char)) : sameOptionalString a a = true := sameOptionalString_iff.2 rfl
    simp [h.schemaVersion, h.objectType, h.objectSchemaID, h.objectSchemaVersion, h.purpose,
      h.environment, h.tenantScope, h.migrationScope, h.keyRegistryID, h.keyRegistryHash, hsame]

theorem checkBindings_eq_ok : checkBindings payload claims registry expected = .ok () ↔
    expected.registryHash = hexDigest (registryBytes registry) ∧
      HasDigest claims.objectType claims.objectSchemaVersion payload claims.payloadDigest := by
  rw [checkBindings, registryDigest_eq]
  dsimp only
  by_cases hregistry : expected.registryHash = hexDigest (registryBytes registry)
  swap
  · rw [if_pos fun h => hregistry h.symm]
    exact iff_of_false (fun h => by cases h) fun h => hregistry h.1
  rw [if_neg fun h => h hregistry.symm, and_iff_right hregistry]
  constructor
  · intro h
    obtain ⟨digest, hdigest, h⟩ := bind_eq_ok.1 h
    rw [liftDigest] at hdigest
    cases htyped : typedDigestHex (utf8 claims.objectType) (utf8 claims.objectSchemaVersion) payload with
    | error e =>
      rw [htyped] at hdigest
      cases hdigest
    | ok d =>
      rw [htyped] at hdigest
      obtain rfl := Except.ok.inj hdigest
      split_ifs at h with hne
      rw [not_not.1 hne]
      exact typedDigestHex_eq_ok.1 htyped
  · intro h
    obtain ⟨-, -, w, -, hdigest⟩ := id h
    rw [typedDigestHex_eq_ok.2 h]
    show (if claims.payloadDigest ≠ claims.payloadDigest then _ else _) = _
    rw [if_neg (not_not.2 rfl), if_neg]
    rw [hdigest, isHash_hexDigest]
    simp

/-- The instants of the claims and the registry at a time of verification. -/
structure Timely (claims : SignatureClaims) (registry : PublicKeyRegistry) (t issuedAt : Time) :
    Prop where
  issued : parseContractTime claims.issuedAt = some issuedAt
  nonzero : t ≠ 0
  registry : ∃ u, parseContractTime registry.issuedAt = some u ∧ u ≤ t
  le : issuedAt ≤ t
  unexpired : ∀ text, claims.expiresAt = some text →
    ∃ u, parseContractTime text = some u ∧ issuedAt ≤ u ∧ t ≤ u

theorem checkExpiry_eq_ok {expiresAt : Option (List Char)} : checkExpiry expiresAt issuedAt t = .ok () ↔
    ∀ text, expiresAt = some text → ∃ u, parseContractTime text = some u ∧ issuedAt ≤ u ∧ t ≤ u := by
  cases expiresAt with
  | none => simp [checkExpiry]
  | some text =>
    simp only [checkExpiry, Option.some.injEq, forall_eq']
    cases parseContractTime text with
    | none => exact iff_of_false (fun h => by cases h) (by simp)
    | some u =>
      simp only [Option.some.injEq, exists_eq_left']
      split_ifs with h
      · refine iff_of_false (fun h => by cases h) fun hle => ?_
        simp only [Bool.or_eq_true, decide_eq_true_eq] at h
        exact h.elim (not_lt.2 hle.1) (not_lt.2 hle.2)
      · refine iff_of_true rfl ?_
        simp only [Bool.or_eq_true, decide_eq_true_eq, not_or, not_lt] at h
        exact h

theorem checkTimes_eq_ok :
    checkTimes claims registry t = .ok issuedAt ↔ Timely claims registry t issuedAt := by
  unfold checkTimes
  cases hissued : parseContractTime claims.issuedAt with
  | none =>
    refine iff_of_false (fun h => by cases h) fun h => ?_
    rw [h.issued] at hissued
    cases hissued
  | some u =>
    dsimp only
    by_cases hzero : t.isZero = true
    · rw [if_pos hzero]
      exact iff_of_false (fun h => by cases h) fun h => h.nonzero (of_decide_eq_true hzero)
    rw [if_neg hzero]
    cases hregistry : parseContractTime registry.issuedAt with
    | none =>
      refine iff_of_false (fun h => by cases h) fun h => ?_
      obtain ⟨v, hv, -⟩ := h.registry
      rw [hv] at hregistry
      cases hregistry
    | some v =>
      dsimp only
      constructor
      · intro h
        split_ifs at h with hlate hearly
        obtain ⟨hexpiry, h⟩ := bind_unit_eq_ok.1 h
        obtain rfl := Except.ok.inj h
        exact ⟨hissued, fun h => hzero (decide_eq_true h), ⟨v, hregistry, not_lt.1 hlate⟩,
          not_lt.1 hearly, checkExpiry_eq_ok.1 hexpiry⟩
      · intro h
        obtain ⟨w, hw, hle⟩ := h.registry
        obtain rfl := Option.some.inj (hregistry.symm.trans hw)
        obtain rfl := Option.some.inj (hissued.symm.trans h.issued)
        rw [if_neg (not_lt.2 hle), if_neg (not_lt.2 h.le), checkExpiry_eq_ok.2 h.unexpired]
        rfl

/-- A key may speak for the claims, issued at a time and verified at another. -/
structure Eligible (key : RegistryKey) (claims : SignatureClaims) (t issuedAt : Time) : Prop where
  active : key.status = "active".toList
  algorithm : key.algorithm = claims.algorithm
  purpose : claims.purpose ∈ key.purposes.getD []
  environment : claims.environment ∈ key.environments.getD []
  tenantScope : key.tenantScope = claims.tenantScope
  interval : ∃ validFrom validUntil, parseContractTime key.validFrom = some validFrom ∧
    parseContractTime key.validUntil = some validUntil ∧ validFrom ≤ issuedAt ∧ t ≤ validUntil

theorem checkEligible_eq_ok {key : RegistryKey} {verificationKey : VerificationKey}
    (hle : issuedAt ≤ t) (hrevoked : key.status = "active".toList → key.revokedAt = none) :
    checkEligible key claims issuedAt t = .ok verificationKey ↔
      Eligible key claims t issuedAt ∧ key.verificationKey = verificationKey := by
  unfold checkEligible
  constructor
  · intro h
    split_ifs at h with hactive hkind htenant
    simp only [Bool.or_eq_true, decide_eq_true_eq, Bool.not_eq_true', not_or, not_not,
      Bool.not_eq_false, sameOptionalString_iff, contains_iff] at hactive hkind htenant
    split at h
    · rename_i validFrom validUntil hfrom huntil
      split_ifs at h with hinterval
      simp only [Bool.or_eq_true, decide_eq_true_eq, not_or, not_lt] at hinterval
      rw [hrevoked hactive] at h
      exact ⟨⟨hactive, hkind.1.1, hkind.1.2, hkind.2, htenant, validFrom, validUntil, hfrom, huntil,
        hinterval.1.1.1, hinterval.2⟩, Except.ok.inj h⟩
    · cases h
  · rintro ⟨h, rfl⟩
    obtain ⟨validFrom, validUntil, hfrom, huntil, hissued, ht⟩ := h.interval
    have hinside : ¬ (issuedAt < validFrom || validUntil < issuedAt || t < validFrom ||
        validUntil < t) = true := by
      simp only [Bool.or_eq_true, decide_eq_true_eq, not_or, not_lt]
      exact ⟨⟨⟨hissued, hle.trans ht⟩, hissued.trans hle⟩, ht⟩
    rw [if_neg (not_not.2 h.active), if_neg, if_neg, hfrom, huntil]
    · dsimp only
      rw [if_neg hinside, hrevoked h.active]
    · rw [sameOptionalString_iff.2 h.tenantScope]
      simp
    · rw [contains_iff.2 h.purpose, contains_iff.2 h.environment]
      simp [h.algorithm]

theorem findEligibleKey_eq_ok {keys : List RegistryKey} {verificationKey : VerificationKey}
    (hnodup : (keys.map RegistryKey.kid).Nodup) :
    findEligibleKey claims issuedAt t keys = .ok verificationKey ↔
      ∃ key ∈ keys, key.kid = claims.kid ∧ checkEligible key claims issuedAt t = .ok verificationKey := by
  induction keys with
  | nil => exact iff_of_false (fun h => by cases h) (by simp)
  | cons first keys ih =>
    rw [List.map_cons, List.nodup_cons] at hnodup
    rw [findEligibleKey, List.exists_mem_cons_iff]
    by_cases hkid : first.kid = claims.kid
    · rw [if_neg (not_not.2 hkid), and_iff_right hkid, or_iff_left]
      rintro ⟨key, hkey, hsame, -⟩
      exact hnodup.1 (List.mem_map.2 ⟨key, hkey, hsame.trans hkid.symm⟩)
    · rw [if_pos hkid, ih hnodup.2, or_iff_right fun h => hkid h.1]

/-- The library verifies the bytes of a signature of a hash. -/
inductive Verifies (lib : Primitives ε ρ) : PublicKey ε ρ → List UInt8 → List UInt8 → Prop
  | ecdsa {publicKey : ε} {curve : List Char} {hash signature : List UInt8}
      (h : lib.verifyASN1 publicKey hash signature = true) :
      Verifies lib (.ecdsa publicKey curve) hash signature
  | rsa {publicKey : ρ} {bitLen : ℕ} {hash signature : List UInt8}
      (h : lib.verifyPSS publicKey hash signature = true) :
      Verifies lib (.rsa publicKey bitLen) hash signature

theorem checkSignature_eq_ok {key : VerificationKey} {publicKey : PublicKey ε ρ}
    {canonical signature : List UInt8} (hparse : parsePublicKey lib key.publicKeyPEM = .ok publicKey)
    (hsuits : Suits publicKey claims.algorithm) :
    checkSignature lib key claims canonical signature = .ok () ↔
      Verifies lib publicKey (Sha256.sha256 canonical) signature := by
  rw [checkSignature, hparse]
  generalize hclaimed : claims.algorithm = algorithm at hsuits
  cases hsuits with
  | ecdsa k =>
    dsimp only
    constructor
    · intro h
      split_ifs at h with hverify
      simp only [Bool.or_eq_true, not_or, Bool.not_eq_true', Bool.not_eq_false] at hverify
      exact .ecdsa hverify.2
    · rintro ⟨h⟩
      simp [h]
  | rsa k hle =>
    dsimp only
    constructor
    · intro h
      split_ifs at h with hverify
      simp only [Bool.or_eq_true, not_or, Bool.not_eq_true', Bool.not_eq_false] at hverify
      exact .rsa hverify.2
    · intro h
      cases h with
      | rsa h => simp [h, not_lt.2 hle]

/-- The identity of an envelope is a hash of its claims. -/
def envelopeIdentity (claims : SignatureClaims) : List Char :=
  hexDigest (taggedBytes "signature_envelope".toList "1.0.0".toList (claimsBytes claims))

theorem valid_envelopeDomain : validDomainToken (utf8 "signature_envelope".toList) = true ∧
    validSchemaVersion (utf8 "1.0.0".toList) = true := by
  decide

theorem typedDigestHex_claims (h : claims.schemaVersion = "1.0.0".toList) :
    typedDigestHex (ascii "signature_envelope") (utf8 claims.schemaVersion) (claimsBytes claims)
      = .ok (envelopeIdentity claims) := by
  have hinput := typedDigestInput_eq_ok.2
    ⟨valid_envelopeDomain.1, valid_envelopeDomain.2, _, canonicalizeJSON_claimsBytes claims, rfl⟩
  rw [h, typedDigestHex, typedDigest]
  exact congrArg (fun result => (result.map Sha256.sha256).map Hex.encodeToString) hinput

theorem checkEnvelope_eq_ok {key : VerificationKey} {publicKey : PublicKey ε ρ}
    {envelope : SignatureEnvelope} (hversion : envelope.claims.schemaVersion = "1.0.0".toList)
    (hparse : parsePublicKey lib key.publicKeyPEM = .ok publicKey)
    (hsuits : Suits publicKey envelope.claims.algorithm) :
    checkEnvelope lib key envelope = .ok () ↔
      envelope.envelopeID = envelopeIdentity envelope.claims ∧
        ∃ signature, envelope.signatureBase64 = Base64.text signature ∧
          Verifies lib publicKey (Sha256.sha256 (claimsBytes envelope.claims)) signature := by
  have hbind : checkEnvelope lib key envelope =
      if envelopeIdentity envelope.claims ≠ envelope.envelopeID then .error .envelopeIdentity
      else (decodeSignature (utf8 envelope.signatureBase64)).elim (.error .encoding) fun signature =>
        checkSignature lib key envelope.claims (claimsBytes envelope.claims) signature := by
    rw [checkEnvelope, canonicalClaimsBytes_eq]
    simp only [liftDigest, Except.mapError, Bind.bind, Except.bind, typedDigestHex_claims hversion]
    cases decodeSignature (utf8 envelope.signatureBase64) with
    | none => rfl
    | some signature => rfl
  rw [hbind]
  by_cases hidentity : envelope.envelopeID = envelopeIdentity envelope.claims
  swap
  · rw [if_pos fun h => hidentity h.symm]
    exact iff_of_false (fun h => by cases h) fun h => hidentity h.1
  rw [if_neg fun h => h hidentity.symm, and_iff_right hidentity]
  constructor
  · intro h
    cases hdecode : decodeSignature (utf8 envelope.signatureBase64) with
    | none =>
      rw [hdecode] at h
      cases h
    | some signature =>
      rw [hdecode] at h
      exact ⟨signature, utf8_injective (decodeSignature_eq_some.1 hdecode),
        (checkSignature_eq_ok hparse hsuits).1 h⟩
  · rintro ⟨signature, htext, hverifies⟩
    rw [htext, decodeSignature_eq_some.2 rfl]
    exact (checkSignature_eq_ok hparse hsuits).2 hverifies

end Checks

/-! ## Acceptance -/

section Accept

variable {ε ρ : Type} {lib : Primitives ε ρ} {order : List (List Char)} {payload : List UInt8}
  {envelope : SignatureEnvelope} {registry : PublicKeyRegistry} {expected : VerifyExpectation}

/-- An active key of the registry speaks for the claims of the envelope at a time: they were issued
while it was valid, it is valid still, and it verifies the signature. -/
def Spoken (lib : Primitives ε ρ) (envelope : SignatureEnvelope) (registry : PublicKeyRegistry)
    (t : Time) : Prop :=
  ∃ issuedAt, Timely envelope.claims registry t issuedAt ∧
    ∃ key ∈ registry.keys, key.kid = envelope.kid ∧ Eligible key envelope.claims t issuedAt ∧
      ∃ publicKey, parsePublicKey lib key.publicKeyPem = .ok publicKey ∧
        ∃ signature, envelope.signatureBase64 = Base64.text signature ∧
          Verifies lib publicKey (Sha256.sha256 (claimsBytes envelope.claims)) signature

/-- `VerifyDetached` accepts an envelope exactly where the registry is valid and the expected one,
the claims are the expected ones, the payload and the identity have the digests they name, and an
active key of the registry speaks for them. -/
theorem verifyDetached_iff : verifyDetached lib order payload envelope registry expected = some (.ok ()) ↔
    validateRegistry lib order registry = some (.ok ()) ∧
      Meant envelope.claims registry expected ∧
      expected.registryHash = hexDigest (registryBytes registry) ∧
      HasDigest envelope.objectType envelope.objectSchemaVersion payload envelope.payloadDigest ∧
      envelope.envelopeID = envelopeIdentity envelope.claims ∧
      Spoken lib envelope registry expected.atTime := by
  rw [verifyDetached]
  rcases hvalid : validateRegistry lib order registry with _ | ⟨e⟩ | ⟨⟨⟩⟩
  · exact iff_of_false (fun h => by cases h) fun h => by cases h.1
  · exact iff_of_false (fun h => by cases h) fun h => by cases h.1
  obtain ⟨-, hkeys⟩ := validateKeys_of_validateRegistry hvalid
  have hnodup := (nodup_of_validateKeys hkeys).1
  rw [Option.some.injEq, bind_unit_eq_ok, checkExpectation_eq_ok, bind_unit_eq_ok,
    checkBindings_eq_ok, bind_eq_ok]
  simp only [checkTimes_eq_ok, bind_eq_ok, findEligibleKey_eq_ok hnodup, true_and]
  constructor
  · rintro ⟨hmeant, ⟨hregistry, hpayload⟩, issuedAt, htimely, _, ⟨key, hkey, hkid, hcheck⟩, henvelope⟩
    obtain ⟨heligible, rfl⟩ := (checkEligible_eq_ok htimely.le fun hactive =>
      (active_of_validateKeys hkeys hkey hactive).1).1 hcheck
    obtain ⟨-, publicKey, hparse, hsuits⟩ := active_of_validateKeys hkeys hkey heligible.active
    rw [heligible.algorithm] at hsuits
    obtain ⟨hidentity, hsigned⟩ :=
      (@checkEnvelope_eq_ok _ _ lib key.verificationKey _ _ hmeant.schemaVersion hparse hsuits).1 henvelope
    exact ⟨hmeant, hregistry, hpayload, hidentity, issuedAt, htimely, key, hkey, hkid, heligible,
      publicKey, hparse, hsigned⟩
  · rintro ⟨hmeant, hregistry, hpayload, hidentity, issuedAt, htimely, key, hkey, hkid, heligible,
      publicKey, hparse, hsigned⟩
    obtain ⟨hrevoked, publicKey', hparse', hsuits⟩ :=
      active_of_validateKeys hkeys hkey heligible.active
    obtain rfl := Except.ok.inj (hparse.symm.trans hparse')
    rw [heligible.algorithm] at hsuits
    exact ⟨hmeant, ⟨hregistry, hpayload⟩, issuedAt, htimely, key.verificationKey,
      ⟨key, hkey, hkid, (checkEligible_eq_ok htimely.le fun _ => hrevoked).2 ⟨heligible, rfl⟩⟩,
      (@checkEnvelope_eq_ok _ _ lib key.verificationKey _ _ hmeant.schemaVersion hparse hsuits).2
        ⟨hidentity, hsigned⟩⟩

end Accept

/-! ## Claims in force -/

/-- The expectation that claims meet at a time. -/
def SignatureClaims.expectation (claims : SignatureClaims) (t : Time) : VerifyExpectation where
  objectType := claims.objectType
  objectSchemaID := claims.objectSchemaID
  objectSchemaVersion := claims.objectSchemaVersion
  purpose := claims.purpose
  environment := claims.environment
  tenantScope := claims.tenantScope
  migrationScope := claims.migrationScope
  registryHash := claims.keyRegistryHash
  atTime := t

/-- The time is after the issue of the registry and of the claims, and before they expire; the
claims were issued while the key was valid, and it is valid still. -/
def InForce (claims : SignatureClaims) (registry : PublicKeyRegistry) (key : RegistryKey) (t : Time) :
    Prop :=
  ∃ issuedAt, Timely claims registry t issuedAt ∧
    ∃ validFrom validUntil, parseContractTime key.validFrom = some validFrom ∧
      parseContractTime key.validUntil = some validUntil ∧ validFrom ≤ issuedAt ∧ t ≤ validUntil

/-! ## An accepted envelope -/

section Sample

def signingKey : RegistryKey :=
  { sampleKey "b" "active" none with
    purposes := some ["p".toList]
    environments := some ["e".toList] }

def signingRegistry : PublicKeyRegistry :=
  { sampleRegistry with keys := [signingKey] }

def signedClaims (registry : PublicKeyRegistry) : SignatureClaims where
  algorithm := algorithmECDSAP256SHA256
  environment := "e".toList
  expiresAt := none
  issuedAt := signingKey.validFrom
  keyRegistryHash := hexDigest (registryBytes registry)
  keyRegistryID := registry.registryID
  kid := signingKey.kid
  migrationScope := none
  objectSchemaID := "s".toList
  objectSchemaVersion := "1.0.0".toList
  objectType := "o".toList
  payloadDigest := []
  purpose := "p".toList
  schemaVersion := "1.0.0".toList
  signerID := []
  signerRole := []
  tenantScope := none

/-- The claims with the digest of the payload `null`. -/
def nullClaims (registry : PublicKeyRegistry) : SignatureClaims :=
  { signedClaims registry with
    payloadDigest := hexDigest (taggedBytes "o".toList "1.0.0".toList (utf8 (canonicalForm .null))) }

def nullEnvelope (registry : PublicKeyRegistry) (signature : List UInt8) : SignatureEnvelope :=
  (nullClaims registry).envelope (envelopeIdentity (nullClaims registry)) signature

def sampleSigner : Signer Unit Unit where
  publicKey := .ecdsa () "P-256".toList
  sign _ _ := some [0]

def signedAt : Time := (parseContractTime signingKey.validFrom).getD 0

theorem signingRegistry_valid :
    validateRegistry sampleLibrary ["b".toList] signingRegistry = some (.ok ()) ∧
      validDomainToken (utf8 "o".toList) = true ∧ validSchemaVersion (utf8 "1.0.0".toList) = true ∧
      parseContractTime signingKey.validFrom = some signedAt ∧ signedAt ≠ 0 ∧
      parseContractTime signingKey.validUntil = some (signedAt + 500000000) := by
  decide +kernel

theorem hasDigest_null (registry : PublicKeyRegistry) : HasDigest "o".toList "1.0.0".toList
    (documentOf .null) (nullClaims registry).payloadDigest :=
  ⟨signingRegistry_valid.2.1, signingRegistry_valid.2.2.1, .null, denotes_documentOf trivial, rfl⟩

theorem inForce_signedAt : InForce (signedClaims signingRegistry) signingRegistry signingKey signedAt := by
  obtain ⟨-, -, -, hfrom, hzero, huntil⟩ := signingRegistry_valid
  exact ⟨signedAt, ⟨hfrom, hzero, ⟨signedAt, hfrom, le_rfl⟩, le_rfl, fun _ h => by cases h⟩, signedAt,
    signedAt + 500000000, hfrom, huntil, le_rfl, le_add_of_nonneg_right (by decide)⟩

theorem verifyDetached_nullEnvelope (signature : List UInt8) :
    verifyDetached sampleLibrary ["b".toList] (documentOf .null) (nullEnvelope signingRegistry signature)
      signingRegistry ((signedClaims signingRegistry).expectation signedAt) = some (.ok ()) := by
  obtain ⟨issuedAt, htimely, hinterval⟩ := inForce_signedAt
  exact verifyDetached_iff.2 ⟨signingRegistry_valid.1,
    ⟨rfl, rfl, rfl, rfl, rfl, rfl, rfl, rfl, rfl, rfl⟩, rfl, hasDigest_null signingRegistry, rfl, issuedAt,
    ⟨htimely.issued, htimely.nonzero, htimely.registry, htimely.le, htimely.unexpired⟩, signingKey,
    List.mem_cons_self, rfl, ⟨rfl, rfl, List.mem_cons_self, List.mem_cons_self, rfl, hinterval⟩,
    sampleSigner.publicKey, rfl, signature, rfl, .ecdsa rfl⟩

end Sample

/-! ## What is signed is accepted -/

section Sign

variable {ε ρ : Type} {lib : Primitives ε ρ} {signer : Signer ε ρ} {payload : List UInt8}
  {claims : SignatureClaims} {envelope : SignatureEnvelope} {registry : PublicKeyRegistry}
  {key : RegistryKey} {t : Time}

/-- The options that `SignDetached` signs a digest with. -/
def signerOptions : PublicKey ε ρ → SignerOptions
  | .rsa _ _ => .pss sha256Size
  | _ => .sha256

theorem signClaims_eq_ok {hash signature : List UInt8} (h : signClaims signer claims hash = .ok signature) :
    signer.sign hash (signerOptions signer.publicKey) = some signature := by
  unfold signClaims at h
  cases hpublic : signer.publicKey with
  | ecdsa k curve =>
    rw [hpublic] at h
    dsimp only at h
    split_ifs at h
    cases hsign : signer.sign hash .sha256 with
    | none => rw [hsign] at h; cases h
    | some bytes => rw [hsign] at h; exact hsign.trans (congrArg some (Except.ok.inj h))
  | rsa k bitLen =>
    rw [hpublic] at h
    dsimp only at h
    split_ifs at h
    cases hsign : signer.sign hash (.pss sha256Size) with
    | none => rw [hsign] at h; cases h
    | some bytes => rw [hsign] at h; exact hsign.trans (congrArg some (Except.ok.inj h))
  | other =>
    rw [hpublic] at h
    cases h

theorem liftDigest_eq_ok {α : Type} {result : Except Error α} {a : α} :
    liftDigest result = .ok a ↔ result = .ok a := by
  cases result with
  | error e => exact iff_of_false (fun h => by cases h) (fun h => by cases h)
  | ok b => exact ⟨fun h => congrArg _ (Except.ok.inj h), fun h => congrArg _ (Except.ok.inj h)⟩

/-- An envelope that is signed carries the claims, with the digest of the payload, under their
identity, and a signature of them. -/
theorem signDetached_eq_ok (h : signDetached payload claims (some signer) = .ok envelope) :
    claims.schemaVersion = "1.0.0".toList ∧
      envelope.claims = { claims with payloadDigest := envelope.payloadDigest } ∧
      HasDigest claims.objectType claims.objectSchemaVersion payload envelope.payloadDigest ∧
      envelope.envelopeID = envelopeIdentity envelope.claims ∧
      ∃ signature, envelope.signatureBase64 = Base64.text signature ∧
        signer.sign (Sha256.sha256 (claimsBytes envelope.claims)) (signerOptions signer.publicKey)
          = some signature := by
  unfold signDetached at h
  dsimp only at h
  split_ifs at h with hversion
  rw [not_not] at hversion
  obtain ⟨-, h⟩ := bind_unit_eq_ok.1 h
  obtain ⟨digest, hdigest, h⟩ := bind_eq_ok.1 h
  obtain ⟨canonical, hcanonical, h⟩ := bind_eq_ok.1 h
  obtain ⟨signature, hsignature, h⟩ := bind_eq_ok.1 h
  obtain ⟨envelopeID, hidentity, h⟩ := bind_eq_ok.1 h
  obtain rfl := Except.ok.inj h
  rw [liftDigest_eq_ok, canonicalClaimsBytes_eq] at hcanonical
  obtain rfl := Except.ok.inj hcanonical
  have hclaimed := @typedDigestHex_claims { claims with payloadDigest := digest } hversion
  have hidentified := (liftDigest_eq_ok.1 hidentity).symm.trans hclaimed
  exact ⟨hversion, rfl, typedDigestHex_eq_ok.1 (liftDigest_eq_ok.1 hdigest),
    Except.ok.inj hidentified, signature, rfl, signClaims_eq_ok hsignature⟩

theorem signDetached_null : signDetached (documentOf .null) (signedClaims signingRegistry)
    (some sampleSigner) = .ok (nullEnvelope signingRegistry [0]) := by
  have htimes : checkSignedTimes (signedClaims signingRegistry) = .ok () := by
    have hissued : parseContractTime (signedClaims signingRegistry).issuedAt = some signedAt :=
      signingRegistry_valid.2.2.2.1
    rw [checkSignedTimes, hissued]
    rfl
  unfold signDetached
  dsimp only
  rw [if_neg (not_not.2 rfl : ¬ (signedClaims signingRegistry).schemaVersion ≠ "1.0.0".toList)]
  refine bind_unit_eq_ok.2 ⟨htimes, ?_⟩
  refine bind_eq_ok.2
    ⟨_, liftDigest_eq_ok.2 (typedDigestHex_eq_ok.2 (hasDigest_null signingRegistry)), ?_⟩
  refine bind_eq_ok.2 ⟨_, liftDigest_eq_ok.2 (canonicalClaimsBytes_eq (nullClaims signingRegistry)), ?_⟩
  refine bind_eq_ok.2 ⟨[0], rfl, ?_⟩
  exact bind_eq_ok.2 ⟨_, liftDigest_eq_ok.2 (@typedDigestHex_claims (nullClaims signingRegistry) rfl), rfl⟩

end Sign

/-! ## Binding -/

section Binding

variable {ε ρ : Type} {lib : Primitives ε ρ} {payload payload' : List UInt8}
  {envelope envelope' : SignatureEnvelope} {registry registry' : PublicKeyRegistry}
  {expected expected' : VerifyExpectation}

/-- The byte strings whose digests an acceptance compares. -/
def comparedBytes (payload : List UInt8) (envelope : SignatureEnvelope) (registry : PublicKeyRegistry) :
    List (List UInt8) :=
  registryBytes registry ::
    taggedBytes "signature_envelope".toList "1.0.0".toList (claimsBytes envelope.claims) ::
      (typedDigestInput (utf8 envelope.objectType) (utf8 envelope.objectSchemaVersion)
        payload).toOption.toList

theorem hexDigest_inj {a b : List UInt8} (hcollision : Sha256.sha256 a = Sha256.sha256 b → a = b)
    (h : hexDigest a = hexDigest b) : a = b :=
  hcollision (Hex.encodeToString_injective h)

theorem HasDigest.input {objectType version digest : List Char}
    (h : HasDigest objectType version payload digest) : ∃ canonical,
      canonicalizeJSON payload = .ok canonical ∧
      typedDigestInput (utf8 objectType) (utf8 version) payload
        = .ok (taggedBytes objectType version canonical) ∧
      digest = hexDigest (taggedBytes objectType version canonical) := by
  obtain ⟨htype, hversion, w, hw, hdigest⟩ := h
  have hcanonical := canonicalizeJSON_eq_ok.2 ⟨w, hw, rfl⟩
  exact ⟨_, hcanonical, typedDigestInput_eq_ok.2 ⟨htype, hversion, _, hcanonical, rfl⟩, hdigest⟩

theorem SignatureEnvelope.eq_of_claims {a b : SignatureEnvelope} (h : a.claims = b.claims)
    (hid : a.envelopeID = b.envelopeID) : { a with signatureBase64 := b.signatureBase64 } = b := by
  cases a
  cases b
  simp only [SignatureEnvelope.claims, SignatureClaims.mk.injEq] at h
  simp_all only

theorem Meant.unique {claims : SignatureClaims} (h : Meant claims registry expected)
    (h' : Meant claims registry' expected') : { expected with atTime := expected'.atTime } = expected' := by
  obtain ⟨-, h1, h2, h3, h4, h5, h6, h7, -, h8⟩ := h
  obtain ⟨-, h1', h2', h3', h4', h5', h6', h7', -, h8'⟩ := h'
  cases expected
  cases expected'
  simp_all only

end Binding

end Canonical
