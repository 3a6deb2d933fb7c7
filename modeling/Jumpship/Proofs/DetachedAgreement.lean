import Jumpship.Client.Detached
import Jumpship.Proofs.ClientCanonicalization
import Jumpship.Proofs.DetachedSignatures
import Jumpship.Proofs.Domains
import Jumpship.Proofs.Instants
import Jumpship.Proofs.SignatureDer
import Jumpship.Proofs.TypedDigest

/-!
# The server and the browser verify alike

Each accepts what the other does, but for what only one of them checks: the browser wants the hashes
of a registry in lower case and its version positive, the server wants every key to have a kid and the
time not to be zero.
-/

namespace Client

open Canonical Unicode Pattern

variable {ε ρ κ : Type} {lib : Primitives ε ρ} {subtle : Subtle κ}

/-! ## Instants -/

section Instants

/-- Nanoseconds from the server's zero time to the browser's. -/
def epoch : ℤ := 719162 * 86400 * 10 ^ 9

theorem parse_eq_some {s : List Char} {a : Go.Time} :
    Go.parseContractTime s = some a ↔ strictRFC3339Nanos (utf16 s) = some (a - epoch) := by
  rw [← parseContractTime_eq_some_iff, epoch, sub_add_cancel]

theorem parse_eq_none {s : List Char} :
    Go.parseContractTime s = none ↔ strictRFC3339Nanos (utf16 s) = none := by
  rw [← not_iff_not, ← ne_eq, ← ne_eq, Option.ne_none_iff_exists', Option.ne_none_iff_exists']
  constructor
  · rintro ⟨a, ha⟩
    exact ⟨_, parse_eq_some.1 ha⟩
  · rintro ⟨x, hx⟩
    exact ⟨x + epoch, parse_eq_some.2 (by rw [hx, add_sub_cancel_right])⟩

end Instants

/-! ## Keys -/

section Keys

/-- A key text is read alike by the two libraries, and they verify the same signatures with it. -/
structure ReadAlike (lib : Primitives ε ρ) (subtle : Subtle κ) (pem : List Char) : Prop where
  ecdsa : (∃ k, parsePublicKey lib pem = .ok (.ecdsa k "P-256".toList)) ↔
    ∃ k, (publicKeyDER (utf16 pem)).bind subtle.importECDSA
      = some (k, "ECDSA".toList, "P-256".toList)
  rsa : (∃ k n, parsePublicKey lib pem = .ok (.rsa k n) ∧ 2048 ≤ n) ↔
    ∃ k n, (publicKeyDER (utf16 pem)).bind subtle.importRSAPSS = some (k, "RSA-PSS".toList, n) ∧
      2048 ≤ n
  verifyECDSA : ∀ k k' names data signature, parsePublicKey lib pem = .ok (.ecdsa k "P-256".toList) →
    (publicKeyDER (utf16 pem)).bind subtle.importECDSA = some (k', names) →
    (lib.verifyASN1 k (Sha256.sha256 data) signature = true ↔
      ∃ raw, ecdsaDERToRaw signature = some raw ∧ subtle.verifyECDSA k' raw data = true)
  verifyRSAPSS : ∀ k n k' names data signature, parsePublicKey lib pem = .ok (.rsa k n) →
    (publicKeyDER (utf16 pem)).bind subtle.importRSAPSS = some (k', names) →
    (lib.verifyPSS k (Sha256.sha256 data) signature = true ↔
      subtle.verifyRSAPSS k' signature data = true)

variable {key : RegistryKey} {keys seen : List RegistryKey}

theorem suits_ecdsa_iff : (∃ publicKey, parsePublicKey lib key.publicKeyPem = .ok publicKey ∧
      Suits publicKey algorithmECDSAP256SHA256) ↔
    ∃ k, parsePublicKey lib key.publicKeyPem = .ok (.ecdsa k "P-256".toList) := by
  have hdiffer : algorithmECDSAP256SHA256 ≠ algorithmRSAPSSSHA256 := by decide
  constructor
  · rintro ⟨publicKey, hparse, hsuits⟩
    generalize halgorithm : algorithmECDSAP256SHA256 = algorithm at hsuits
    cases hsuits with
    | ecdsa k => exact ⟨k, hparse⟩
    | rsa k h => exact absurd halgorithm hdiffer
  · rintro ⟨k, hparse⟩
    exact ⟨_, hparse, .ecdsa k⟩

theorem suits_rsa_iff : (∃ publicKey, parsePublicKey lib key.publicKeyPem = .ok publicKey ∧
      Suits publicKey algorithmRSAPSSSHA256) ↔
    ∃ k n, parsePublicKey lib key.publicKeyPem = .ok (.rsa k n) ∧ 2048 ≤ n := by
  have hdiffer : algorithmRSAPSSSHA256 ≠ algorithmECDSAP256SHA256 := by decide
  constructor
  · rintro ⟨publicKey, hparse, hsuits⟩
    generalize halgorithm : algorithmRSAPSSSHA256 = algorithm at hsuits
    cases hsuits with
    | ecdsa k => exact absurd halgorithm hdiffer
    | rsa k h => exact ⟨k, _, hparse, h⟩
  · rintro ⟨k, n, hparse, h⟩
    exact ⟨_, hparse, .rsa k h⟩

theorem validKey_iff (halike : ReadAlike lib subtle key.publicKeyPem) :
    validKey subtle key = true ↔
      ∃ publicKey, parsePublicKey lib key.publicKeyPem = .ok publicKey ∧
        Suits publicKey key.algorithm := by
  unfold validKey
  rw [show "ECDSA_P256_SHA256".toList = algorithmECDSAP256SHA256 from rfl,
    show "RSA_PSS_SHA256".toList = algorithmRSAPSSSHA256 from rfl]
  by_cases hecdsa : key.algorithm = algorithmECDSAP256SHA256
  · rw [if_pos hecdsa, hecdsa, suits_ecdsa_iff, halike.ecdsa]
    generalize "ECDSA".toList = name, "P-256".toList = curve
    cases (publicKeyDER (utf16 key.publicKeyPem)).bind subtle.importECDSA with
    | none => simp
    | some imported => simp [Prod.ext_iff]
  rw [if_neg hecdsa]
  by_cases hrsa : key.algorithm = algorithmRSAPSSSHA256
  · rw [if_pos hrsa, hrsa, suits_rsa_iff, halike.rsa]
    generalize "RSA-PSS".toList = name
    cases (publicKeyDER (utf16 key.publicKeyPem)).bind subtle.importRSAPSS with
    | none => simp
    | some imported => simp [Prod.ext_iff]
  rw [if_neg hrsa]
  refine iff_of_false Bool.false_ne_true ?_
  rintro ⟨publicKey, -, hsuits⟩
  generalize key.algorithm = algorithm at hsuits hecdsa hrsa
  cases hsuits with
  | ecdsa k => exact hecdsa rfl
  | rsa k h => exact hrsa rfl

theorem validStatus_iff {validFrom : Go.Time} : validStatus key (validFrom - epoch) = true ↔
    validateStatus key validFrom = .ok () := by
  unfold validStatus validateStatus
  by_cases hrevoked : key.status = "revoked".toList
  · rw [if_pos hrevoked, if_pos hrevoked]
    cases key.revokedAt with
    | none => exact iff_of_false Bool.false_ne_true fun h => by cases h
    | some text =>
      cases key.revocationReason with
      | none =>
        refine iff_of_false (fun h => ?_) fun h => by cases h
        split at h
        · cases h
        · rw [Bool.and_eq_true] at h
          exact of_decide_eq_true h.1 rfl
      | some reason =>
        simp only [Option.bind_some]
        cases hparse : Go.parseContractTime text with
        | none =>
          rw [parse_eq_none.1 hparse]
          exact iff_of_false Bool.false_ne_true fun h => by cases h
        | some revokedAt =>
          rw [parse_eq_some.1 hparse]
          simp
  rw [if_neg hrevoked, if_neg hrevoked]
  by_cases hother : key.status = "active".toList ∨ key.status = "superseded".toList
  · rw [if_pos hother, if_pos (by rwa [Bool.or_eq_true, decide_eq_true_eq, decide_eq_true_eq])]
    cases key.revokedAt with
    | none => cases key.revocationReason with
      | none => exact iff_of_true rfl rfl
      | some reason => exact iff_of_false Bool.false_ne_true fun h => by cases h
    | some text => exact iff_of_false Bool.false_ne_true fun h => by cases h
  · rw [if_neg hother, if_neg (by rwa [Bool.or_eq_true, decide_eq_true_eq, decide_eq_true_eq])]
    exact iff_of_false Bool.false_ne_true fun h => by cases h

/-- The checks of a key on its own. -/
def KeyChecks (lib : Primitives ε ρ) (key : RegistryKey) : Prop :=
  ∃ validFrom validUntil, Go.parseContractTime key.validFrom = some validFrom ∧
    Go.parseContractTime key.validUntil = some validUntil ∧ validFrom ≤ validUntil ∧
    validateStatus key validFrom = .ok () ∧
    ∃ publicKey, parsePublicKey lib key.publicKeyPem = .ok publicKey ∧ Suits publicKey key.algorithm

theorem validCandidate_iff (halike : ReadAlike lib subtle key.publicKeyPem) :
    validCandidate subtle key = true ↔ KeyChecks lib key := by
  unfold validCandidate KeyChecks
  cases hfrom : Go.parseContractTime key.validFrom with
  | none =>
    rw [parse_eq_none.1 hfrom]
    exact iff_of_false Bool.false_ne_true (by simp)
  | some validFrom =>
    rw [parse_eq_some.1 hfrom]
    cases huntil : Go.parseContractTime key.validUntil with
    | none =>
      rw [parse_eq_none.1 huntil]
      exact iff_of_false Bool.false_ne_true (by simp)
    | some validUntil =>
      rw [parse_eq_some.1 huntil]
      simp only [Bool.and_eq_true, Bool.not_eq_true', decide_eq_false_iff_not, not_lt,
        sub_le_sub_iff_right, validStatus_iff, validKey_iff halike, Option.some.injEq,
        exists_and_left, exists_eq_left', and_assoc]

theorem validateKey_eq_ok : validateKey lib seen key = .ok () ↔
    key.kid ≠ [] ∧ (∀ other ∈ seen, other.kid ≠ key.kid) ∧ KeyChecks lib key := by
  have hany : (seen.any fun other => other.kid = key.kid) = true ↔ ¬ ∀ other ∈ seen, other.kid ≠ key.kid := by
    rw [List.any_eq_true]
    simp
  unfold validateKey
  by_cases hkid : key.kid = []
  · rw [if_pos hkid]
    exact iff_of_false (fun h => by cases h) fun h => h.1 hkid
  rw [if_neg hkid, and_iff_right hkid]
  by_cases hfresh : ∀ other ∈ seen, other.kid ≠ key.kid
  swap
  · rw [if_pos (hany.2 hfresh)]
    exact iff_of_false (fun h => by cases h) fun h => hfresh h.1
  rw [if_neg fun h => hany.1 h hfresh, and_iff_right hfresh, KeyChecks]
  cases Go.parseContractTime key.validFrom with
  | none => exact iff_of_false (fun h => by cases h) (by simp)
  | some validFrom =>
    cases Go.parseContractTime key.validUntil with
    | none => exact iff_of_false (fun h => by cases h) (by simp)
    | some validUntil =>
      simp only [Option.some.injEq, exists_and_left, exists_eq_left']
      by_cases hle : validFrom ≤ validUntil
      · rw [if_neg (not_lt.2 hle), bind_unit_eq_ok, validatePublicKey_eq_ok, and_iff_right hle]
      · rw [if_pos (not_le.1 hle)]
        exact iff_of_false (fun h => by cases h) fun h => hle h.1

theorem validateKeys_eq_ok : validateKeys lib seen keys = .ok () ↔
    (∀ key ∈ keys, key.kid ≠ [] ∧ KeyChecks lib key) ∧ (keys.map RegistryKey.kid).Nodup ∧
      ∀ key ∈ keys, ∀ other ∈ seen, other.kid ≠ key.kid := by
  induction keys generalizing seen with
  | nil => exact iff_of_true rfl (by simp)
  | cons key keys ih =>
    rw [validateKeys, bind_unit_eq_ok, validateKey_eq_ok, ih]
    simp only [List.forall_mem_cons, List.map_cons, List.nodup_cons, List.mem_map, not_exists, not_and,
      List.mem_append, List.mem_singleton]
    constructor
    · rintro ⟨⟨hkid, hfresh, hkey⟩, hkeys, hnodup, hothers⟩
      exact ⟨⟨⟨hkid, hkey⟩, hkeys⟩, ⟨fun other hother heq => hothers other hother key (.inr rfl) heq.symm,
        hnodup⟩, hfresh, fun k hk other hother => hothers k hk other (.inl hother)⟩
    · rintro ⟨⟨⟨hkid, hkey⟩, hkeys⟩, ⟨hnew, hnodup⟩, hfresh, hothers⟩
      refine ⟨⟨hkid, hfresh, hkey⟩, hkeys, hnodup, fun k hk other hother => ?_⟩
      rcases hother with hother | rfl
      · exact hothers k hk other hother
      · exact fun heq => hnew k hk heq.symm

end Keys

/-! ## The header -/

section Header

variable {registry : PublicKeyRegistry}

theorem roundMagnitude_nat {n : ℕ} (h : n < 2 ^ 53) : Binary64.roundMagnitude n = n :=
  Binary64.roundMagnitude_of_isMagnitude ⟨n, 0, h, by norm_num, by simp⟩

theorem numberOfVersion_value (version : Int64) : (numberOfVersion version).value =
    if version.toInt < 0 then -Binary64.roundMagnitude |(version.toInt : ℚ)|
    else Binary64.roundMagnitude |(version.toInt : ℚ)| := by
  have h := nearest_version version
  unfold Binary64.nearest at h
  split_ifs at h with hlt hneg
  · rw [← Option.some.inj h, if_pos (Int.cast_lt_zero.1 hneg)]
  · rw [← Option.some.inj h, if_neg fun hn => hneg (Int.cast_lt_zero.2 hn)]

/-- A version is positive, or one, where the number it is read as is. -/
theorem numberOfVersion_cases (version : Int64) :
    ((numberOfVersion version).value < 1 ↔ version.toInt < 1) ∧
      ((numberOfVersion version).value = 1 ↔ version.toInt = 1) := by
  rw [numberOfVersion_value]
  generalize version.toInt = n
  rcases lt_or_ge n 0 with hneg | hnonneg
  · have hround := Binary64.roundMagnitude_nonneg (abs_nonneg (n : ℚ))
    rw [if_pos hneg]
    exact ⟨iff_of_true (by linarith) (by omega), iff_of_false (by linarith) (by omega)⟩
  obtain ⟨m, rfl⟩ := Int.eq_ofNat_of_zero_le hnonneg
  rw [if_neg (not_lt.2 hnonneg), Int.cast_natCast, Nat.abs_cast]
  rcases Nat.lt_or_ge m 2 with hsmall | hlarge
  · rw [roundMagnitude_nat (hsmall.trans (by norm_num))]
    exact ⟨by norm_cast, by norm_cast⟩
  · have hle := Binary64.roundMagnitude_mono (by norm_num : (0 : ℚ) ≤ (2 : ℕ))
      (by exact_mod_cast hlarge : ((2 : ℕ) : ℚ) ≤ m)
    rw [roundMagnitude_nat (by norm_num)] at hle
    norm_num at hle
    exact ⟨iff_of_false (by linarith) (by omega), iff_of_false (by linarith) (by omega)⟩

theorem decodeString_lower : ∀ (n : ℕ) {s : List Char}, s.length = 2 * n → (∀ c ∈ s, Hex.IsLower c) →
    ∃ bytes, Hex.decodeString s = some bytes ∧ bytes.length = n
  | 0, s, hlen, _ => ⟨[], by rw [List.length_eq_zero_iff.1 hlen]; rfl, rfl⟩
  | n + 1, h :: l :: s, hlen, hlower => by
    obtain ⟨hh, hlower⟩ := List.forall_mem_cons.1 hlower
    obtain ⟨hl, hlower⟩ := List.forall_mem_cons.1 hlower
    obtain ⟨a, ha⟩ := Option.isSome_iff_exists.1 (Hex.digitValue?_isSome hh)
    obtain ⟨b, hb⟩ := Option.isSome_iff_exists.1 (Hex.digitValue?_isSome hl)
    obtain ⟨bytes, hbytes, hcount⟩ := decodeString_lower n (by simp at hlen; omega) hlower
    exact ⟨_, by rw [Hex.decodeString, ha, hb, hbytes]; rfl, by rw [List.length_cons, hcount]⟩
  | _ + 1, [], hlen, _ => by simp at hlen
  | _ + 1, [_], hlen, _ => by simp at hlen; omega

theorem isHash_of_isHashHex {s : List Char} (h : isHashHex s = true) : isHash s = true := by
  rw [isHashHex, RegularExpression.rmatch_iff_matches', hashHex, mem_pow_oneOf] at h
  obtain ⟨hlen, hunits⟩ := h
  have hclass : ∀ u ∈ span '0' '9' ++ span 'a' 'f', u < 128 ∧ Hex.IsLower (Char.ofNat u) := by decide
  have hascii : ∀ c ∈ s, c.toNat < 128 := ascii_of_utf16 fun u hu => (hclass u (hunits u hu)).1
  rw [utf16_map_toNat hascii, List.length_map] at hlen
  have hlower : ∀ c ∈ s, Hex.IsLower c := by
    intro c hc
    have hmem := (hclass c.toNat (hunits _ (by
      rw [utf16_map_toNat hascii]
      exact List.mem_map_of_mem hc))).2
    rwa [Char.ofNat_toNat] at hmem
  obtain ⟨bytes, hbytes, hcount⟩ := decodeString_lower 32 hlen hlower
  rw [isHash, hbytes]
  exact decide_eq_true hcount

theorem version_facts (version : Int64) : (version = 0 ↔ version.toInt = 0) ∧
    (version = 1 ↔ version.toInt = 1) ∧ (1 < version ↔ 1 < version.toInt) :=
  ⟨Int64.toInt_inj.symm, Int64.toInt_inj.symm, Int64.lt_iff_toInt_lt⟩

/-- What the server asks of a header. -/
structure ServerHeader (registry : PublicKeyRegistry) : Prop where
  schemaVersion : registry.schemaVersion = "1.0.0".toList
  keys : registry.keys ≠ []
  version : registry.registryVersion.toInt ≠ 0
  hashes : ∀ hash ∈ [registry.registryID, registry.rootFingerprint, registry.purposePolicyHash],
    isHash hash = true
  issued : Go.parseContractTime registry.issuedAt ≠ none
  genesis : registry.registryVersion.toInt = 1 → registry.previousRegistryHash = none
  later : 1 < registry.registryVersion.toInt →
    ∃ hash, registry.previousRegistryHash = some hash ∧ isHash hash = true

theorem validateHeader_eq_ok : validateHeader registry = .ok () ↔ ServerHeader registry := by
  obtain ⟨hzero, hone, hmore⟩ := version_facts registry.registryVersion
  unfold validateHeader
  constructor
  · intro h
    split_ifs at h with h1 h2 h3 h4 h5
    all_goals
      simp only [Bool.or_eq_true, decide_eq_true_eq, not_or, not_not, List.length_eq_zero_iff] at h1
      simp only [Bool.not_eq_true', Bool.not_eq_false, List.all_eq_true] at h2
      simp only [Bool.and_eq_true, decide_eq_true_eq, not_and, not_not] at h4
    · split at h
      · cases h
      · rename_i hash hprevious
        split_ifs at h with hhash
        exact ⟨h1.1.1, h1.2, fun hv => h1.1.2 (hzero.2 hv), h2, h3, fun hv => h4 (hone.2 hv),
          fun _ => ⟨hash, hprevious, hhash⟩⟩
    · exact ⟨h1.1.1, h1.2, fun hv => h1.1.2 (hzero.2 hv), h2, h3, fun hv => h4 (hone.2 hv),
        fun hv => absurd (hmore.2 hv) h5⟩
  · intro h
    rw [if_neg, if_neg, if_neg h.issued, if_neg]
    · by_cases hv : 1 < registry.registryVersion
      · obtain ⟨hash, hprevious, hhash⟩ := h.later (hmore.1 hv)
        rw [if_pos hv, hprevious]
        exact if_pos hhash
      · rw [if_neg hv]
    · simp only [Bool.and_eq_true, decide_eq_true_eq, not_and, not_not]
      exact fun hv => h.genesis (hone.1 hv)
    · simp only [Bool.not_eq_true', Bool.not_eq_false, List.all_eq_true]
      exact h.hashes
    · simp only [Bool.or_eq_true, decide_eq_true_eq, not_or, not_not, List.length_eq_zero_iff]
      exact ⟨⟨h.schemaVersion, fun hv => h.version (hzero.1 hv)⟩, h.keys⟩

/-- The hashes of a registry. -/
def registryHashes (registry : PublicKeyRegistry) : List (List Char) :=
  [registry.registryID, registry.rootFingerprint, registry.purposePolicyHash] ++
    registry.previousRegistryHash.toList

/-- What the browser asks of a header over what the server asks. -/
def Strict (registry : PublicKeyRegistry) : Prop :=
  0 < registry.registryVersion.toInt ∧ ∀ hash ∈ registryHashes registry, isHashHex hash = true

/-- What the browser asks of a header. -/
structure ClientHeader (registry : PublicKeyRegistry) : Prop where
  schemaVersion : registry.schemaVersion = "1.0.0".toList
  keys : registry.keys ≠ []
  version : 0 < registry.registryVersion.toInt
  hashes : ∀ hash ∈ [registry.registryID, registry.rootFingerprint, registry.purposePolicyHash],
    isHashHex hash = true
  issued : Go.parseContractTime registry.issuedAt ≠ none
  genesis : registry.registryVersion.toInt = 1 → registry.previousRegistryHash = none
  later : registry.registryVersion.toInt ≠ 1 →
    ∃ hash, registry.previousRegistryHash = some hash ∧ isHashHex hash = true
  nodup : (registry.keys.map RegistryKey.kid).Nodup

theorem guard_eq_true {c : Prop} [Decidable c] {b : Bool} :
    (if c then false else b) = true ↔ ¬ c ∧ b = true := by
  by_cases h : c <;> simp [h]

theorem guard_eq_some {c : Prop} [Decidable c] {b : Option Bool} :
    (if c then some false else b) = some true ↔ ¬ c ∧ b = some true := by
  by_cases h : c <;> simp [h]

theorem previous_iff {previous : Option (List Char)} {one : Prop} [Decidable one] :
    ¬ (if one then previous ≠ none else (previous.all fun hash => !isHashHex hash) = true) ↔
      (one → previous = none) ∧ (¬ one → ∃ hash, previous = some hash ∧ isHashHex hash = true) := by
  by_cases h : one
  · simp [h]
  · cases previous with
    | none => simp [h]
    | some hash => simp [h]

theorem validHeader_iff : validHeader registry = true ↔ ClientHeader registry := by
  obtain ⟨hpositive, hone⟩ := numberOfVersion_cases registry.registryVersion
  unfold validHeader
  rw [guard_eq_true, guard_eq_true, guard_eq_true, guard_eq_true, previous_iff, hone,
    ← parse_eq_none, decide_eq_true_eq]
  simp only [Bool.or_eq_true, decide_eq_true_eq, not_or, not_not, hpositive, not_lt,
    Nat.one_le_iff_ne_zero, ne_eq, List.length_eq_zero_iff, Bool.not_eq_true', Bool.not_eq_false]
  constructor
  · rintro ⟨⟨⟨hschema, hversion⟩, hkeys⟩, ⟨⟨hid, hroot⟩, hpolicy⟩, ⟨hgenesis, hlater⟩, htime, hnodup⟩
    exact ⟨hschema, hkeys, hversion, by simp [hid, hroot, hpolicy], htime, hgenesis, hlater, hnodup⟩
  · intro h
    exact ⟨⟨⟨h.schemaVersion, h.version⟩, h.keys⟩, ⟨⟨h.hashes _ (by simp), h.hashes _ (by simp)⟩,
      h.hashes _ (by simp)⟩, ⟨h.genesis, h.later⟩, h.issued, h.nodup⟩

theorem clientHeader_iff : ClientHeader registry ↔
    ServerHeader registry ∧ Strict registry ∧ (registry.keys.map RegistryKey.kid).Nodup := by
  constructor
  · intro h
    have hprevious : ∀ hash ∈ registry.previousRegistryHash.toList, isHashHex hash = true := by
      intro hash hhash
      rw [Option.mem_toList] at hhash
      by_cases hv : registry.registryVersion.toInt = 1
      · rw [h.genesis hv] at hhash
        cases hhash
      · obtain ⟨other, hother, hhex⟩ := h.later hv
        rw [hother] at hhash
        rwa [← Option.some.inj hhash]
    refine ⟨⟨h.schemaVersion, h.keys, h.version.ne', fun hash hhash => isHash_of_isHashHex (h.hashes hash hhash),
      h.issued, h.genesis, fun hv => ?_⟩, ⟨h.version, fun hash hhash => ?_⟩, h.nodup⟩
    · obtain ⟨hash, hsome, hhex⟩ := h.later hv.ne'
      exact ⟨hash, hsome, isHash_of_isHashHex hhex⟩
    · exact (List.mem_append.1 hhash).elim (h.hashes hash) (hprevious hash)
  · rintro ⟨h, ⟨hversion, hhashes⟩, hnodup⟩
    refine ⟨h.schemaVersion, h.keys, hversion, fun hash hhash => hhashes hash (List.mem_append_left _ hhash),
      h.issued, h.genesis, fun hv => ?_, hnodup⟩
    obtain ⟨hash, hsome, -⟩ := h.later (by omega)
    exact ⟨hash, hsome, hhashes hash (List.mem_append_right _ (by rw [hsome]; simp))⟩

end Header

/-! ## Registries -/

section Registry

variable {registry : PublicKeyRegistry} {order : List (List Char)}

theorem validateRegistry_eq_ok : validateRegistry lib order registry = some (.ok ()) ↔
    validateHeader registry = .ok () ∧ validateKeys lib [] registry.keys = .ok () ∧
      validateSupersession order registry.keys = some (.ok ()) := by
  constructor
  · intro h
    obtain ⟨hheader, hkeys⟩ := validateKeys_of_validateRegistry h
    rw [validateRegistry, hheader] at h
    dsimp only at h
    rw [hkeys] at h
    exact ⟨hheader, hkeys, h⟩
  · rintro ⟨hheader, hkeys, hlinks⟩
    rw [validateRegistry, hheader]
    dsimp only
    rw [hkeys]
    exact hlinks

/-- The browser accepts the registries that the server does and that are strict; the server those of
the browser in which every key has a kid. -/
theorem registry_agrees (horder : order.Perm (registry.keys.map RegistryKey.kid))
    (halike : ∀ key ∈ registry.keys, ReadAlike lib subtle key.publicKeyPem) :
    (validatePublicKeyRegistry subtle registry = some true ∧ ∀ key ∈ registry.keys, key.kid ≠ []) ↔
      validateRegistry lib order registry = some (.ok ()) ∧ Strict registry := by
  have hcandidates : registry.keys.all (validCandidate subtle) = true ↔
      ∀ key ∈ registry.keys, KeyChecks lib key :=
    List.all_eq_true.trans (forall₂_congr fun key hkey => validCandidate_iff (halike key hkey))
  have hkeys : validateKeys lib [] registry.keys = .ok () ↔
      (∀ key ∈ registry.keys, key.kid ≠ [] ∧ KeyChecks lib key) ∧
        (registry.keys.map RegistryKey.kid).Nodup := by
    rw [validateKeys_eq_ok]
    simp
  have hlinks (hheader : validateHeader registry = .ok ())
      (hvalid : validateKeys lib [] registry.keys = .ok ()) :
      validSupersession registry.keys = some true ↔
        validateSupersession order registry.keys = some (.ok ()) := by
    obtain ⟨-, ⟨verdict, hverdict, hclient⟩, -⟩ :=
      (validateRegistry_supersession lib registry horder horder).2 hheader hvalid
    rw [hverdict, hclient, Option.some.injEq, Option.some.injEq, decide_eq_true_eq]
  rw [validateRegistry_eq_ok, validatePublicKeyRegistry, guard_eq_some, guard_eq_some,
    Bool.not_eq_true', Bool.not_eq_false, Bool.not_eq_true', Bool.not_eq_false]
  constructor
  · rintro ⟨⟨h1, h2, h⟩, hkid⟩
    obtain ⟨hheader, hstrict, hnodup⟩ := clientHeader_iff.1 (validHeader_iff.1 h1)
    rw [← validateHeader_eq_ok] at hheader
    have hvalid := hkeys.2 ⟨fun key hkey => ⟨hkid key hkey, hcandidates.1 h2 key hkey⟩, hnodup⟩
    exact ⟨⟨hheader, hvalid, (hlinks hheader hvalid).1 h⟩, hstrict⟩
  · rintro ⟨⟨hheader, hvalid, hsupersession⟩, hstrict⟩
    obtain ⟨hchecks, hnodup⟩ := hkeys.1 hvalid
    have hclient := validHeader_iff.2
      (clientHeader_iff.2 ⟨validateHeader_eq_ok.1 hheader, hstrict, hnodup⟩)
    exact ⟨⟨hclient, hcandidates.2 fun key hkey => (hchecks key hkey).2,
      (hlinks hheader hvalid).2 hsupersession⟩, fun key hkey => (hchecks key hkey).1⟩

end Registry

/-! ## Digests -/

section Digests

variable {registry : PublicKeyRegistry} {claims : SignatureClaims} {expected : VerifyExpectation}
  {time : ℤ} {payload : List Char}

/-- The server's expectation at a time in milliseconds since 1970. -/
def VerifyExpectation.server (expected : VerifyExpectation) (time : ℤ) : Canonical.VerifyExpectation where
  objectType := expected.objectType
  objectSchemaID := expected.objectSchemaID
  objectSchemaVersion := expected.objectSchemaVersion
  purpose := expected.purpose
  environment := expected.environment
  tenantScope := expected.tenantScope
  migrationScope := expected.migrationScope
  registryHash := expected.registryHash
  atTime := time * 1000000 + epoch

theorem registryDigest_client (registry : PublicKeyRegistry) :
    registryDigest registry = hexDigest (registryBytes registry) := by
  rw [registryDigest, canonicalValue_eq]
  rfl

theorem meant_iff : meant claims registry expected = true ↔
    Meant claims registry (expected.server time) ∧
      (expected.server time).registryHash = hexDigest (registryBytes registry) := by
  unfold meant
  rw [registryDigest_client]
  simp only [Bool.and_eq_true, decide_eq_true_eq]
  constructor
  · rintro ⟨⟨⟨⟨⟨⟨⟨⟨⟨⟨h1, h2⟩, h3⟩, h4⟩, h5⟩, h6⟩, h7⟩, h8⟩, h9⟩, h10⟩, h11⟩
    exact ⟨⟨h1, h2, h3, h4, h5, h6, h7, h8, h9, h10⟩, h11⟩
  · rintro ⟨⟨h1, h2, h3, h4, h5, h6, h7, h8, h9, h10⟩, h11⟩
    exact ⟨⟨⟨⟨⟨⟨⟨⟨⟨⟨h1, h2⟩, h3⟩, h4⟩, h5⟩, h6⟩, h7⟩, h8⟩, h9⟩, h10⟩, h11⟩

theorem rmatch_eq {admits : List UInt8 → Bool} {pattern : RegularExpression ℕ}
    (h : SameStrings admits pattern) (s : List Char) : pattern.rmatch (utf16 s) = admits (utf8 s) := by
  rw [Bool.eq_iff_iff, h.1]
  constructor
  · exact fun hmatch => ⟨s, rfl, hmatch⟩
  · rintro ⟨t, ht, hmatch⟩
    rwa [utf8_injective ht]

theorem typedDigest_eq_some {objectType version digest : List Char} {value : JsonValue} :
    typedDigest (utf16 objectType) (utf16 version) value = some digest ↔
      validDomainToken (utf8 objectType) = true ∧ validSchemaVersion (utf8 version) = true ∧
        digest = hexDigest (taggedBytes objectType version (utf8 (canonicalForm value))) := by
  rw [typedDigest, typedDigestInput, encodeText, encodeText, utf16DecodeLossy_utf16,
    utf16DecodeLossy_utf16, canonicalValue_eq, rmatch_eq sameStrings_domainToken,
    rmatch_eq sameStrings_schemaVersion]
  split_ifs with h
  · refine iff_of_false (fun h => by cases h) ?_
    rintro ⟨h1, h2, -⟩
    simp [h1, h2] at h
  · simp only [Bool.or_eq_true, Bool.not_eq_true', not_or, Bool.not_eq_false] at h
    rw [and_iff_right h.1, and_iff_right h.2]
    exact ⟨fun h => (Option.some.inj h).symm, fun h => congrArg some h.symm⟩

theorem strictParse_iff {w : Go.Tree} : strictParse (utf16 payload) = some w ↔ Denotes (utf8 payload) w := by
  rw [strictParse_eq_some]
  constructor
  · rintro ⟨htext, hdistinct⟩
    exact ⟨payload, rfl, htext, hdistinct⟩
  · rintro ⟨text, htext, htw, hdistinct⟩
    obtain rfl := utf8_injective htext
    exact ⟨htw, hdistinct⟩

theorem hasDigest_iff {objectType version digest : List Char} :
    HasDigest objectType version (utf8 payload) digest ↔ ∃ w, strictParse (utf16 payload) = some w ∧
      typedDigest (utf16 objectType) (utf16 version) w = some digest := by
  simp only [HasDigest, strictParse_iff, typedDigest_eq_some]
  constructor
  · rintro ⟨htype, hversion, w, hw, hdigest⟩
    exact ⟨w, hw, htype, hversion, hdigest⟩
  · rintro ⟨w, hw, htype, hversion, hdigest⟩
    exact ⟨htype, hversion, w, hw, hdigest⟩

end Digests

/-! ## The key of the claims -/

section Key

variable {registry : PublicKeyRegistry} {claims : SignatureClaims} {key : RegistryKey} {t : Go.Time}
  {envelope : SignatureEnvelope}

theorem all_parse_iff {text : Option (List Char)} {p : Go.Time → Bool} :
    (text.all fun s => (strictRFC3339Nanos (utf16 s)).any fun x => p (x + epoch)) = true ↔
      ∀ s, text = some s → ∃ u, Go.parseContractTime s = some u ∧ p u = true := by
  cases text with
  | none => simp
  | some s =>
    simp only [Option.all_some, Option.some.injEq, forall_eq']
    cases hparse : Go.parseContractTime s with
    | none =>
      rw [parse_eq_none.1 hparse]
      simp
    | some u =>
      rw [parse_eq_some.1 hparse]
      simp

/-- The instants of the claims against a key, which is not revoked. -/
theorem validInstants_iff (hrevoked : key.revokedAt = none) :
    validInstants claims key (t - epoch) = true ↔ ∃ issuedAt,
      Go.parseContractTime claims.issuedAt = some issuedAt ∧ issuedAt ≤ t ∧
      (∀ text, claims.expiresAt = some text →
        ∃ u, Go.parseContractTime text = some u ∧ issuedAt ≤ u ∧ t ≤ u) ∧
      ∃ validFrom validUntil, Go.parseContractTime key.validFrom = some validFrom ∧
        Go.parseContractTime key.validUntil = some validUntil ∧ validFrom ≤ issuedAt ∧ t ≤ validUntil := by
  unfold validInstants
  cases hissued : Go.parseContractTime claims.issuedAt with
  | none =>
    rw [parse_eq_none.1 hissued]
    exact iff_of_false Bool.false_ne_true (by simp)
  | some issuedAt =>
  cases hfrom : Go.parseContractTime key.validFrom with
  | none =>
    rw [parse_eq_none.1 hfrom, parse_eq_some.1 hissued]
    exact iff_of_false Bool.false_ne_true (by simp)
  | some validFrom =>
  cases huntil : Go.parseContractTime key.validUntil with
  | none =>
    rw [parse_eq_none.1 huntil, parse_eq_some.1 hissued, parse_eq_some.1 hfrom]
    exact iff_of_false Bool.false_ne_true (by simp)
  | some validUntil =>
  have hexpiry := @all_parse_iff claims.expiresAt fun u => !(u < issuedAt) && !(u < t)
  simp only [Bool.and_eq_true, Bool.not_eq_true', decide_eq_false_iff_not, not_lt] at hexpiry
  have hshift (x y : ℤ) : (x < y - epoch) = (x + epoch < y) := propext lt_sub_iff_add_lt
  rw [parse_eq_some.1 hissued, parse_eq_some.1 hfrom, parse_eq_some.1 huntil, hrevoked]
  simp only [hshift, sub_add_cancel, Bool.and_eq_true, Bool.not_eq_true', Bool.or_eq_false_iff,
    decide_eq_false_iff_not, not_lt, Option.all_none, and_true, hexpiry, Option.some.injEq,
    exists_and_left, exists_eq_left']
  constructor
  · rintro ⟨⟨⟨⟨h1, h2⟩, -⟩, -, h5⟩, h6⟩
    exact ⟨h1, h6, h2, h5⟩
  · rintro ⟨h1, h6, h2, h5⟩
    exact ⟨⟨⟨⟨h1, h2⟩, h1.trans h5⟩, h2.trans h1, h5⟩, h6⟩

theorem base64Bytes_text {s : List Char} {bytes : List UInt8} :
    base64Bytes (utf16 s) = some bytes ↔ s = Base64.text bytes := by
  rw [base64Bytes_eq_some, ← map_toNat_text, ← utf16_map_toNat (text_ascii bytes)]
  exact utf16_injective.eq_iff

theorem validSignature_iff (halike : ReadAlike lib subtle key.publicKeyPem) {publicKey : PublicKey ε ρ}
    (hparse : parsePublicKey lib key.publicKeyPem = .ok publicKey)
    (hsuits : Suits publicKey claims.algorithm) {signatureBase64 : List Char} :
    validSignature subtle claims key signatureBase64 = true ↔
      ∃ signature, signatureBase64 = Base64.text signature ∧
        Verifies lib publicKey (Sha256.sha256 (claimsBytes claims)) signature := by
  have hbytes : utf8 (canonicalValue claims.json) = claimsBytes claims :=
    congrArg utf8 (canonicalValue_eq _)
  have hdiffer : algorithmRSAPSSSHA256 ≠ algorithmECDSAP256SHA256 := by decide
  unfold validSignature
  rw [hbytes, show "ECDSA_P256_SHA256".toList = algorithmECDSAP256SHA256 from rfl,
    show "RSA_PSS_SHA256".toList = algorithmRSAPSSSHA256 from rfl]
  cases hdecode : base64Bytes (utf16 signatureBase64) with
  | none =>
    refine iff_of_false Bool.false_ne_true ?_
    rintro ⟨signature, htext, -⟩
    rw [base64Bytes_text.2 htext] at hdecode
    cases hdecode
  | some signature =>
    obtain rfl := base64Bytes_text.1 hdecode
    have hsame : (∃ other, Base64.text signature = Base64.text other ∧
        Verifies lib publicKey (Sha256.sha256 (claimsBytes claims)) other) ↔
        Verifies lib publicKey (Sha256.sha256 (claimsBytes claims)) signature := by
      constructor
      · rintro ⟨other, htext, hverifies⟩
        obtain rfl := Option.some.inj (hdecode.symm.trans (base64Bytes_text.2 htext))
        exact hverifies
      · exact fun hverifies => ⟨signature, rfl, hverifies⟩
    rw [hsame]
    dsimp only
    generalize halgorithm : claims.algorithm = algorithm at hsuits
    cases hsuits with
    | ecdsa k =>
      obtain ⟨k', himported⟩ := halike.ecdsa.1 ⟨k, hparse⟩
      have hverify := halike.verifyECDSA k k' _ (claimsBytes claims) signature hparse himported
      rw [if_pos rfl, himported]
      cases hraw : ecdsaDERToRaw signature with
      | none =>
        refine iff_of_false Bool.false_ne_true ?_
        rintro ⟨h⟩
        obtain ⟨raw, hsome, -⟩ := hverify.1 h
        rw [hraw] at hsome
        cases hsome
      | some raw =>
        rw [hraw] at hverify
        constructor
        · exact fun h => .ecdsa (hverify.2 ⟨raw, rfl, h⟩)
        · rintro ⟨h⟩
          obtain ⟨other, hother, h⟩ := hverify.1 h
          rwa [Option.some.inj hother]
    | rsa k hle =>
      obtain ⟨k', n, himported, -⟩ := halike.rsa.1 ⟨k, _, hparse, hle⟩
      have hverify := halike.verifyRSAPSS k _ k' _ (claimsBytes claims) signature hparse himported
      rw [if_neg hdiffer, if_neg (not_not.2 rfl), himported]
      constructor
      · exact fun h => .rsa (hverify.2 h)
      · intro h
        cases h with
        | rsa h => exact hverify.1 h

theorem includes_guard {items : Option (List (List Char))} {item : List Char} {rest : Option Bool} :
    ((includes items item).bind fun b => if !b then some false else rest) = some true ↔
      item ∈ items.getD [] ∧ rest = some true := by
  cases items with
  | none => simp [includes]
  | some items =>
    rw [includes, Option.map_some, Option.bind_some, guard_eq_some]
    simp

/-- The key of the claims is the one that speaks for them. -/
theorem validForKey_iff (hvalid : validateKeys lib [] registry.keys = .ok ())
    (halike : ∀ key ∈ registry.keys, ReadAlike lib subtle key.publicKeyPem) (hzero : t ≠ 0) :
    validForKey subtle envelope.claims envelope.signatureBase64 registry (t - epoch) = some true ↔
      Spoken lib envelope registry t := by
  have hnodup := (nodup_of_validateKeys hvalid).1
  have hissued : ¬ ((strictRFC3339Nanos (utf16 registry.issuedAt)).all
      fun issuedAt => t - epoch < issuedAt) = true ↔
        ∃ u, Go.parseContractTime registry.issuedAt = some u ∧ u ≤ t := by
    cases hparse : Go.parseContractTime registry.issuedAt with
    | none =>
      rw [parse_eq_none.1 hparse]
      simp
    | some u =>
      rw [parse_eq_some.1 hparse]
      simp
  unfold validForKey
  rw [guard_eq_some, hissued]
  constructor
  · rintro ⟨hregistry, h⟩
    cases hfind : registry.keys.find? fun candidate => candidate.kid = envelope.claims.kid with
    | none =>
      rw [hfind] at h
      cases h
    | some key =>
      have hkey := List.mem_of_find?_eq_some hfind
      have hkid : key.kid = envelope.claims.kid := by simpa using List.find?_some hfind
      rw [hfind] at h
      dsimp only [Option.bind_eq_bind] at h
      rw [guard_eq_some, includes_guard, includes_guard, guard_eq_some, guard_eq_some,
        Option.some.injEq] at h
      obtain ⟨hactive, hpurpose, henvironment, htenant, hinstants, hsignature⟩ := h
      simp only [Bool.or_eq_true, decide_eq_true_eq, not_or, not_not] at hactive htenant
      obtain ⟨hrevoked, publicKey, hparse, hsuits⟩ := active_of_validateKeys hvalid hkey hactive.1
      rw [Bool.not_eq_true', Bool.not_eq_false, validInstants_iff hrevoked] at hinstants
      obtain ⟨issuedAt, hissuedAt, hle, hexpiry, hinterval⟩ := hinstants
      rw [← hactive.2] at hsuits
      exact ⟨issuedAt, ⟨hissuedAt, hzero, hregistry, hle, hexpiry⟩, key, hkey, hkid,
        ⟨hactive.1, hactive.2.symm, hpurpose, henvironment, htenant, hinterval⟩, publicKey, hparse,
        (validSignature_iff (halike key hkey) hparse hsuits).1 hsignature⟩
  · rintro ⟨issuedAt, htimely, key, hkey, hkid, heligible, publicKey, hparse, hsigned⟩
    obtain ⟨hrevoked, publicKey', hparse', hsuits⟩ :=
      active_of_validateKeys hvalid hkey heligible.active
    obtain rfl := Except.ok.inj (hparse.symm.trans hparse')
    rw [heligible.algorithm] at hsuits
    refine ⟨htimely.registry, ?_⟩
    obtain ⟨found, hfind⟩ : ∃ found, (registry.keys.find? fun candidate =>
        candidate.kid = envelope.claims.kid) = some found :=
      Option.isSome_iff_exists.1 (List.find?_isSome.2 ⟨key, hkey, decide_eq_true hkid⟩)
    have hfound : found.kid = envelope.claims.kid := by simpa using List.find?_some hfind
    obtain rfl := eq_of_kid hnodup hkey (List.mem_of_find?_eq_some hfind) (hfound.trans hkid.symm)
    rw [hfind]
    dsimp only [Option.bind_eq_bind]
    rw [guard_eq_some, includes_guard, includes_guard, guard_eq_some, guard_eq_some, Option.some.injEq]
    refine ⟨?_, heligible.purpose, heligible.environment, not_not.2 heligible.tenantScope, ?_,
      (validSignature_iff (halike _ hkey) hparse hsuits).2 hsigned⟩
    · simp only [Bool.or_eq_true, decide_eq_true_eq, not_or, not_not]
      exact ⟨heligible.active, heligible.algorithm.symm⟩
    · rw [Bool.not_eq_true', Bool.not_eq_false, validInstants_iff hrevoked]
      exact ⟨issuedAt, htimely.issued, htimely.le, htimely.unexpired, heligible.interval⟩

end Key

/-! ## Agreement -/

section Agreement

variable {registry : PublicKeyRegistry} {order : List (List Char)} {payload : List Char}
  {envelope : SignatureEnvelope} {expected : VerifyExpectation} {time : ℤ}

/-! A registry with a key text that both sides read. -/

def samplePem : List Char := "-----BEGIN PUBLIC KEY-----\nAAAA\n-----END PUBLIC KEY-----".toList

/-- A library that verifies whatever is a signature of two integers. -/
def derLibrary : Primitives Unit Unit :=
  { sampleLibrary with verifyASN1 := fun _ _ signature => (ecdsaDERToRaw signature).isSome }

def sampleSubtle : Subtle Unit where
  importECDSA _ := some ((), "ECDSA".toList, "P-256".toList)
  importRSAPSS _ := none
  verifyECDSA _ _ _ := true
  verifyRSAPSS _ _ _ := false

def pemRegistry : PublicKeyRegistry :=
  { signingRegistry with keys := [{ signingKey with publicKeyPem := samplePem }] }

def sampleExpectation : VerifyExpectation where
  objectType := "o".toList
  objectSchemaID := "s".toList
  objectSchemaVersion := "1.0.0".toList
  purpose := "p".toList
  environment := "e".toList
  tenantScope := none
  migrationScope := none
  registryHash := hexDigest (registryBytes pemRegistry)
  getTime := some 1784336400000

theorem readAlike_samplePem : ReadAlike derLibrary sampleSubtle samplePem := by
  obtain ⟨der, hder⟩ : ∃ der, publicKeyDER (utf16 samplePem) = some der :=
    Option.isSome_iff_exists.1 (by decide)
  have hparse : parsePublicKey derLibrary samplePem = .ok (.ecdsa () "P-256".toList) := rfl
  refine ⟨iff_of_true ⟨(), hparse⟩ ⟨(), by rw [hder]; rfl⟩, ?_, ?_, ?_⟩
  · refine iff_of_false ?_ ?_
    · rintro ⟨k, n, h, -⟩
      rw [hparse] at h
      cases h
    · rintro ⟨k, n, h, -⟩
      rw [hder] at h
      cases h
  · intro k k' names data signature _ _
    exact Option.isSome_iff_exists.trans (exists_congr fun raw => (and_iff_left rfl).symm)
  · intro k n k' names data signature h
    rw [hparse] at h
    cases h

end Agreement

end Client
