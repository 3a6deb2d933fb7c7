import Jumpship.Canonical.Identity
import Jumpship.Proofs.TypedDigest
import Jumpship.Proofs.Unmarshal

/-!
# What a content identity proves

`VerifyContentIdentity` on the value a document denotes.
-/

namespace Canonical

open Go JsonText Unicode

/-! ## Canonical text read back -/

section Unmarshal

theorem lookup_eq_of_perm {α : Type} {ms ns : List (List Char × α)} (h : ms.Perm ns)
    (hnd : (Json.names ms).Nodup) (k : List Char) : ms.lookup k = ns.lookup k := by
  have hnd' : (Json.names ns).Nodup := (h.map Prod.fst).nodup_iff.1 hnd
  refine Option.ext fun v => ?_
  rw [Json.lookup_eq_some hnd, Json.lookup_eq_some hnd', h.mem_iff]

theorem lookup_mapValues {α β : Type} (f : α → β) (ms : List (List Char × α)) (k : List Char) :
    (ms.map fun m => (m.1, f m.2)).lookup k = (ms.lookup k).map f := by
  induction ms with
  | nil => rfl
  | cons m ms ih =>
    rw [List.map_cons, Json.lookup_cons_eq, Json.lookup_cons_eq, ih]
    split_ifs <;> rfl

/-- The members of an object in canonical order. -/
def sortedMembers (ms : Members) : Members :=
  Json.sortByName KeyLE (ms.map fun m => (m.1, m.2.sortMembers KeyLE))

theorem sortMembers_eq (ms : Members) :
    (Json.obj ms).sortMembers KeyLE = .obj (sortedMembers ms) := Json.sortMembers_obj _ ms

theorem perm_sortedMembers (ms : Members) :
    (sortedMembers ms).Perm (ms.map fun m => (m.1, m.2.sortMembers KeyLE)) :=
  Json.perm_sortByName _ _

theorem perm_names_sortedMembers (ms : Members) :
    (Json.names (sortedMembers ms)).Perm (Json.names ms) := by
  rw [← Json.names_sortMembers KeyLE ms]
  exact Json.perm_names_sortByName _ _

theorem lookup_sortedMembers {ms : Members} (hnd : (Json.names ms).Nodup) (k : List Char) :
    (sortedMembers ms).lookup k = (ms.lookup k).map (Json.sortMembers KeyLE) := by
  rw [lookup_eq_of_perm (perm_sortedMembers ms)
    ((perm_names_sortedMembers ms).nodup_iff.2 hnd), lookup_mapValues]

theorem depthList_eq (xs : List Tree) : depthList xs = (xs.map depth).foldr max 0 := by
  induction xs with
  | nil => rfl
  | cons x xs ih => rw [depthList, ih, List.map_cons, List.foldr_cons]

theorem depthMembers_eq (ms : Members) :
    depthMembers ms = (ms.map fun m => depth m.2).foldr max 0 := by
  induction ms with
  | nil => rfl
  | cons m ms ih => rw [depthMembers, ih, List.map_cons, List.foldr_cons]

theorem depth_sortMembers (v : Tree) : depth (v.sortMembers KeyLE) = depth v := by
  induction v using Json.induct with
  | null | bool b | num n | str s => rfl
  | arr xs ih =>
    rw [Json.sortMembers_arr, depth, depth, depthList_eq, depthList_eq, List.map_map]
    exact congrArg (List.foldr max 0 · + 1) (List.map_congr_left ih)
  | obj ms ih =>
    rw [sortMembers_eq, depth, depth, depthMembers_eq, depthMembers_eq]
    have hperm := (perm_sortedMembers ms).map fun m => depth m.2
    rw [List.map_map] at hperm
    rw [hperm.foldr_eq]
    exact congrArg (List.foldr max 0 · + 1) (List.map_congr_left ih)

/-- Canonical text reads back as the value with its members in order, if it nests no deeper than
`encoding/json` allows. -/
theorem unmarshal_canonicalForm {w : Tree} (hw : w.Distinct) :
    unmarshal (utf8 (canonicalForm w))
      = if maxNestingDepth < depth w then none else some (w.sortMembers KeyLE) := by
  obtain ⟨v, hv, hmap⟩ := text_literal_iff.1 (text_canonicalForm w)
  have hdist : v.Distinct :=
    (Json.distinct_mapNum v _ hmap).1 ((Json.distinct_sortMembers KeyLE w).2 hw)
  have hdec := decodeText_eq_some.2 ⟨decodedOf_of_text hv, hdist⟩
  unfold decodeText at hdec
  rw [unmarshal, utf8Decode_utf8, Option.bind_eq_bind, Option.bind_some]
  rcases hvalue : decodeValue ((canonicalForm w).length + 1) (newDecoder (canonicalForm w))
    with e | ⟨value, d⟩
  · rw [hvalue] at hdec
    cases hdec
  · rw [hvalue] at hdec
    dsimp only at hdec ⊢
    split_ifs at hdec with hend
    obtain rfl := Option.some.inj hdec
    rw [if_neg hend, hmap]
    show (if maxNestingDepth < depth (w.sortMembers KeyLE) then none else some _) = _
    rw [depth_sortMembers]

theorem escapes_htmlEscape : Escapes htmlEscape := by
  intro c t us r h
  unfold htmlEscape
  split_ifs with hc
  · have hlt : c.toNat < 0x10000 := by
      rcases hc with rfl | rfl | rfl | hc | hc
      · decide
      · decide
      · decide
      · omega
      · omega
    have hunit : utf16Char c = [c.toNat] := if_pos hlt
    rw [hunit]
    exact .unicode (hex4_eq_some.2 ⟨_, _, _, _, hexDigit?_digit (by omega),
      hexDigit?_digit (by omega), hexDigit?_digit (by omega), hexDigit?_digit (by omega),
      by omega⟩) h
  · exact escapes_appendRune h

/-- Canonicalizing an object that `json.Marshal` wrote gives its canonical form. -/
theorem canonicalizeJSON_marshalMap {ms : Members} (h : (Json.obj ms).Distinct) :
    canonicalizeJSON (marshalMap ms) = .ok (utf8 (canonicalForm (.obj ms))) := by
  have hperm := Json.perm_sortByName NameLE ms
  rw [Json.distinct_obj] at h
  have hnd : (Json.names (Json.sortByName NameLE ms)).Nodup :=
    (Json.perm_names_sortByName NameLE ms).nodup_iff.2 h.1
  have hdist : (Json.obj (Json.sortByName NameLE ms)).Distinct :=
    Json.distinct_obj.2 ⟨hnd, fun m hm => h.2 m (hperm.mem_iff.1 hm)⟩
  refine canonicalizeJSON_eq_ok.2 ⟨_, ⟨_, rfl,
    text_write escapes_htmlEscape numberOf_numberText _, hdist⟩, ?_⟩
  congr 1
  refine canonicalForm_of_sorted ?_
  rw [Json.sortMembers_obj, Json.sortMembers_obj]
  refine congrArg Json.obj (Json.sortByName_eq_of_perm KeyLE ?_ (hperm.symm.map _))
  rw [Json.names_sortMembers]
  exact h.1

/-- A text of a value. -/
def documentOf (v : Tree) : List UInt8 := utf8 (write appendRune numberText v)

theorem denotes_documentOf {v : Tree} (h : v.Distinct) : Denotes (documentOf v) v :=
  ⟨_, rfl, text_write escapes_appendRune numberOf_numberText v, h⟩

end Unmarshal

/-! ## The checks of a projection -/

section Projection

theorem bind_eq_ok {ε α β : Type} {x : Except ε α} {f : α → Except ε β} {b : β} :
    x >>= f = .ok b ↔ ∃ a, x = .ok a ∧ f a = .ok b := by
  cases x with
  | error e => exact ⟨fun h => (by cases h), fun ⟨a, ha, _⟩ => (by cases ha)⟩
  | ok a =>
    refine ⟨fun h => ⟨a, rfl, h⟩, fun ⟨a', ha, h⟩ => ?_⟩
    rw [Except.ok.inj ha]
    exact h

theorem bind_unit_eq_ok {ε β : Type} {x : Except ε Unit} {f : Unit → Except ε β} {b : β} :
    x >>= f = .ok b ↔ x = .ok () ∧ f () = .ok b :=
  bind_eq_ok.trans ⟨fun ⟨_, h⟩ => h, fun h => ⟨(), h⟩⟩

theorem excludeFields_eq_ok : ∀ {fields excluded result : List (List Char)},
    excludeFields excluded fields = .ok result ↔ [] ∉ fields ∧ fields.Nodup ∧
      (∀ f ∈ fields, f ∉ excluded) ∧ result = excluded ++ fields
  | [], excluded, result => by simp [excludeFields, eq_comm]
  | field :: fields, excluded, result => by
    rw [excludeFields]
    by_cases hempty : field = []
    · simp [hempty]
    by_cases hdup : field ∈ excluded
    · simp [hempty, hdup]
    rw [if_neg hempty, if_neg hdup, excludeFields_eq_ok]
    simp only [List.mem_cons, List.nodup_cons, List.mem_append, List.append_assoc,
      List.singleton_append, not_or, forall_eq_or_imp, List.not_mem_nil, or_false]
    constructor
    · rintro ⟨hne, hnodup, hfresh, rfl⟩
      exact ⟨⟨Ne.symm hempty, hne⟩, ⟨fun hf => (hfresh field hf).2 rfl, hnodup⟩,
        ⟨hdup, fun f hf => (hfresh f hf).1⟩, rfl⟩
    · rintro ⟨⟨-, hne⟩, ⟨hfield, hnodup⟩, ⟨-, hfresh⟩, rfl⟩
      exact ⟨hne, hnodup, fun f hf => ⟨hfresh f hf, ne_of_mem_of_not_mem hf hfield⟩, rfl⟩

theorem requireExcluded_eq_ok {excluded : List (List Char)} : ∀ {fields : List (List Char)},
    requireExcluded excluded fields = .ok () ↔ ∀ f ∈ fields, f ∈ excluded
  | [] => by simp [requireExcluded]
  | field :: fields => by
    rw [requireExcluded]
    by_cases h : field ∈ excluded
    · rw [if_neg (not_not.2 h), requireExcluded_eq_ok]
      simp [h]
    · rw [if_pos h]
      simp [h]

theorem checkEquivalents_eq_ok {excluded : List (List Char)} :
    ∀ {fields equivalent : List (List Char)},
      checkEquivalents excluded equivalent fields = .ok () ↔ [] ∉ fields ∧ fields.Nodup ∧
        (∀ f ∈ fields, f ∉ equivalent) ∧ ∀ f ∈ fields, f ∈ excluded
  | [], equivalent => by simp [checkEquivalents]
  | field :: fields, equivalent => by
    rw [checkEquivalents]
    by_cases hempty : field = []
    · simp [hempty]
    by_cases hdup : field ∈ equivalent
    · simp [hempty, hdup]
    by_cases hexcluded : field ∈ excluded
    · rw [if_neg hempty, if_neg hdup, if_neg (not_not.2 hexcluded), checkEquivalents_eq_ok]
      simp only [List.mem_cons, List.nodup_cons, List.mem_append, not_or, forall_eq_or_imp,
        List.not_mem_nil, or_false]
      constructor
      · rintro ⟨hne, hnodup, hfresh, hall⟩
        exact ⟨⟨Ne.symm hempty, hne⟩, ⟨fun hf => (hfresh field hf).2 rfl, hnodup⟩,
          ⟨hdup, fun f hf => (hfresh f hf).1⟩, hexcluded, hall⟩
      · rintro ⟨⟨-, hne⟩, ⟨hfield, hnodup⟩, ⟨-, hfresh⟩, -, hall⟩
        exact ⟨hne, hnodup, fun f hf => ⟨hfresh f hf, ne_of_mem_of_not_mem hf hfield⟩, hall⟩
    · simp [hempty, hdup, hexcluded]

theorem isSHA256Hex_iff {value : List Char} :
    isSHA256Hex value = true ↔ ∃ hash : List UInt8, hash.length = 32 ∧
      value = Hex.encodeToString hash := by
  unfold isSHA256Hex
  constructor
  · intro h
    split at h
    · cases h
    · rename_i decoded _
      rw [Bool.and_eq_true, decide_eq_true_eq, decide_eq_true_eq] at h
      exact ⟨decoded, h⟩
  · rintro ⟨hash, hlen, rfl⟩
    rw [Hex.decodeString_encodeToString]
    simp [hlen]

theorem checkDigests_eq_ok {object : Members} {digest : List Char}
    (hdigest : isSHA256Hex digest = true) : ∀ {fields : List (List Char)},
    checkDigests object digest fields = .ok () ↔
      ∀ f ∈ fields, object.lookup f = some (.str digest)
  | [] => by simp [checkDigests]
  | field :: fields => by
    rw [checkDigests, List.forall_mem_cons]
    have hempty : isSHA256Hex [] = false := by decide
    cases hlookup : object.lookup field with
    | none => simp
    | some raw =>
      cases raw with
      | str value =>
        dsimp only [decodeString]
        by_cases hvalue : value = digest
        · subst hvalue
          rw [hdigest]
          simpa using checkDigests_eq_ok hdigest
        · simp [hvalue]
      | null => simp [decodeString, hempty]
      | bool b => simp [decodeString]
      | num n => simp [decodeString]
      | arr xs => simp [decodeString]
      | obj ms => simp [decodeString]

/-- What the verifier asks of a projection before it hashes. -/
structure Declares (p : LogicalPayloadProjection) : Prop where
  encoder : p.canonicalEncoder = "RFC8785_JCS".toList
  encoding : p.idEncoding = "lowercase_hex_sha256".toList
  flag : p.idEqualsLogicalPayloadSHA256 = true
  separator : p.domainSeparator = domainSeparator p.objectType p.objectSchemaVersion
  excluded_ne : [] ∉ p.excludedFields.elems
  excluded_nodup : p.excludedFields.elems.Nodup
  excludes : ∀ f ∈ [p.idField, logicalPayloadSHA256, logicalPayloadProjection],
    f ∈ p.excludedFields.elems
  equivalent_ne : [] ∉ p.equivalentDigestFields.elems
  equivalent_nodup : p.equivalentDigestFields.elems.Nodup
  equivalent_excluded : ∀ f ∈ p.equivalentDigestFields.elems, f ∈ p.excludedFields.elems

/-- The fields that hold the digest. -/
def LogicalPayloadProjection.digestFields (p : LogicalPayloadProjection) : List (List Char) :=
  p.idField :: logicalPayloadSHA256 :: p.equivalentDigestFields.elems

theorem isSHA256Hex_of_digest {objectType version payload : List UInt8} {digest : List Char}
    (h : typedDigestHex objectType version payload = .ok digest) : isSHA256Hex digest = true := by
  rw [typedDigestHex, typedDigest] at h
  rcases hinput : typedDigestInput objectType version payload with e | input
  · rw [hinput] at h
    cases h
  · rw [hinput] at h
    rw [← Except.ok.inj h]
    exact isSHA256Hex_iff.2 ⟨_, Sha256.length_sha256 _, rfl⟩

theorem verifyProjected_eq_ok {object : Members} {p : LogicalPayloadProjection} :
    verifyProjected object p = .ok () ↔ Declares p ∧ ∃ digest,
      typedDigestHex (utf8 p.objectType) (utf8 p.objectSchemaVersion) (marshalMap (p.payload object))
        = .ok digest ∧ ∀ f ∈ p.digestFields, object.lookup f = some (.str digest) := by
  unfold verifyProjected
  split_ifs with hstatic hid
  · simp only [Bool.or_eq_true, decide_eq_true_eq, Bool.not_eq_true', ne_eq] at hstatic
    refine iff_of_false (by simp) ?_
    rintro ⟨h, -⟩
    rcases hstatic with ((h1 | h1) | h1) | h1
    · exact h1 h.encoder
    · exact h1 h.encoding
    · rw [h.flag] at h1
      cases h1
    · exact h1 h.separator
  · refine iff_of_false (by simp) ?_
    rintro ⟨h, -⟩
    exact h.excluded_ne (hid ▸ h.excludes p.idField (by simp))
  · simp only [Bool.or_eq_true, decide_eq_true_eq, Bool.not_eq_true', ne_eq, not_or, not_not,
      Bool.not_eq_false] at hstatic
    obtain ⟨⟨⟨hencoder, hencoding⟩, hflag⟩, hseparator⟩ := hstatic
    rw [bind_eq_ok]
    simp only [excludeFields_eq_ok, bind_unit_eq_ok, requireExcluded_eq_ok, checkEquivalents_eq_ok]
    constructor
    · rintro ⟨excluded, ⟨hne, hnodup, -, hexcluded⟩, hrequired, ⟨hene, henodup, -, hall⟩, h⟩
      rw [List.nil_append] at hexcluded
      subst hexcluded
      refine ⟨⟨hencoder, hencoding, hflag, hseparator, hne, hnodup, hrequired, hene, henodup, hall⟩,
        ?_⟩
      split at h
      · cases h
      · rename_i digest hdigest
        exact ⟨digest, hdigest, (checkDigests_eq_ok (isSHA256Hex_of_digest hdigest)).1 h⟩
    · rintro ⟨h, digest, hdigest, hfields⟩
      refine ⟨_, ⟨h.excluded_ne, h.excluded_nodup, by simp, rfl⟩, h.excludes,
        ⟨h.equivalent_ne, h.equivalent_nodup, by simp, h.equivalent_excluded⟩, ?_⟩
      rw [LogicalPayloadProjection.payload] at hdigest
      rw [List.nil_append, hdigest]
      exact (checkDigests_eq_ok (isSHA256Hex_of_digest hdigest)).2 hfields

end Projection

/-! ## Accepted documents -/

section Accepted

theorem verifyContentIdentity_eq_ok {document : List UInt8} :
    verifyContentIdentity document = .ok () ↔ ∃ ms raw p, Denotes document (.obj ms) ∧
      depth (.obj ms) ≤ maxNestingDepth ∧
      (sortedMembers ms).lookup logicalPayloadProjection = some raw ∧
      decodeStruct projectionFields false raw .zero = some p ∧
      verifyProjected (sortedMembers ms) p = .ok () := by
  unfold verifyContentIdentity
  constructor
  · intro h
    split at h
    · cases h
    rename_i canonical hcanonical
    obtain ⟨w, hw, rfl⟩ := canonicalizeJSON_eq_ok.1 hcanonical
    rw [unmarshal_canonicalForm hw.distinct] at h
    split_ifs at h with hdepth
    · cases h
    rw [Option.bind_some] at h
    cases w with
    | obj ms =>
      rw [sortMembers_eq, decodeMap] at h
      dsimp only at h
      split at h
      · cases h
      rename_i raw hraw
      split at h
      · cases h
      rename_i p hp
      exact ⟨ms, raw, p, hw, not_lt.1 hdepth, hraw, hp, h⟩
    | null => cases h
    | bool b => cases h
    | num n => cases h
    | str s => cases h
    | arr xs =>
      rw [Json.sortMembers_arr] at h
      cases h
  · rintro ⟨ms, raw, p, hms, hdepth, hraw, hp, h⟩
    rw [canonicalizeJSON_eq_ok.2 ⟨_, hms, rfl⟩]
    dsimp only
    rw [unmarshal_canonicalForm hms.distinct, if_neg (not_lt.2 hdepth), Option.bind_some,
      sortMembers_eq, decodeMap]
    dsimp only
    rw [hraw]
    dsimp only
    rw [hp]
    exact h

theorem verifyContentIdentity_canonical {document canonical : List UInt8}
    (h : canonicalizeJSON document = .ok canonical) :
    verifyContentIdentity canonical = verifyContentIdentity document := by
  unfold verifyContentIdentity
  rw [canonicalizeJSON_fixed h, h]

theorem distinct_sortedMembers {ms : Members} (h : (Json.obj ms).Distinct) :
    (Json.obj (sortedMembers ms)).Distinct := by
  rw [← sortMembers_eq]
  exact (Json.distinct_sortMembers KeyLE _).2 h

theorem distinct_payload {ms : Members} (h : (Json.obj ms).Distinct)
    (p : LogicalPayloadProjection) : (Json.obj (p.payload ms)).Distinct := by
  rw [Json.distinct_obj] at h ⊢
  exact ⟨h.1.sublist (List.filter_sublist.map _), fun m hm => h.2 m (List.mem_of_mem_filter hm)⟩

/-- The bytes hashed for an object under a projection. -/
def hashedBytes (p : LogicalPayloadProjection) (object : Members) : List UInt8 :=
  ascii "jumpship:" ++ utf8 p.objectType ++ ascii ":" ++ utf8 p.objectSchemaVersion ++ [0] ++
    utf8 (canonicalForm (.obj (p.payload object)))

/-- The digest of a payload, by the bytes it hashes. -/
theorem typedDigestHex_payload {p : LogicalPayloadProjection} {object : Members}
    {payload : List UInt8}
    (hpayload : canonicalizeJSON payload = .ok (utf8 (canonicalForm (.obj (p.payload object)))))
    {digest : List Char} :
    typedDigestHex (utf8 p.objectType) (utf8 p.objectSchemaVersion) payload = .ok digest ↔
      validDomainToken (utf8 p.objectType) = true ∧
        validSchemaVersion (utf8 p.objectSchemaVersion) = true ∧
        digest = Hex.encodeToString (Sha256.sha256 (hashedBytes p object)) := by
  have hinput : ∀ {hashed}, typedDigestInput (utf8 p.objectType) (utf8 p.objectSchemaVersion)
      payload = .ok hashed ↔ validDomainToken (utf8 p.objectType) = true ∧
        validSchemaVersion (utf8 p.objectSchemaVersion) = true ∧ hashed = hashedBytes p object := by
    intro hashed
    rw [typedDigestInput_eq_ok, hpayload]
    simp [hashedBytes]
  rw [typedDigestHex, typedDigest]
  rcases h : typedDigestInput (utf8 p.objectType) (utf8 p.objectSchemaVersion) payload
    with e | hashed
  · refine iff_of_false (by simp [Except.map]) ?_
    rintro ⟨htype, hversion, -⟩
    rw [hinput.2 ⟨htype, hversion, rfl⟩] at h
    cases h
  · obtain ⟨htype, hversion, rfl⟩ := hinput.1 h
    simp [Except.map, htype, hversion, eq_comm]

/-- The digest of an object under a projection. -/
def LogicalPayloadProjection.digest (p : LogicalPayloadProjection) (object : Members) :
    List Char :=
  Hex.encodeToString (Sha256.sha256 (hashedBytes p object))

/-- What is hashed does not depend on the order of the members. -/
theorem hashedBytes_sortedMembers {ms : Members} (h : (Json.obj ms).Distinct)
    (p : LogicalPayloadProjection) : hashedBytes p (sortedMembers ms) = hashedBytes p ms := by
  rw [hashedBytes, hashedBytes]
  refine congrArg (fun form => _ ++ utf8 form) (canonicalForm_of_sorted ?_)
  have hfilter : ((ms.map fun m => (m.1, m.2.sortMembers KeyLE)).filter
      fun m => decide (m.1 ∉ p.excludedFields.elems))
        = (p.payload ms).map fun m => (m.1, m.2.sortMembers KeyLE) := List.filter_map
  have hperm := (perm_sortedMembers ms).filter fun m => decide (m.1 ∉ p.excludedFields.elems)
  rw [hfilter] at hperm
  have hdistinct := distinct_payload (distinct_sortedMembers h) p
  rw [Json.distinct_obj] at hdistinct
  rw [Json.sortMembers_obj, Json.sortMembers_obj]
  refine congrArg Json.obj (Json.sortByName_eq_of_perm KeyLE ?_ ?_)
  · rw [Json.names_sortMembers]
    exact hdistinct.1
  refine (hperm.map fun m => (m.1, m.2.sortMembers KeyLE)).trans (List.Perm.of_eq ?_)
  rw [List.map_map]
  refine List.map_congr_left fun m hm => ?_
  have hvalue := (Json.distinct_obj.1 (distinct_payload h p)).2 m hm
  exact Prod.ext rfl (Json.sortMembers_sortMembers KeyLE m.2 hvalue)

theorem lookup_payload (p : LogicalPayloadProjection) (ms : Members) (k : List Char) :
    (p.payload ms).lookup k = if k ∈ p.excludedFields.elems then none else ms.lookup k := by
  induction ms with
  | nil => simp [LogicalPayloadProjection.payload]
  | cons m ms ih =>
    have hstep : p.payload (m :: ms)
        = if m.1 ∈ p.excludedFields.elems then p.payload ms else m :: p.payload ms := by
      by_cases hm : m.1 ∈ p.excludedFields.elems <;> simp [LogicalPayloadProjection.payload, hm]
    rw [hstep, Json.lookup_cons_eq]
    by_cases hm : m.1 ∈ p.excludedFields.elems
    · rw [if_pos hm, ih]
      by_cases hk : k = m.1
      · rw [hk, if_pos hm, if_pos hm]
      · rw [if_neg hk]
    · rw [if_neg hm, Json.lookup_cons_eq, ih]
      by_cases hk : k = m.1
      · rw [if_pos hk, if_pos hk, if_neg (hk ▸ hm)]
      · rw [if_neg hk, if_neg hk]

/-- The same bytes are hashed for two objects when they agree on every member not excluded. -/
theorem hashedBytes_eq_iff {ms ns : Members} (hms : (Json.obj ms).Distinct)
    (hns : (Json.obj ns).Distinct) (p : LogicalPayloadProjection) :
    hashedBytes p ms = hashedBytes p ns ↔
      ∀ k ∉ p.excludedFields.elems, Option.Rel Json.Same (ms.lookup k) (ns.lookup k) := by
  have hpms := distinct_payload hms p
  have hpns := distinct_payload hns p
  rw [hashedBytes, hashedBytes, List.append_cancel_left_eq, utf8_injective.eq_iff,
    canonicalForm_eq_iff hpms hpns,
    Json.same_obj_iff (Json.distinct_obj.1 hpms).1 (Json.distinct_obj.1 hpns).1]
  refine forall_congr' fun k => ?_
  rw [lookup_payload, lookup_payload]
  by_cases hk : k ∈ p.excludedFields.elems <;> simp [hk]

theorem hashedBytes_congr {p q : LogicalPayloadProjection} (htype : p.objectType = q.objectType)
    (hversion : p.objectSchemaVersion = q.objectSchemaVersion)
    (hexcluded : p.excludedFields.elems = q.excludedFields.elems) (ms : Members) :
    hashedBytes p ms = hashedBytes q ms := by
  rw [hashedBytes, hashedBytes, LogicalPayloadProjection.payload,
    LogicalPayloadProjection.payload, htype, hversion, hexcluded]

theorem sortMembers_eq_str {v : Tree} {s : List Char} :
    v.sortMembers KeyLE = .str s ↔ v = .str s := by
  cases v with
  | arr xs => simp
  | obj ms => simp
  | null | bool b | num n | str t => rfl

theorem lookup_sortedMembers_str {ms : Members} (h : (Json.names ms).Nodup) {k s : List Char} :
    (sortedMembers ms).lookup k = some (.str s) ↔ ms.lookup k = some (.str s) := by
  rw [lookup_sortedMembers h, Option.map_eq_some_iff]
  simp [sortMembers_eq_str]

/-- A document is accepted when its digest fields hold the digest of its payload. -/
theorem verifyContentIdentity_iff {document : List UInt8} :
    verifyContentIdentity document = .ok () ↔ ∃ ms raw p, Denotes document (.obj ms) ∧
      depth (.obj ms) ≤ maxNestingDepth ∧ ms.lookup logicalPayloadProjection = some raw ∧
      decodeStruct projectionFields false (raw.sortMembers KeyLE) .zero = some p ∧ Declares p ∧
      validDomainToken (utf8 p.objectType) = true ∧
      validSchemaVersion (utf8 p.objectSchemaVersion) = true ∧
      ∀ f ∈ p.digestFields, ms.lookup f = some (.str (p.digest ms)) := by
  rw [verifyContentIdentity_eq_ok]
  constructor
  · rintro ⟨ms, raw, p, hms, hdepth, hraw, hp, hverified⟩
    have hnodup := (Json.distinct_obj.1 hms.distinct).1
    rw [lookup_sortedMembers hnodup] at hraw
    obtain ⟨raw', hraw', rfl⟩ := Option.map_eq_some_iff.1 hraw
    obtain ⟨hdeclares, digest, hdigest, hfields⟩ := verifyProjected_eq_ok.1 hverified
    obtain ⟨htype, hversion, rfl⟩ :=
      (typedDigestHex_payload (canonicalizeJSON_marshalMap
        (distinct_payload (distinct_sortedMembers hms.distinct) p))).1 hdigest
    rw [hashedBytes_sortedMembers hms.distinct] at hfields
    refine ⟨ms, raw', p, hms, hdepth, hraw', hp, hdeclares, htype, hversion, fun f hf => ?_⟩
    exact (lookup_sortedMembers_str hnodup).1 (hfields f hf)
  · rintro ⟨ms, raw, p, hms, hdepth, hraw, hp, hdeclares, htype, hversion, hfields⟩
    have hnodup := (Json.distinct_obj.1 hms.distinct).1
    refine ⟨ms, _, p, hms, hdepth, by rw [lookup_sortedMembers hnodup, hraw]; rfl, hp,
      verifyProjected_eq_ok.2 ⟨hdeclares, p.digest ms, ?_, fun f hf => ?_⟩⟩
    · refine (typedDigestHex_payload (canonicalizeJSON_marshalMap
        (distinct_payload (distinct_sortedMembers hms.distinct) p))).2 ⟨htype, hversion, ?_⟩
      rw [hashedBytes_sortedMembers hms.distinct]
      rfl
    · exact (lookup_sortedMembers_str hnodup).2 (hfields f hf)

end Accepted

end Canonical
