import Jumpship.Proofs.Identity

/-!
# A projection read by its exact names

Where no name of a projection differs from a field's in the case of letters only, what it is decoded
to is what stands under the names of the fields, and content identity is what the projection says.
-/

namespace Canonical

open Go JsonText Unicode

/-! ## Reading the members -/

section Members

variable {strict : Bool} {raw : Members} {p : LogicalPayloadProjection}

/-- What each field of a projection is decoded from. -/
structure ProjectionDecoded (raw : Members) (p : LogicalPayloadProjection) : Prop where
  objectType : MemberDecoded decodeString (raw.lookup "object_type".toList) [] p.objectType
  idField : MemberDecoded decodeString (raw.lookup "id_field".toList) [] p.idField
  objectSchemaVersion :
    MemberDecoded decodeString (raw.lookup "object_schema_version".toList) [] p.objectSchemaVersion
  canonicalEncoder :
    MemberDecoded decodeString (raw.lookup "canonical_encoder".toList) [] p.canonicalEncoder
  domainSeparator :
    MemberDecoded decodeString (raw.lookup "domain_separator".toList) [] p.domainSeparator
  excludedFields :
    MemberDecoded decodeStrings (raw.lookup "excluded_fields".toList) .nil p.excludedFields
  equivalentDigestFields : MemberDecoded decodeStrings
    (raw.lookup "equivalent_digest_fields".toList) .nil p.equivalentDigestFields
  idEncoding : MemberDecoded decodeString (raw.lookup "id_encoding".toList) [] p.idEncoding
  idEqualsLogicalPayloadSHA256 : MemberDecoded decodeBool
    (raw.lookup "id_equals_logical_payload_sha256".toList) false p.idEqualsLogicalPayloadSHA256

theorem projectionDecoded (hnodup : (Json.names raw).Nodup)
    (hplain : ∀ k ∈ Json.names raw, Plain projectionFields k)
    (h : decodeMembers projectionFields strict raw .zero = some p) : ProjectionDecoded raw p := by
  have hfields : (projectionFields.map StructField.name).Nodup := by decide
  have hunique : ∀ f ∈ projectionFields, ∀ g ∈ projectionFields, g.name = f.name → g = f :=
    fun f hf g hg heq => List.inj_on_of_nodup_map hfields hg hf heq
  have hmember : ∀ {α : Type} {name : String} {get : LogicalPayloadProjection → α}
      {set : LogicalPayloadProjection → α → LogicalPayloadProjection} {decode : Decoding α},
      field name get set decode ∈ projectionFields → (∀ s a, get (set s a) = a) →
      (∀ g ∈ projectionFields, g.name ≠ name → Preserves g get) →
      MemberDecoded decode (raw.lookup name.toList) (get .zero) (get p) :=
    fun hmem hget hothers =>
      decodeMembers_get hmem hget (hunique _ hmem) hothers hnodup hplain h
  constructor
  case objectType =>
    exact @hmember _ "object_type" (·.objectType) (fun p v => { p with objectType := v }) _
      (by simp [projectionFields]) (fun _ _ => rfl) (by simp [projectionFields, preserves_field])
  case idField =>
    exact @hmember _ "id_field" (·.idField) (fun p v => { p with idField := v }) _
      (by simp [projectionFields]) (fun _ _ => rfl) (by simp [projectionFields, preserves_field])
  case objectSchemaVersion =>
    exact @hmember _ "object_schema_version" (·.objectSchemaVersion)
      (fun p v => { p with objectSchemaVersion := v }) _
      (by simp [projectionFields]) (fun _ _ => rfl) (by simp [projectionFields, preserves_field])
  case canonicalEncoder =>
    exact @hmember _ "canonical_encoder" (·.canonicalEncoder)
      (fun p v => { p with canonicalEncoder := v }) _
      (by simp [projectionFields]) (fun _ _ => rfl) (by simp [projectionFields, preserves_field])
  case domainSeparator =>
    exact @hmember _ "domain_separator" (·.domainSeparator)
      (fun p v => { p with domainSeparator := v }) _
      (by simp [projectionFields]) (fun _ _ => rfl) (by simp [projectionFields, preserves_field])
  case excludedFields =>
    exact @hmember _ "excluded_fields" (·.excludedFields)
      (fun p v => { p with excludedFields := v }) _
      (by simp [projectionFields]) (fun _ _ => rfl) (by simp [projectionFields, preserves_field])
  case equivalentDigestFields =>
    exact @hmember _ "equivalent_digest_fields" (·.equivalentDigestFields)
      (fun p v => { p with equivalentDigestFields := v }) _
      (by simp [projectionFields]) (fun _ _ => rfl) (by simp [projectionFields, preserves_field])
  case idEncoding =>
    exact @hmember _ "id_encoding" (·.idEncoding) (fun p v => { p with idEncoding := v }) _
      (by simp [projectionFields]) (fun _ _ => rfl) (by simp [projectionFields, preserves_field])
  case idEqualsLogicalPayloadSHA256 =>
    exact @hmember _ "id_equals_logical_payload_sha256" (·.idEqualsLogicalPayloadSHA256)
      (fun p v => { p with idEqualsLogicalPayloadSHA256 := v }) _
      (by simp [projectionFields]) (fun _ _ => rfl) (by simp [projectionFields, preserves_field])

end Members

/-! ## What stands under a name -/

section Values

theorem memberDecoded_string {member : Option Tree} {s : List Char} (hs : s ≠ []) :
    MemberDecoded decodeString member [] s ↔ member = some (.str s) := by
  cases member with
  | none => simp [MemberDecoded, hs]
  | some v => cases v <;> simp [MemberDecoded, decodeString, hs.symm]

theorem memberDecoded_bool {member : Option Tree} :
    MemberDecoded decodeBool member false true ↔ member = some (.bool true) := by
  cases member with
  | none => simp [MemberDecoded]
  | some v => cases v <;> simp [MemberDecoded, decodeBool]

/-- Strings none of which is empty stand as themselves. -/
theorem mapM_decodeString {elems : List (List Char)} (hne : [] ∉ elems) : ∀ {xs : List Tree},
    xs.mapM (decodeString · []) = some elems ↔ xs = elems.map .str := by
  induction elems with
  | nil =>
    intro xs
    cases xs with
    | nil => simp
    | cons x xs => simp [List.mapM_cons, Option.bind_eq_some_iff]
  | cons s elems ih =>
    rw [List.mem_cons, not_or] at hne
    intro xs
    cases xs with
    | nil => simp
    | cons x xs =>
      have hhead : decodeString x [] = some s ↔ x = .str s := by
        cases x <;> simp [decodeString, hne.1]
      rw [List.mapM_cons, List.map_cons, List.cons.injEq, ← hhead, ← ih hne.2]
      simp [Option.bind_eq_some_iff]

theorem memberDecoded_strings {member : Option Tree} {s : Slice (List Char)}
    (hne : [] ∉ s.elems) (hs : s.elems ≠ []) (h : MemberDecoded decodeStrings member .nil s) :
    member = some (.arr (s.elems.map .str)) := by
  cases member with
  | none =>
    have hnil : s = .nil := h
    exact absurd (congrArg Slice.elems hnil) hs
  | some v =>
    obtain ⟨-, hnil⟩ | ⟨xs, rfl, hxs⟩ := decodeSlice_nil h
    · exact absurd (congrArg Slice.elems hnil) hs
    · rw [(mapM_decodeString hne).1 hxs]

theorem exists_decodeElements (elems : List (List Char)) : ∀ array : List (List Char),
    ∃ r, decodeElements [] decodeString (elems.map .str) array = some r := by
  induction elems with
  | nil => exact fun array => ⟨_, rfl⟩
  | cons s elems ih =>
    intro array
    obtain ⟨r, hr⟩ := ih array.tail
    rw [List.map_cons, decodeElements, hr]
    exact ⟨_, rfl⟩

theorem exists_decodeStrings (elems : List (List Char)) (s : Slice (List Char)) :
    ∃ s', decodeStrings (.arr (elems.map .str)) s = some s' := by
  cases elems with
  | nil => exact ⟨_, rfl⟩
  | cons t elems =>
    obtain ⟨r, hr⟩ := exists_decodeElements (t :: elems) (s.elems ++ s.spare)
    exact ⟨⟨r.1, r.2⟩, congrArg
      (Option.map fun p : List (List Char) × List (List Char) => Slice.mk p.1 p.2) hr⟩

theorem elems_of_decodeStrings {elems : List (List Char)} {s : Slice (List Char)}
    (hne : [] ∉ elems) (h : decodeStrings (.arr (elems.map .str)) .nil = some s) :
    s.elems = elems := by
  obtain ⟨hnull, -⟩ | ⟨xs, hxs, hmapM⟩ := decodeSlice_nil h
  · cases hnull
  · rw [← Json.arr.inj hxs, (mapM_decodeString hne).2 rfl] at hmapM
    exact (Option.some.inj hmapM).symm

theorem sortMembers_eq_strs {v : Tree} {elems : List (List Char)} :
    v.sortMembers KeyLE = .arr (elems.map .str) ↔ v = .arr (elems.map .str) := by
  cases v with
  | arr xs =>
    rw [Json.sortMembers_arr, Json.arr.injEq, Json.arr.injEq]
    induction xs generalizing elems with
    | nil => rfl
    | cons x xs ih =>
      cases elems with
      | nil => simp
      | cons s elems =>
        rw [List.map_cons, List.map_cons, List.cons.injEq, List.cons.injEq, sortMembers_eq_str, ih]
  | obj ms => simp
  | null | bool b | num n | str t => rfl

theorem sortMembers_eq_bool {v : Tree} {b : Bool} :
    v.sortMembers KeyLE = .bool b ↔ v = .bool b := by
  cases v with
  | arr xs => simp
  | obj ms => simp
  | null | bool b | num n | str t => rfl

theorem sortMembers_eq_null {v : Tree} : v.sortMembers KeyLE = .null ↔ v = .null := by
  cases v with
  | arr xs => simp
  | obj ms => simp
  | null | bool b | num n | str t => rfl

/-- A member that sorting does not change. -/
theorem lookup_sortedMembers_eq {ms : Members} (h : (Json.names ms).Nodup) {v : Tree}
    (hv : ∀ w : Tree, w.sortMembers KeyLE = v ↔ w = v) (k : List Char) :
    (sortedMembers ms).lookup k = some v ↔ ms.lookup k = some v := by
  rw [lookup_sortedMembers h, Option.map_eq_some_iff]
  simp [hv]

end Values

/-! ## Content identity by exact names -/

section Exact

/-- What stands in a projection under its exact names. The equivalent fields may be left out. -/
structure ExactProjection (raw : Members) (p : LogicalPayloadProjection) : Prop where
  objectType : raw.lookup "object_type".toList = some (.str p.objectType)
  idField : raw.lookup "id_field".toList = some (.str p.idField)
  objectSchemaVersion :
    raw.lookup "object_schema_version".toList = some (.str p.objectSchemaVersion)
  canonicalEncoder : raw.lookup "canonical_encoder".toList = some (.str p.canonicalEncoder)
  domainSeparator : raw.lookup "domain_separator".toList = some (.str p.domainSeparator)
  excludedFields :
    raw.lookup "excluded_fields".toList = some (.arr (p.excludedFields.elems.map .str))
  equivalentDigestFields :
    raw.lookup "equivalent_digest_fields".toList
        = some (.arr (p.equivalentDigestFields.elems.map .str)) ∨
      p.equivalentDigestFields.elems = [] ∧
        (raw.lookup "equivalent_digest_fields".toList).getD .null = .null
  idEncoding : raw.lookup "id_encoding".toList = some (.str p.idEncoding)
  idEqualsLogicalPayloadSHA256 : raw.lookup "id_equals_logical_payload_sha256".toList
    = some (.bool p.idEqualsLogicalPayloadSHA256)

/-- A declaration has nothing empty where a name or a text belongs. -/
structure Declares.Full (p : LogicalPayloadProjection) : Prop where
  objectType : p.objectType ≠ []
  idField : p.idField ≠ []
  objectSchemaVersion : p.objectSchemaVersion ≠ []
  canonicalEncoder : p.canonicalEncoder ≠ []
  domainSeparator : p.domainSeparator ≠ []
  excludedFields : p.excludedFields.elems ≠ []
  idEncoding : p.idEncoding ≠ []

theorem Declares.full {p : LogicalPayloadProjection} (h : Declares p)
    (htype : validDomainToken (utf8 p.objectType) = true)
    (hversion : validSchemaVersion (utf8 p.objectSchemaVersion) = true) : Declares.Full p := by
  have hid : p.idField ∈ p.excludedFields.elems := h.excludes _ (by simp)
  refine ⟨?_, fun hempty => h.excluded_ne (hempty ▸ hid), ?_, ?_, ?_, List.ne_nil_of_mem hid, ?_⟩
  · intro hempty
    rw [hempty] at htype
    exact absurd htype (by decide)
  · intro hempty
    rw [hempty] at hversion
    exact absurd hversion (by decide)
  · rw [h.encoder]
    decide
  · rw [h.separator]
    exact List.append_ne_nil_of_right_ne_nil _ (List.cons_ne_nil _ _)
  · rw [h.encoding]
    decide

/-- Declared and decoded, a projection stands under its exact names. -/
theorem exactProjection_of_decoded {raw : Members} {p : LogicalPayloadProjection}
    (hnodup : (Json.names raw).Nodup) (h : ProjectionDecoded (sortedMembers raw) p)
    (hdeclares : Declares p) (hfull : Declares.Full p) : ExactProjection raw p := by
  have hstr : ∀ {k s : List Char}, s ≠ [] →
      MemberDecoded decodeString ((sortedMembers raw).lookup k) [] s →
      raw.lookup k = some (.str s) := fun hs hdecoded =>
    (lookup_sortedMembers_str hnodup).1 ((memberDecoded_string hs).1 hdecoded)
  have hstrs : ∀ {k : List Char} {s : Slice (List Char)}, [] ∉ s.elems → s.elems ≠ [] →
      MemberDecoded decodeStrings ((sortedMembers raw).lookup k) .nil s →
      raw.lookup k = some (.arr (s.elems.map .str)) := fun hne hs hdecoded =>
    (lookup_sortedMembers_eq hnodup (fun _ => sortMembers_eq_strs) _).1
      (memberDecoded_strings hne hs hdecoded)
  constructor
  case objectType => exact hstr hfull.objectType h.objectType
  case idField => exact hstr hfull.idField h.idField
  case objectSchemaVersion => exact hstr hfull.objectSchemaVersion h.objectSchemaVersion
  case canonicalEncoder => exact hstr hfull.canonicalEncoder h.canonicalEncoder
  case domainSeparator => exact hstr hfull.domainSeparator h.domainSeparator
  case excludedFields => exact hstrs hdeclares.excluded_ne hfull.excludedFields h.excludedFields
  case idEncoding => exact hstr hfull.idEncoding h.idEncoding
  case idEqualsLogicalPayloadSHA256 =>
    have hflag := h.idEqualsLogicalPayloadSHA256
    rw [hdeclares.flag] at hflag ⊢
    exact (lookup_sortedMembers_eq hnodup (fun _ => sortMembers_eq_bool) _).1
      (memberDecoded_bool.1 hflag)
  case equivalentDigestFields =>
    have hdecoded := h.equivalentDigestFields
    by_cases hempty : p.equivalentDigestFields.elems = []
    · rw [lookup_sortedMembers hnodup] at hdecoded
      cases hmember : raw.lookup "equivalent_digest_fields".toList with
      | none => exact .inr ⟨hempty, rfl⟩
      | some v =>
        rw [hmember] at hdecoded
        obtain ⟨hnull, -⟩ | ⟨xs, hxs, hmapM⟩ := decodeSlice_nil hdecoded
        · exact .inr ⟨hempty, sortMembers_eq_null.1 hnull⟩
        · rw [hempty, mapM_decodeString (by simp)] at hmapM
          rw [hmapM] at hxs
          rw [hempty]
          exact .inl (congrArg some (sortMembers_eq_strs.1 hxs))
    · exact .inl (hstrs hdeclares.equivalent_ne hempty hdecoded)

/-- Two projections that say the same. -/
structure LogicalPayloadProjection.Agrees (p q : LogicalPayloadProjection) : Prop where
  objectType : p.objectType = q.objectType
  idField : p.idField = q.idField
  objectSchemaVersion : p.objectSchemaVersion = q.objectSchemaVersion
  canonicalEncoder : p.canonicalEncoder = q.canonicalEncoder
  domainSeparator : p.domainSeparator = q.domainSeparator
  excludedFields : p.excludedFields.elems = q.excludedFields.elems
  equivalentDigestFields : p.equivalentDigestFields.elems = q.equivalentDigestFields.elems
  idEncoding : p.idEncoding = q.idEncoding
  idEqualsLogicalPayloadSHA256 : p.idEqualsLogicalPayloadSHA256 = q.idEqualsLogicalPayloadSHA256

variable {raw : Members} {p q : LogicalPayloadProjection}

theorem LogicalPayloadProjection.Agrees.declares (h : p.Agrees q) (hp : Declares p) :
    Declares q := by
  constructor
  case encoder => rw [← h.canonicalEncoder, hp.encoder]
  case encoding => rw [← h.idEncoding, hp.encoding]
  case flag => rw [← h.idEqualsLogicalPayloadSHA256, hp.flag]
  case separator =>
    rw [← h.domainSeparator, hp.separator, h.objectType, h.objectSchemaVersion]
  case excluded_ne => exact h.excludedFields ▸ hp.excluded_ne
  case excluded_nodup => exact h.excludedFields ▸ hp.excluded_nodup
  case excludes =>
    rw [← h.idField, ← h.excludedFields]
    exact hp.excludes
  case equivalent_ne => exact h.equivalentDigestFields ▸ hp.equivalent_ne
  case equivalent_nodup => exact h.equivalentDigestFields ▸ hp.equivalent_nodup
  case equivalent_excluded =>
    rw [← h.equivalentDigestFields, ← h.excludedFields]
    exact hp.equivalent_excluded

theorem LogicalPayloadProjection.Agrees.digestFields (h : p.Agrees q) :
    p.digestFields = q.digestFields := by
  rw [LogicalPayloadProjection.digestFields, LogicalPayloadProjection.digestFields, h.idField,
    h.equivalentDigestFields]

theorem LogicalPayloadProjection.Agrees.hashedBytes (h : p.Agrees q) (ms : Members) :
    hashedBytes p ms = hashedBytes q ms :=
  hashedBytes_congr h.objectType h.objectSchemaVersion h.excludedFields ms

theorem LogicalPayloadProjection.Agrees.digest (h : p.Agrees q) (ms : Members) :
    p.digest ms = q.digest ms :=
  congrArg (fun bytes => Hex.encodeToString (Sha256.sha256 bytes)) (h.hashedBytes ms)

/-- What stands under exact names is what is decoded. -/
theorem agrees_of_decoded (hnodup : (Json.names raw).Nodup) (h : ExactProjection raw p)
    (hexcluded : [] ∉ p.excludedFields.elems) (hequivalent : [] ∉ p.equivalentDigestFields.elems)
    (hq : ProjectionDecoded (sortedMembers raw) q) : p.Agrees q := by
  have hstr : ∀ {k s t : List Char}, raw.lookup k = some (.str s) →
      MemberDecoded decodeString ((sortedMembers raw).lookup k) [] t → s = t := by
    intro k s t hs ht
    rw [(lookup_sortedMembers_str hnodup).2 hs] at ht
    exact Option.some.inj ht
  have hstrs : ∀ {k : List Char} {elems : List (List Char)} {s : Slice (List Char)}, [] ∉ elems →
      raw.lookup k = some (.arr (elems.map .str)) →
      MemberDecoded decodeStrings ((sortedMembers raw).lookup k) .nil s → elems = s.elems := by
    intro k elems s hne hs ht
    rw [(lookup_sortedMembers_eq hnodup (fun _ => sortMembers_eq_strs) _).2 hs] at ht
    exact (elems_of_decodeStrings hne ht).symm
  constructor
  case objectType => exact hstr h.objectType hq.objectType
  case idField => exact hstr h.idField hq.idField
  case objectSchemaVersion => exact hstr h.objectSchemaVersion hq.objectSchemaVersion
  case canonicalEncoder => exact hstr h.canonicalEncoder hq.canonicalEncoder
  case domainSeparator => exact hstr h.domainSeparator hq.domainSeparator
  case excludedFields => exact hstrs hexcluded h.excludedFields hq.excludedFields
  case idEncoding => exact hstr h.idEncoding hq.idEncoding
  case idEqualsLogicalPayloadSHA256 =>
    have hflag := hq.idEqualsLogicalPayloadSHA256
    rw [(lookup_sortedMembers_eq hnodup (fun _ => sortMembers_eq_bool) _).2
      h.idEqualsLogicalPayloadSHA256] at hflag
    exact Option.some.inj hflag
  case equivalentDigestFields =>
    rcases h.equivalentDigestFields with hlist | ⟨hempty, hnull⟩
    · exact hstrs hequivalent hlist hq.equivalentDigestFields
    · have hdecoded := hq.equivalentDigestFields
      rw [lookup_sortedMembers hnodup] at hdecoded
      rw [hempty]
      cases hmember : raw.lookup "equivalent_digest_fields".toList with
      | none =>
        rw [hmember] at hdecoded
        exact (congrArg Slice.elems hdecoded).symm
      | some v =>
        rw [hmember] at hnull hdecoded
        obtain rfl : v = .null := hnull
        exact congrArg Slice.elems (Option.some.inj hdecoded)

/-- What stands under exact names can be decoded. -/
theorem exists_decoded (hnodup : (Json.names raw).Nodup)
    (hplain : ∀ k ∈ Json.names raw, Plain projectionFields k) (h : ExactProjection raw p) :
    ∃ q, decodeMembers projectionFields false (sortedMembers raw) .zero = some q := by
  have hsorted := (perm_names_sortedMembers raw).nodup_iff.2 hnodup
  refine exists_decodeMembers fun m hm f hf s => ?_
  have hname := (perm_names_sortedMembers raw).mem_iff.1 (Json.mem_names_of_mem hm)
  obtain ⟨hmem, hkey⟩ := plain_of_fieldFor (hplain _ hname) hf
  have hlookup := Json.lookup_of_mem hsorted hm
  rw [← hkey] at hlookup
  have hstr : ∀ {k t : List Char}, raw.lookup k = some (.str t) →
      (sortedMembers raw).lookup k = some m.2 → m.2 = .str t := fun ht hm =>
    Option.some.inj (hm.symm.trans ((lookup_sortedMembers_str hnodup).2 ht))
  have hstrs : ∀ {k : List Char} {elems : List (List Char)},
      raw.lookup k = some (.arr (elems.map .str)) → (sortedMembers raw).lookup k = some m.2 →
      m.2 = .arr (elems.map .str) := fun ht hm => Option.some.inj (hm.symm.trans
    ((lookup_sortedMembers_eq hnodup (fun _ => sortMembers_eq_strs) _).2 ht))
  simp only [projectionFields, List.mem_cons, List.not_mem_nil, or_false] at hmem
  rcases hmem with rfl | rfl | rfl | rfl | rfl | rfl | rfl | rfl | rfl
  · rw [hstr h.objectType hlookup]
    exact ⟨_, rfl⟩
  · rw [hstr h.idField hlookup]
    exact ⟨_, rfl⟩
  · rw [hstr h.objectSchemaVersion hlookup]
    exact ⟨_, rfl⟩
  · rw [hstr h.canonicalEncoder hlookup]
    exact ⟨_, rfl⟩
  · rw [hstr h.domainSeparator hlookup]
    exact ⟨_, rfl⟩
  · rw [hstrs h.excludedFields hlookup]
    obtain ⟨slice, hslice⟩ := exists_decodeStrings p.excludedFields.elems s.excludedFields
    exact ⟨_, congrArg (Option.map _) hslice⟩
  · rcases h.equivalentDigestFields with hlist | ⟨-, hnull⟩
    · rw [hstrs hlist hlookup]
      obtain ⟨slice, hslice⟩ :=
        exists_decodeStrings p.equivalentDigestFields.elems s.equivalentDigestFields
      exact ⟨_, congrArg (Option.map _) hslice⟩
    · have hm2 : m.2 = .null := by
        have hnone : (sortedMembers raw).lookup "equivalent_digest_fields".toList = some m.2 :=
          hlookup
        rw [lookup_sortedMembers hnodup] at hnone
        obtain ⟨v, hv, hsort⟩ := Option.map_eq_some_iff.1 hnone
        rw [hv] at hnull
        rw [← hsort, show v = .null from hnull]
        rfl
      rw [hm2]
      exact ⟨_, rfl⟩
  · rw [hstr h.idEncoding hlookup]
    exact ⟨_, rfl⟩
  · have hflag := (lookup_sortedMembers_eq hnodup (fun _ => sortMembers_eq_bool) _).2
      h.idEqualsLogicalPayloadSHA256
    rw [Option.some.inj (hlookup.symm.trans hflag)]
    exact ⟨_, rfl⟩

end Exact

/-! ## Content identity by exact names -/

section Identity

/-- No name of the projection is that of a field but for the case of letters, and nothing nests
deeper than `encoding/json` allows. -/
def Legible (ms : Members) : Prop :=
  depth (.obj ms) ≤ maxNestingDepth ∧ ∀ raw, ms.lookup logicalPayloadProjection = some (.obj raw) →
    ∀ k ∈ Json.names raw, Plain projectionFields k

/-- The projection of an object declares how its identity is computed. -/
structure Declared (ms : Members) (p : LogicalPayloadProjection) : Prop where
  projection : ∃ raw, ms.lookup logicalPayloadProjection = some (.obj raw) ∧ ExactProjection raw p
  declares : Declares p

/-- The `TypedDigest` of an object without its excluded members. -/
def PayloadDigest (p : LogicalPayloadProjection) (ms : Members) (digest : List Char) : Prop :=
  typedDigestHex (utf8 p.objectType) (utf8 p.objectSchemaVersion)
    (utf8 (canonicalForm (.obj (p.payload ms)))) = .ok digest

/-- Every digest field holds the digest. -/
def Holds (p : LogicalPayloadProjection) (ms : Members) (digest : List Char) : Prop :=
  ∀ f ∈ p.digestFields, ms.lookup f = some (.str digest)

variable {ms : Members} {p q : LogicalPayloadProjection}

theorem payloadDigest_iff (h : (Json.obj ms).Distinct) {digest : List Char} :
    PayloadDigest p ms digest ↔ validDomainToken (utf8 p.objectType) = true ∧
      validSchemaVersion (utf8 p.objectSchemaVersion) = true ∧ digest = p.digest ms := by
  have hpayload := distinct_payload h p
  refine typedDigestHex_payload (canonicalizeJSON_eq_ok.2 ⟨_, denotes_canonicalForm hpayload, ?_⟩)
  rw [canonicalForm_of_sorted (Json.sortMembers_sortMembers KeyLE _ hpayload)]

/-- How an accepted document is read. -/
theorem declared_of_verified {document : List UInt8} (hms : Denotes document (.obj ms))
    (hlegible : Legible ms) (h : verifyContentIdentity document = .ok ()) :
    ∃ p, Declared ms p ∧ PayloadDigest p ms (p.digest ms) ∧ Holds p ms (p.digest ms) := by
  obtain ⟨ms', v, p, hms', -, hv, hp, hdeclares, htype, hversion, hfields⟩ :=
    verifyContentIdentity_iff.1 h
  obtain rfl := Json.obj.inj (denotes_unique hms' hms)
  have hdistinct := hms.distinct
  refine ⟨p, ⟨?_, hdeclares⟩, (payloadDigest_iff hdistinct).2 ⟨htype, hversion, rfl⟩, hfields⟩
  have hvdistinct := (Json.distinct_obj.1 hdistinct).2 _ (Json.mem_of_lookup hv)
  have hzero : p ≠ .zero := by
    rintro rfl
    exact absurd hdeclares.encoder (by decide)
  cases v with
  | obj raw =>
    have hnodup := (Json.distinct_obj.1 hvdistinct).1
    rw [sortMembers_eq] at hp
    have hdecoded := projectionDecoded ((perm_names_sortedMembers raw).nodup_iff.2 hnodup)
      (fun k hk => hlegible.2 raw hv k ((perm_names_sortedMembers raw).mem_iff.1 hk)) hp
    exact ⟨raw, hv,
      exactProjection_of_decoded hnodup hdecoded hdeclares (hdeclares.full htype hversion)⟩
  | null => exact absurd (Option.some.inj hp).symm hzero
  | bool b => cases hp
  | num n => cases hp
  | str s => cases hp
  | arr xs =>
    rw [Json.sortMembers_arr] at hp
    cases hp

/-- A document that holds the digest it declares is accepted. -/
theorem verified_of_declared {document : List UInt8} (hms : Denotes document (.obj ms))
    (hlegible : Legible ms) (hdeclared : Declared ms p) {digest : List Char}
    (hdigest : PayloadDigest p ms digest) (hholds : Holds p ms digest) :
    verifyContentIdentity document = .ok () := by
  obtain ⟨⟨raw, hraw, hexact⟩, hdeclares⟩ := hdeclared
  obtain ⟨htype, hversion, rfl⟩ := (payloadDigest_iff hms.distinct).1 hdigest
  have hnodup := (Json.distinct_obj.1
    ((Json.distinct_obj.1 hms.distinct).2 _ (Json.mem_of_lookup hraw))).1
  have hplain := hlegible.2 raw hraw
  obtain ⟨q, hq⟩ := exists_decoded hnodup hplain hexact
  have hdecoded := projectionDecoded ((perm_names_sortedMembers raw).nodup_iff.2 hnodup)
    (fun k hk => hplain k ((perm_names_sortedMembers raw).mem_iff.1 hk)) hq
  have hagrees := agrees_of_decoded hnodup hexact hdeclares.excluded_ne hdeclares.equivalent_ne
    hdecoded
  refine verifyContentIdentity_iff.2 ⟨ms, .obj raw, q, hms, hlegible.1, hraw, ?_,
    hagrees.declares hdeclares, ?_, ?_, ?_⟩
  · rw [sortMembers_eq]
    exact hq
  · rw [← hagrees.objectType]
    exact htype
  · rw [← hagrees.objectSchemaVersion]
    exact hversion
  · rw [← hagrees.digestFields, ← hagrees.digest]
    exact hholds

/-- One projection is declared at most. -/
theorem Declared.agrees (hp : Declared ms p) (hq : Declared ms q) : p.Agrees q := by
  obtain ⟨⟨raw, hraw, hpe⟩, hpd⟩ := hp
  obtain ⟨⟨raw', hraw', hqe⟩, hqd⟩ := hq
  obtain rfl := Json.obj.inj (Option.some.inj (hraw.symm.trans hraw'))
  have hstr : ∀ {k s t : List Char}, raw.lookup k = some (.str s) → raw.lookup k = some (.str t) →
      s = t := fun hs ht => Json.str.inj (Option.some.inj (hs.symm.trans ht))
  have hstrs : ∀ {k : List Char} {ss ts : List (List Char)}, raw.lookup k = some (.arr (ss.map .str)) →
      raw.lookup k = some (.arr (ts.map .str)) → ss = ts := fun hs ht =>
    List.map_injective_iff.2 (fun _ _ => Json.str.inj)
      (Json.arr.inj (Option.some.inj (hs.symm.trans ht)))
  constructor
  case objectType => exact hstr hpe.objectType hqe.objectType
  case idField => exact hstr hpe.idField hqe.idField
  case objectSchemaVersion => exact hstr hpe.objectSchemaVersion hqe.objectSchemaVersion
  case canonicalEncoder => exact hstr hpe.canonicalEncoder hqe.canonicalEncoder
  case domainSeparator => exact hstr hpe.domainSeparator hqe.domainSeparator
  case excludedFields => exact hstrs hpe.excludedFields hqe.excludedFields
  case idEncoding => exact hstr hpe.idEncoding hqe.idEncoding
  case idEqualsLogicalPayloadSHA256 => rw [hpd.flag, hqd.flag]
  case equivalentDigestFields =>
    rcases hpe.equivalentDigestFields with hp | ⟨hp, hpn⟩ <;>
      rcases hqe.equivalentDigestFields with hq | ⟨hq, hqn⟩
    · exact hstrs hp hq
    · rw [hp] at hqn
      cases hqn
    · rw [hq] at hpn
      cases hpn
    · rw [hp, hq]

/-- `VerifyContentIdentity` accepts the documents that hold the digest of what they do not exclude;
filling the digest in is enough, and nothing else may change. -/
theorem verifyContentIdentity_exact {document : List UInt8}
    (hlegible : ∀ ms, Denotes document (.obj ms) → Legible ms) :
    (verifyContentIdentity document = .ok () ↔ ∃ ms p digest, Denotes document (.obj ms) ∧
      Declared ms p ∧ PayloadDigest p ms digest ∧ Holds p ms digest) ∧
    (∀ ms ms' p digest, Denotes document (.obj ms') → Declared ms p →
      logicalPayloadProjection ∉ p.digestFields → (Json.obj ms).Distinct →
      PayloadDigest p ms digest → (∀ k ∉ p.digestFields, ms'.lookup k = ms.lookup k) →
      Holds p ms' digest → verifyContentIdentity document = .ok ()) ∧
    ∀ ms ms' p document', Denotes document (.obj ms) → verifyContentIdentity document = .ok () →
      Declared ms p → Denotes document' (.obj ms') →
      ms'.lookup logicalPayloadProjection = ms.lookup logicalPayloadProjection →
      (∀ f ∈ p.digestFields, ms'.lookup f = ms.lookup f) →
      (∃ k ∉ p.excludedFields.elems, ¬ Option.Rel Json.Same (ms.lookup k) (ms'.lookup k)) →
      (Sha256.sha256 (hashedBytes p ms) = Sha256.sha256 (hashedBytes p ms') →
        hashedBytes p ms = hashedBytes p ms') →
      verifyContentIdentity document' ≠ .ok () := by
  refine ⟨⟨fun h => ?_, ?_⟩, ?_, ?_⟩
  · obtain ⟨ms, _, _, hms, _⟩ := verifyContentIdentity_iff.1 h
    obtain ⟨p, hdeclared, hdigest, hholds⟩ := declared_of_verified hms (hlegible ms hms) h
    exact ⟨ms, p, _, hms, hdeclared, hdigest, hholds⟩
  · rintro ⟨ms, p, digest, hms, hdeclared, hdigest, hholds⟩
    exact verified_of_declared hms (hlegible ms hms) hdeclared hdigest hholds
  · intro ms ms' p digest hms' hdeclared hprojection hdistinct hdigest hagree hholds
    have hdeclared' : Declared ms' p := by
      obtain ⟨⟨raw, hraw, hexact⟩, hdeclares⟩ := hdeclared
      exact ⟨⟨raw, (hagree _ hprojection).trans hraw, hexact⟩, hdeclares⟩
    -- the digest fields are excluded, so the payload is the one that was hashed
    have hexcluded : ∀ f ∈ p.digestFields, f ∈ p.excludedFields.elems := by
      intro f hf
      simp only [LogicalPayloadProjection.digestFields, List.mem_cons] at hf
      rcases hf with rfl | rfl | hf
      · exact hdeclared.declares.excludes _ (by simp)
      · exact hdeclared.declares.excludes _ (by simp)
      · exact hdeclared.declares.equivalent_excluded f hf
    have hbytes : hashedBytes p ms' = hashedBytes p ms := by
      refine (hashedBytes_eq_iff hms'.distinct hdistinct p).2 fun k hk => ?_
      rw [hagree k fun hmem => hk (hexcluded k hmem)]
      cases hv : ms.lookup k with
      | none => exact .none
      | some v =>
        have hvd := (Json.distinct_obj.1 hdistinct).2 _ (Json.mem_of_lookup hv)
        exact .some ((Json.same_iff_sortMembers KeyLE hvd hvd).2 rfl)
    refine verified_of_declared hms' (hlegible ms' hms') hdeclared' ?_ hholds
    rw [payloadDigest_iff hms'.distinct, LogicalPayloadProjection.digest, hbytes]
    exact (payloadDigest_iff hdistinct).1 hdigest
  · intro ms ms' p document' hms h hdeclared hms' hprojection hfields hchanged hcollision h'
    obtain ⟨q, hq, -, hholds⟩ := declared_of_verified hms (hlegible ms hms) h
    have hlegible' : Legible ms' := by
      obtain ⟨ms'', _, _, hms'', hdepth, _⟩ := verifyContentIdentity_iff.1 h'
      obtain rfl := Json.obj.inj (denotes_unique hms'' hms')
      exact ⟨hdepth, hprojection ▸ (hlegible ms hms).2⟩
    obtain ⟨q', hq', -, hholds'⟩ := declared_of_verified hms' hlegible' h'
    have hq'ms : Declared ms q' := ⟨hprojection ▸ hq'.projection, hq'.declares⟩
    have hid : p.idField ∈ p.digestFields := List.mem_cons_self
    have hold := hholds p.idField ((hq.agrees hdeclared).digestFields ▸ hid)
    have hnew := hholds' p.idField ((hq'ms.agrees hdeclared).digestFields ▸ hid)
    rw [hfields _ hid, hold, (hq.agrees hdeclared).digest, (hq'ms.agrees hdeclared).digest] at hnew
    have hbytes := hcollision
      (Hex.encodeToString_injective (Json.str.inj (Option.some.inj hnew)))
    obtain ⟨k, hk, hne⟩ := hchanged
    exact hne ((hashedBytes_eq_iff hms.distinct hms'.distinct p).1 hbytes k hk)

def objectDigest : List Char :=
  "4716ab6a67271efcea7cf13b8d7151b2".toList ++ "f2080887ed208dab0f51e5df9a2660ec".toList

def sampleObject (typeName : String) (member : Tree) : Members :=
  [("a".toList, member), ("id".toList, .str objectDigest),
    ("logical_payload_sha256".toList, .str objectDigest), ("hash".toList, .str objectDigest),
    ("logical_payload_projection".toList, .obj
      [(typeName.toList, .str "t".toList), ("id_field".toList, .str "id".toList),
        ("object_schema_version".toList, .str "1.0.0".toList),
        ("canonical_encoder".toList, .str "RFC8785_JCS".toList),
        ("domain_separator".toList, .str (domainSeparator "t".toList "1.0.0".toList)),
        ("excluded_fields".toList, .arr ((["id", "hash", "logical_payload_sha256",
          "logical_payload_projection"].map String.toList).map .str)),
        ("equivalent_digest_fields".toList, .arr ((["hash"].map String.toList).map .str)),
        ("id_encoding".toList, .str "lowercase_hex_sha256".toList),
        ("id_equals_logical_payload_sha256".toList, .bool true)])]

def objectProjection : LogicalPayloadProjection where
  objectType := "t".toList
  idField := "id".toList
  objectSchemaVersion := "1.0.0".toList
  canonicalEncoder := "RFC8785_JCS".toList
  domainSeparator := domainSeparator "t".toList "1.0.0".toList
  excludedFields := ⟨["id", "hash", "logical_payload_sha256",
    "logical_payload_projection"].map String.toList, []⟩
  equivalentDigestFields := ⟨["hash"].map String.toList, []⟩
  idEncoding := "lowercase_hex_sha256".toList
  idEqualsLogicalPayloadSHA256 := true

theorem declares_objectProjection : Declares objectProjection := by
  constructor <;> decide +kernel

theorem digest_sampleObject (typeName : String) :
    objectProjection.digest (sampleObject typeName .null) = objectDigest := by
  have hpayload : objectProjection.payload (sampleObject typeName .null)
      = objectProjection.payload (sampleObject "" .null) := rfl
  rw [LogicalPayloadProjection.digest, hashedBytes, hpayload]
  decide +kernel

theorem holds_sampleObject (typeName : String) (member : Tree) :
    Holds objectProjection (sampleObject typeName member) objectDigest :=
  List.forall_mem_cons.2 ⟨rfl, List.forall_mem_cons.2 ⟨rfl, List.forall_mem_cons.2 ⟨rfl, by simp⟩⟩⟩

theorem distinct_sampleObject {member : Tree} (h : member.Distinct) :
    (Json.obj (sampleObject "object_type" member)).Distinct := by
  have hnull : (Json.obj (sampleObject "object_type" .null)).Distinct := by decide +kernel
  rw [Json.distinct_obj] at hnull ⊢
  exact ⟨hnull.1, List.forall_mem_cons.2 ⟨h, (List.forall_mem_cons.1 hnull.2).2⟩⟩

theorem legible_sampleObject :
    ∀ ms, Denotes (documentOf (.obj (sampleObject "object_type" .null))) (.obj ms) → Legible ms := by
  intro ms hms
  obtain rfl := Json.obj.inj
    (denotes_unique hms (denotes_documentOf (distinct_sampleObject (by trivial))))
  refine ⟨by decide +kernel, fun raw hraw => ?_⟩
  have hplain : ∀ k ∈ Json.names ((sampleObject "object_type" .null).flatMap fun m =>
      match m.2 with | .obj raw => raw | _ => []), Plain projectionFields k := by
    decide +kernel
  refine fun k hk => hplain k ?_
  obtain ⟨v, hv⟩ := Json.mem_names.1 hk
  exact Json.mem_names.2 ⟨v, List.mem_flatMap.2 ⟨_, Json.mem_of_lookup hraw, hv⟩⟩

theorem declared_sampleObject (member : Tree) :
    Declared (sampleObject "object_type" member) objectProjection := by
  refine ⟨⟨_, rfl, ?_⟩, declares_objectProjection⟩
  exact ⟨rfl, rfl, rfl, rfl, rfl, rfl, .inl rfl, rfl, rfl⟩

theorem payloadDigest_sampleObject :
    PayloadDigest objectProjection (sampleObject "object_type" .null) objectDigest :=
  (payloadDigest_iff (distinct_sampleObject (by trivial))).2
    ⟨by decide +kernel, by decide +kernel, (digest_sampleObject "object_type").symm⟩

/-- A document is accepted with the digest filled in, and refused once the member it hashes is
another. -/
theorem verifyContentIdentity_exact_object :
    verifyContentIdentity (documentOf (.obj (sampleObject "object_type" .null))) = .ok () ∧
      verifyContentIdentity (documentOf (.obj (sampleObject "object_type" (.bool true)))) ≠ .ok () := by
  have hdenotes := denotes_documentOf (distinct_sampleObject (by trivial : (Json.null : Tree).Distinct))
  have hdenotes' := denotes_documentOf (distinct_sampleObject (by trivial : (Json.bool true : Tree).Distinct))
  obtain ⟨hiff, -, htamper⟩ := verifyContentIdentity_exact legible_sampleObject
  have haccepted := hiff.2 ⟨_, _, _, hdenotes, declared_sampleObject .null,
    payloadDigest_sampleObject, holds_sampleObject "object_type" .null⟩
  refine ⟨haccepted, htamper _ _ _ _ hdenotes haccepted (declared_sampleObject .null) hdenotes' rfl
    (fun f hf => ?_) ⟨"a".toList, by decide +kernel, ?_⟩ fun h => absurd h (by decide +kernel)⟩
  · rw [holds_sampleObject "object_type" .null f hf,
      holds_sampleObject "object_type" (.bool true) f hf]
  · show ¬ Option.Rel Json.Same (some Json.null) (some (Json.bool true))
    intro hrel
    cases hrel with
    | some hsame => cases hsame

/-- A projection that spells a name in other letters is decoded all the same, and one that nests too
deep is not. -/
theorem not_verifyContentIdentity_exact :
    (¬ ∀ document, (verifyContentIdentity document = .ok () ↔ ∃ ms p digest,
      Denotes document (.obj ms) ∧ Declared ms p ∧ PayloadDigest p ms digest ∧ Holds p ms digest)) ∧
    ∀ document ms, Denotes document (.obj ms) → maxNestingDepth < depth (.obj ms) →
      verifyContentIdentity document ≠ .ok () := by
  refine ⟨fun h => ?_, fun document ms hms hdeep h => ?_⟩
  rotate_left
  · obtain ⟨ms', _, _, hms', hdepth, _⟩ := verifyContentIdentity_iff.1 h
    obtain rfl := Json.obj.inj (denotes_unique hms' hms)
    exact absurd hdeep (not_lt.2 hdepth)
  have hdistinct : (Json.obj (sampleObject "Object_type" .null)).Distinct := by decide +kernel
  have hdenotes := denotes_documentOf hdistinct
  have haccepted : verifyContentIdentity (documentOf (.obj (sampleObject "Object_type" .null)))
      = .ok () := by
    refine verifyContentIdentity_iff.2 ⟨_, _, objectProjection, hdenotes, by decide +kernel, rfl,
      by decide +kernel, declares_objectProjection, by decide +kernel, by decide +kernel, ?_⟩
    rw [digest_sampleObject]
    exact holds_sampleObject "Object_type" .null
  obtain ⟨ms, p, _, hms, ⟨⟨raw, hraw, hexact⟩, -⟩, -⟩ := (h _).1 haccepted
  obtain rfl := Json.obj.inj (denotes_unique hms hdenotes)
  obtain rfl := Json.obj.inj (Option.some.inj hraw)
  cases hexact.objectType

end Identity

end Canonical
