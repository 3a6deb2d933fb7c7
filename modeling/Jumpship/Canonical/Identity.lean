import Mathlib
import Jumpship.Canonical.Jcs
import Jumpship.Go.Unmarshal

/-!
# Content identities

`VerifyContentIdentity` and the catalog verifiers of the Go package `canonical`. `encoding/json`
decodes canonical text only: a `json.RawMessage` is the value whose canonical text it is.
-/

namespace Canonical

open Go JsonText Unicode

inductive IdentityError where
  | canonicalize (cause : Error)
  | notObject
  | missingProjection
  | invalidProjection
  | noIDField
  | emptyExclusion
  | duplicateExclusion
  | notExcluded (field : List Char)
  | emptyEquivalent
  | duplicateEquivalent
  | equivalentNotExcluded (field : List Char)
  | digest (cause : Error)
  | missingField (field : List Char)
  | fieldMismatch (field : List Char)
  | byteLimit
  | topLevelShape
  | missingMember (field : String)
  | undecodable
  | frozenProjection
  | invalidHash
  | itemCount
  | invalidItem
  | structuralDenials
  | structuralDenial
  | receipts
  | receipt
  | emptySortKey
  | notAscending
deriving DecidableEq

/-! ## Decoding canonical text -/

section Unmarshal

/-- The value of a canonical text, in which no name repeats. -/
def unmarshal (data : List UInt8) : Option Tree := do
  let text ← utf8Decode data
  match decodeValue (text.length + 1) (newDecoder text) with
  | .error _ => none
  | .ok (value, decoder) =>
    if decoder.more || !decoder.atEOF then none
    else do
      let tree ← value.mapNum parseFloat
      if maxNestingDepth < depth tree then none else some tree

abbrev Members := List (List Char × Tree)

/-- Into a `map[string]json.RawMessage`; null leaves it nil. -/
def decodeMap : Tree → Option (Option Members)
  | .null => some none
  | .obj ms => some (some ms)
  | _ => none

/-- `json.Marshal` escapes HTML. -/
def htmlEscape (c : Char) : List Char :=
  if c = '<' ∨ c = '>' ∨ c = '&' ∨ c.toNat = 0x2028 ∨ c.toNat = 0x2029 then
    ['\\', 'u', Hex.digit (c.toNat / 4096), Hex.digit (c.toNat / 256 % 16),
      Hex.digit (c.toNat / 16 % 16), Hex.digit (c.toNat % 16)]
  else appendRune c

def NameLE (left right : List Char) : Prop := left ≤ right

instance : DecidableRel NameLE := fun left right => inferInstanceAs (Decidable (left ≤ right))

/-- `json.Marshal` of a `map[string]json.RawMessage`. -/
def marshalMap (ms : Members) : List UInt8 :=
  utf8 (write htmlEscape numberText (.obj (Json.sortByName NameLE ms)))

end Unmarshal

/-! ## Hashes -/

/-- `isSHA256Hex` -/
def isSHA256Hex (value : List Char) : Bool :=
  match Hex.decodeString value with
  | none => false
  | some decoded => decoded.length = 32 && value = Hex.encodeToString decoded

/-! ## The projection -/

section Projection

structure LogicalPayloadProjection where
  objectType : List Char
  idField : List Char
  objectSchemaVersion : List Char
  canonicalEncoder : List Char
  domainSeparator : List Char
  excludedFields : Slice (List Char)
  equivalentDigestFields : Slice (List Char)
  idEncoding : List Char
  idEqualsLogicalPayloadSHA256 : Bool
deriving DecidableEq

def LogicalPayloadProjection.zero : LogicalPayloadProjection :=
  ⟨[], [], [], [], [], .nil, .nil, [], false⟩

def projectionFields : List (StructField LogicalPayloadProjection) :=
  [field "object_type" (·.objectType) (fun p v => { p with objectType := v }) decodeString,
    field "id_field" (·.idField) (fun p v => { p with idField := v }) decodeString,
    field "object_schema_version" (·.objectSchemaVersion)
      (fun p v => { p with objectSchemaVersion := v }) decodeString,
    field "canonical_encoder" (·.canonicalEncoder) (fun p v => { p with canonicalEncoder := v })
      decodeString,
    field "domain_separator" (·.domainSeparator) (fun p v => { p with domainSeparator := v })
      decodeString,
    field "excluded_fields" (·.excludedFields) (fun p v => { p with excludedFields := v })
      decodeStrings,
    field "equivalent_digest_fields" (·.equivalentDigestFields)
      (fun p v => { p with equivalentDigestFields := v }) decodeStrings,
    field "id_encoding" (·.idEncoding) (fun p v => { p with idEncoding := v }) decodeString,
    field "id_equals_logical_payload_sha256" (·.idEqualsLogicalPayloadSHA256)
      (fun p v => { p with idEqualsLogicalPayloadSHA256 := v }) decodeBool]

/-- `fmt.Sprintf("jumpship:%s:%s\x00", objectType, objectSchemaVersion)` -/
def domainSeparator (objectType objectSchemaVersion : List Char) : List Char :=
  "jumpship:".toList ++ objectType ++ ':' :: (objectSchemaVersion ++ [Char.ofNat 0])

def logicalPayloadSHA256 : List Char := "logical_payload_sha256".toList

def logicalPayloadProjection : List Char := "logical_payload_projection".toList

/-- The loop over `projection.ExcludedFields`. -/
def excludeFields : List (List Char) → List (List Char) → Except IdentityError (List (List Char))
  | excluded, [] => .ok excluded
  | excluded, field :: fields =>
    if field = [] then .error .emptyExclusion
    else if field ∈ excluded then .error .duplicateExclusion
    else excludeFields (excluded ++ [field]) fields

def requireExcluded (excluded : List (List Char)) : List (List Char) → Except IdentityError Unit
  | [] => .ok ()
  | field :: fields =>
    if field ∉ excluded then .error (.notExcluded field) else requireExcluded excluded fields

/-- The loop over `projection.EquivalentDigestFields`. -/
def checkEquivalents (excluded : List (List Char)) :
    List (List Char) → List (List Char) → Except IdentityError Unit
  | _, [] => .ok ()
  | equivalent, field :: fields =>
    if field = [] then .error .emptyEquivalent
    else if field ∈ equivalent then .error .duplicateEquivalent
    else if field ∉ excluded then .error (.equivalentNotExcluded field)
    else checkEquivalents excluded (equivalent ++ [field]) fields

/-- Every field holds the digest. -/
def checkDigests (object : Members) (digest : List Char) :
    List (List Char) → Except IdentityError Unit
  | [] => .ok ()
  | field :: fields =>
    match object.lookup field with
    | none => .error (.missingField field)
    | some raw =>
      match decodeString raw [] with
      | none => .error (.fieldMismatch field)
      | some value =>
        if !isSHA256Hex value || value ≠ digest then .error (.fieldMismatch field)
        else checkDigests object digest fields

/-- `VerifyContentIdentity` once the projection is decoded. -/
def verifyProjected (object : Members) (projection : LogicalPayloadProjection) :
    Except IdentityError Unit := do
  if projection.canonicalEncoder ≠ "RFC8785_JCS".toList ||
      projection.idEncoding ≠ "lowercase_hex_sha256".toList ||
      !projection.idEqualsLogicalPayloadSHA256 ||
      projection.domainSeparator ≠
        domainSeparator projection.objectType projection.objectSchemaVersion then
    .error .invalidProjection
  else if projection.idField = [] then .error .noIDField
  else
    let excluded ← excludeFields [] projection.excludedFields.elems
    requireExcluded excluded [projection.idField, logicalPayloadSHA256, logicalPayloadProjection]
    checkEquivalents excluded [] projection.equivalentDigestFields.elems
    let projected := object.filter fun m => m.1 ∉ excluded
    match typedDigestHex (utf8 projection.objectType) (utf8 projection.objectSchemaVersion)
      (marshalMap projected) with
    | .error e => .error (.digest e)
    | .ok digest =>
      checkDigests object digest
        (projection.idField :: logicalPayloadSHA256 :: projection.equivalentDigestFields.elems)

/-- The members that are hashed. -/
def LogicalPayloadProjection.payload (p : LogicalPayloadProjection) (object : Members) : Members :=
  object.filter fun m => m.1 ∉ p.excludedFields.elems

def verifyContentIdentity (document : List UInt8) : Except IdentityError Unit :=
  match canonicalizeJSON document with
  | .error e => .error (.canonicalize e)
  | .ok canonical =>
    match (unmarshal canonical).bind decodeMap with
    | some (some object) =>
      match object.lookup logicalPayloadProjection with
      | none => .error .missingProjection
      | some projectionRaw =>
        match decodeStruct projectionFields false projectionRaw .zero with
        | none => .error .missingProjection
        | some projection => verifyProjected object projection
    | _ => .error .notObject

end Projection

/-! ## The catalog -/

section Catalog

structure CustomerIncapabilityCatalogItem where
  capabilityID : List Char
  incapabilityID : List Char
  operationID : List Char
  reasonCode : List Char
  safeExplanation : List Char
  safeRemediation : List Char
  requiredHumanSurface : List Char
  codingAgentDenied : Bool
  structuralDenialContractIDs : Slice (List Char)
  negativeTestReceiptHashes : Slice (List Char)
deriving DecidableEq

def CustomerIncapabilityCatalogItem.zero : CustomerIncapabilityCatalogItem :=
  ⟨[], [], [], [], [], [], [], false, .nil, .nil⟩

def itemFields : List (StructField CustomerIncapabilityCatalogItem) :=
  [field "capability_id" (·.capabilityID) (fun i v => { i with capabilityID := v }) decodeString,
    field "incapability_id" (·.incapabilityID) (fun i v => { i with incapabilityID := v })
      decodeString,
    field "operation_id" (·.operationID) (fun i v => { i with operationID := v }) decodeString,
    field "reason_code" (·.reasonCode) (fun i v => { i with reasonCode := v }) decodeString,
    field "safe_explanation" (·.safeExplanation) (fun i v => { i with safeExplanation := v })
      decodeString,
    field "safe_remediation" (·.safeRemediation) (fun i v => { i with safeRemediation := v })
      decodeString,
    field "required_human_surface" (·.requiredHumanSurface)
      (fun i v => { i with requiredHumanSurface := v }) decodeString,
    field "coding_agent_denied" (·.codingAgentDenied) (fun i v => { i with codingAgentDenied := v })
      decodeBool,
    field "structural_denial_contract_ids" (·.structuralDenialContractIDs)
      (fun i v => { i with structuralDenialContractIDs := v }) decodeStrings,
    field "negative_test_receipt_hashes" (·.negativeTestReceiptHashes)
      (fun i v => { i with negativeTestReceiptHashes := v }) decodeStrings]

structure CustomerIncapabilityCatalog where
  schemaVersion : List Char
  catalogID : List Char
  logicalPayloadSHA256 : List Char
  logicalPayloadProjection : LogicalPayloadProjection
  catalogHash : List Char
  sourceRegistryHash : List Char
  items : Slice CustomerIncapabilityCatalogItem
deriving DecidableEq

def CustomerIncapabilityCatalog.zero : CustomerIncapabilityCatalog :=
  ⟨[], [], [], .zero, [], [], .nil⟩

/-- The fields, under a decoder that allows unknown members or not. -/
def catalogFields (disallowUnknownFields : Bool) : List (StructField CustomerIncapabilityCatalog) :=
  [field "schema_version" (·.schemaVersion) (fun c v => { c with schemaVersion := v }) decodeString,
    field "catalog_id" (·.catalogID) (fun c v => { c with catalogID := v }) decodeString,
    field "logical_payload_sha256" (·.logicalPayloadSHA256)
      (fun c v => { c with logicalPayloadSHA256 := v }) decodeString,
    field "logical_payload_projection" (·.logicalPayloadProjection)
      (fun c v => { c with logicalPayloadProjection := v })
      (decodeStruct projectionFields disallowUnknownFields),
    field "catalog_hash" (·.catalogHash) (fun c v => { c with catalogHash := v }) decodeString,
    field "source_registry_hash" (·.sourceRegistryHash)
      (fun c v => { c with sourceRegistryHash := v }) decodeString,
    field "items" (·.items) (fun c v => { c with items := v })
      (decodeSlice .zero (decodeStruct itemFields disallowUnknownFields))]

def isDigit (c : Char) : Bool := '0' ≤ c && c ≤ '9'

def isUpper (c : Char) : Bool := 'A' ≤ c && c ≤ 'Z'

def isLower (c : Char) : Bool := 'a' ≤ c && c ≤ 'z'

/-- `^MVP-CAP-[A-Z0-9][A-Z0-9-]+$` -/
def catalogCapabilityIDPattern (value : List Char) : Bool :=
  "MVP-CAP-".toList.isPrefixOf value &&
    match value.drop 8 with
    | first :: second :: rest =>
      (isUpper first || isDigit first) &&
        (second :: rest).all fun c => isUpper c || isDigit c || c = '-'
    | _ => false

/-- `^[A-Za-z0-9][A-Za-z0-9._:/@+\-]*$` -/
def catalogSafeTokenPattern : List Char → Bool
  | [] => false
  | first :: rest =>
    (isUpper first || isLower first || isDigit first) &&
      rest.all fun c => isUpper c || isLower c || isDigit c || c ∈ "._:/@+-".toList

def validCatalogToken (value : List Char) : Bool :=
  1 ≤ value.length && value.length ≤ 128 && catalogSafeTokenPattern value

def validCatalogText (value : List Char) : Bool := 1 ≤ value.length && value.length ≤ 2048

def allowedSurfaces : List (List Char) :=
  ["browser".toList, "human_cli".toList, "support".toList, "unavailable".toList]

/-- The frozen projection of one kind of object. -/
def frozenProjection (projection : LogicalPayloadProjection) (objectType idField version : String)
    (excluded equivalent : List String) : Bool :=
  projection.objectType = objectType.toList && projection.idField = idField.toList &&
    projection.objectSchemaVersion = version.toList &&
    projection.canonicalEncoder = "RFC8785_JCS".toList &&
    projection.domainSeparator = domainSeparator objectType.toList version.toList &&
    projection.idEncoding = "lowercase_hex_sha256".toList &&
    projection.idEqualsLogicalPayloadSHA256 &&
    projection.excludedFields.elems = excluded.map String.toList &&
    projection.equivalentDigestFields.elems = equivalent.map String.toList

/-- The loop over the items of `validateCustomerIncapabilityCatalogShape`. -/
def validateItem (item : CustomerIncapabilityCatalogItem) : Except IdentityError Unit :=
  if !catalogCapabilityIDPattern item.capabilityID || 128 < item.capabilityID.length ||
      !validCatalogToken item.incapabilityID || !validCatalogToken item.operationID ||
      !validCatalogToken item.reasonCode || item.requiredHumanSurface ∉ allowedSurfaces ||
      !item.codingAgentDenied || !validCatalogText item.safeExplanation ||
      !validCatalogText item.safeRemediation then
    .error .invalidItem
  else
    let denials := item.structuralDenialContractIDs.elems
    let receipts := item.negativeTestReceiptHashes.elems
    if denials.length < 1 || 32 < denials.length || ¬ denials.Nodup then .error .structuralDenials
    else if !denials.all validCatalogToken then .error .structuralDenial
    else if receipts.length < 1 || 64 < receipts.length || ¬ receipts.Nodup then .error .receipts
    else if !receipts.all isSHA256Hex then .error .receipt
    else .ok ()

def validateItems : List CustomerIncapabilityCatalogItem → Except IdentityError Unit
  | [] => .ok ()
  | item :: items => do
    validateItem item
    validateItems items

def validateCustomerIncapabilityCatalogShape (catalog : CustomerIncapabilityCatalog) :
    Except IdentityError Unit :=
  if catalog.schemaVersion ≠ "2.0.0".toList ||
      !frozenProjection catalog.logicalPayloadProjection "customer_incapability_catalog"
        "catalog_id" "2.0.0"
        ["catalog_id", "catalog_hash", "logical_payload_sha256", "logical_payload_projection"]
        ["catalog_hash"] then
    .error .frozenProjection
  else if !([catalog.catalogID, catalog.logicalPayloadSHA256, catalog.catalogHash,
      catalog.sourceRegistryHash].all isSHA256Hex) then
    .error .invalidHash
  else if catalog.items.elems.length < 1 || 2048 < catalog.items.elems.length then
    .error .itemCount
  else validateItems catalog.items.elems

/-- The loop over the sort keys, from its two running variables; `first` is its index 0. -/
def checkAscending : (first : Bool) → (previousCapability previousIncapability : List Char) →
    List CustomerIncapabilityCatalogItem → Except IdentityError Unit
  | _, _, _, [] => .ok ()
  | first, previousCapability, previousIncapability, item :: items =>
    if item.capabilityID = [] || item.incapabilityID = [] then .error .emptySortKey
    else if !first && (item.capabilityID < previousCapability ||
        (item.capabilityID = previousCapability &&
          item.incapabilityID ≤ previousIncapability)) then
      .error .notAscending
    else checkAscending false item.capabilityID item.incapabilityID items

/-- The checks of a document's bytes and top-level names that the verifiers begin with. -/
def topLevel (limit : ℕ) (names : List String) (document : List UInt8) :
    Except IdentityError (List UInt8 × Tree) :=
  match canonicalizeJSON document with
  | .error e => .error (.canonicalize e)
  | .ok canonical =>
    if limit < canonical.length then .error .byteLimit
    else
      match unmarshal canonical with
      | none => .error .topLevelShape
      | some tree =>
        match decodeMap tree with
        | none => .error .topLevelShape
        | some fields =>
          let fields := fields.getD []
          if fields.length ≠ names.length then .error .topLevelShape
          else
            match names.find? fun name => name.toList ∉ Json.names fields with
            | some name => .error (.missingMember name)
            | none => .ok (canonical, tree)

def catalogTopLevel : List String :=
  ["schema_version", "catalog_id", "logical_payload_sha256", "logical_payload_projection",
    "catalog_hash", "source_registry_hash", "items"]

def verifyCustomerIncapabilityCatalog (document : List UInt8) : Except IdentityError Unit := do
  let (canonical, tree) ← topLevel 1048576 catalogTopLevel document
  match decodeStruct (catalogFields true) true tree .zero with
  | none => .error .undecodable
  | some catalog => do
    validateCustomerIncapabilityCatalogShape catalog
    verifyContentIdentity canonical
    checkAscending true [] [] catalog.items.elems

/-- What is left of the verification once the document is read. -/
theorem verifyCustomerIncapabilityCatalog_of_decoded {document canonical : List UInt8} {tree : Tree}
    {catalog : CustomerIncapabilityCatalog}
    (htop : topLevel 1048576 catalogTopLevel document = .ok (canonical, tree))
    (hdecoded : decodeStruct (catalogFields true) true tree .zero = some catalog) :
    verifyCustomerIncapabilityCatalog document = (do
      validateCustomerIncapabilityCatalogShape catalog
      verifyContentIdentity canonical
      checkAscending true [] [] catalog.items.elems) := by
  unfold verifyCustomerIncapabilityCatalog
  rw [htop]
  show (match decodeStruct (catalogFields true) true tree .zero with
    | none => .error .undecodable
    | some catalog => do
      validateCustomerIncapabilityCatalogShape catalog
      verifyContentIdentity canonical
      checkAscending true [] [] catalog.items.elems : Except IdentityError Unit) = _
  rw [hdecoded]

end Catalog

end Canonical
