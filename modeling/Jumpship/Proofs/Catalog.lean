import Jumpship.Proofs.Projection

/-!
# What an accepted catalog fixes

The sort keys of its items determine their order, and its identity everything but the spelling of
the projection.
-/

namespace Canonical

open Go JsonText Unicode

/-! ## Accepted catalogs -/

section Catalog

/-- How the catalog verifier reads a document, its identity apart. -/
structure CatalogRead (document : List UInt8) (ms : Members)
    (catalog : CustomerIncapabilityCatalog) : Prop where
  denotes : Denotes document (.obj ms)
  names : ∀ k, k ∈ Json.names ms ↔ k ∈ catalogTopLevel.map String.toList
  decoded : decodeMembers (catalogFields true) true (sortedMembers ms) .zero = some catalog
  shape : validateCustomerIncapabilityCatalogShape catalog = .ok ()
  ascending : checkAscending true [] [] catalog.items.elems = .ok ()

theorem topLevel_eq_ok {limit : ℕ} {names : List String} (hnames : names.Nodup) (hne : names ≠ [])
    {document canonical : List UInt8} {tree : Tree}
    (h : topLevel limit names document = .ok (canonical, tree)) :
    canonicalizeJSON document = .ok canonical ∧ canonical.length ≤ limit ∧ ∃ ms,
      Denotes document (.obj ms) ∧ depth (.obj ms) ≤ maxNestingDepth ∧
      tree = .obj (sortedMembers ms) ∧ ∀ k, k ∈ Json.names ms ↔ k ∈ names.map String.toList := by
  unfold topLevel at h
  split at h
  · cases h
  rename_i canonical' hcanonical
  split_ifs at h with hlimit
  split at h
  · cases h
  rename_i tree' htree
  split at h
  · cases h
  rename_i fields hfields
  dsimp only at h
  split_ifs at h with hlen
  split at h
  · cases h
  rename_i hfind
  simp only [Except.ok.injEq, Prod.mk.injEq] at h
  obtain ⟨rfl, rfl⟩ := h
  obtain ⟨w, hw, rfl⟩ := canonicalizeJSON_eq_ok.1 hcanonical
  rw [unmarshal_canonicalForm hw.distinct] at htree
  split_ifs at htree with hdepth
  obtain rfl := Option.some.inj htree
  refine ⟨hcanonical, not_lt.1 hlimit, ?_⟩
  have hlength : (fields.getD []).length = names.length := not_not.1 hlen
  cases w with
  | obj ms =>
    rw [sortMembers_eq, decodeMap] at hfields
    obtain rfl := Option.some.inj hfields
    refine ⟨ms, hw, not_lt.1 hdepth, sortMembers_eq ms, fun k => ?_⟩
    have hsub : names.map String.toList ⊆ Json.names (sortedMembers ms) := by
      intro k hk
      obtain ⟨name, hname, rfl⟩ := List.mem_map.1 hk
      have := List.find?_eq_none.1 hfind name hname
      simpa using this
    have hnodup : (names.map String.toList).Nodup := hnames.map fun _ _ h => String.toList_injective h
    have hperm := (hnodup.subperm hsub).perm_of_length_le (by
      rw [List.length_map, Json.names, List.length_map]
      exact hlength.le)
    rw [hperm.mem_iff, (perm_names_sortedMembers ms).mem_iff]
  | null =>
    obtain rfl := Option.some.inj hfields
    exact absurd (List.length_eq_zero_iff.1 hlength.symm) hne
  | bool b => cases hfields
  | num n => cases hfields
  | str s => cases hfields
  | arr xs =>
    rw [Json.sortMembers_arr] at hfields
    cases hfields

theorem catalogRead {document : List UInt8}
    (h : verifyCustomerIncapabilityCatalog document = .ok ()) :
    ∃ ms catalog, CatalogRead document ms catalog ∧ verifyContentIdentity document = .ok () := by
  unfold verifyCustomerIncapabilityCatalog at h
  obtain ⟨⟨canonical, tree⟩, htop, h⟩ := bind_eq_ok.1 h
  obtain ⟨hcanonical, -, ms, hms, -, rfl, hnames⟩ := topLevel_eq_ok (by decide) (by decide) htop
  dsimp only at h
  split at h
  · cases h
  rename_i catalog hdecoded
  obtain ⟨hshape, h⟩ := bind_unit_eq_ok.1 h
  obtain ⟨hidentity, hascending⟩ := bind_unit_eq_ok.1 h
  rw [verifyContentIdentity_canonical hcanonical] at hidentity
  exact ⟨ms, catalog, ⟨hms, hnames, hdecoded, hshape, hascending⟩, hidentity⟩

/-- The names of a catalog are distinct, and no other spelling of one is decoded as a field. -/
theorem catalogTopLevel_names : (catalogTopLevel.map String.toList).Nodup ∧
    ∀ k ∈ catalogTopLevel.map String.toList, Plain (catalogFields true) k :=
  ⟨by decide +kernel, by decide +kernel⟩

theorem CatalogRead.plain {document : List UInt8} {ms : Members}
    {catalog : CustomerIncapabilityCatalog} (h : CatalogRead document ms catalog) :
    ∀ k ∈ Json.names (sortedMembers ms), Plain (catalogFields true) k := by
  intro k hk
  exact catalogTopLevel_names.2 k ((h.names k).1 ((perm_names_sortedMembers ms).mem_iff.1 hk))

/-- A field of the catalog holds what the member of its name was decoded to. -/
theorem CatalogRead.member {document : List UInt8} {ms : Members}
    {catalog : CustomerIncapabilityCatalog} (h : CatalogRead document ms catalog) {α : Type}
    {name : String} {get : CustomerIncapabilityCatalog → α}
    {set : CustomerIncapabilityCatalog → α → CustomerIncapabilityCatalog} {decode : Decoding α}
    (hmem : field name get set decode ∈ catalogFields true) (hget : ∀ s a, get (set s a) = a)
    (hothers : ∀ g ∈ catalogFields true, g.name ≠ name → Preserves g get)
    (hname : name ∈ catalogTopLevel) :
    ∃ v, ms.lookup name.toList = some v ∧
      decode (v.sortMembers KeyLE) (get .zero) = some (get catalog) := by
  have hdistinct := distinct_sortedMembers h.denotes.distinct
  have hnodup : ((catalogFields true).map StructField.name).Nodup := by decide
  have hdecoded := decodeMembers_get hmem hget
    (fun g hg heq => List.inj_on_of_nodup_map hnodup hg hmem heq) hothers
    (Json.distinct_obj.1 hdistinct).1 h.plain h.decoded
  rw [lookup_sortedMembers (Json.distinct_obj.1 h.denotes.distinct).1] at hdecoded
  rcases hlookup : ms.lookup name.toList with _ | v
  · exact absurd ((h.names _).2 (List.mem_map_of_mem hname)) (Json.lookup_eq_none.1 hlookup)
  · rw [hlookup] at hdecoded
    exact ⟨v, rfl, hdecoded⟩

/-- A string of the catalog that is not empty is that of the member. -/
theorem CatalogRead.string {document : List UInt8} {ms : Members}
    {catalog : CustomerIncapabilityCatalog} (h : CatalogRead document ms catalog)
    {name : String} {get : CustomerIncapabilityCatalog → List Char}
    {set : CustomerIncapabilityCatalog → List Char → CustomerIncapabilityCatalog}
    (hmem : field name get set decodeString ∈ catalogFields true)
    (hget : ∀ s a, get (set s a) = a)
    (hothers : ∀ g ∈ catalogFields true, g.name ≠ name → Preserves g get)
    (hname : name ∈ catalogTopLevel) (hzero : get .zero = []) (hne : get catalog ≠ []) :
    ms.lookup name.toList = some (.str (get catalog)) := by
  obtain ⟨v, hv, hdecoded⟩ := h.member hmem hget hothers hname
  rw [hv]
  cases v with
  | null => exact absurd (Option.some.inj hdecoded).symm (hzero ▸ hne)
  | str s => rw [← Option.some.inj hdecoded]
  | bool b => cases hdecoded
  | num n => cases hdecoded
  | arr xs =>
    rw [Json.sortMembers_arr] at hdecoded
    cases hdecoded
  | obj ns =>
    rw [Json.sortMembers_obj] at hdecoded
    cases hdecoded

theorem ne_nil_of_isSHA256Hex {value : List Char} (h : isSHA256Hex value = true) : value ≠ [] := by
  rintro rfl
  exact absurd h (by decide)

/-- What the shape check asks of a catalog. -/
structure CatalogShape (catalog : CustomerIncapabilityCatalog) : Prop where
  version : catalog.schemaVersion = "2.0.0".toList
  frozen : frozenProjection catalog.logicalPayloadProjection "customer_incapability_catalog"
    "catalog_id" "2.0.0"
    ["catalog_id", "catalog_hash", "logical_payload_sha256", "logical_payload_projection"]
    ["catalog_hash"] = true
  hashes : ∀ value ∈ [catalog.catalogID, catalog.logicalPayloadSHA256, catalog.catalogHash,
    catalog.sourceRegistryHash], isSHA256Hex value = true
  items : catalog.items.elems ≠ []

theorem catalogShape {catalog : CustomerIncapabilityCatalog}
    (h : validateCustomerIncapabilityCatalogShape catalog = .ok ()) : CatalogShape catalog := by
  unfold validateCustomerIncapabilityCatalogShape at h
  split_ifs at h with hfrozen hhashes hcount
  simp only [Bool.or_eq_true, decide_eq_true_eq, ne_eq, Bool.not_eq_true', not_or, not_not,
    Bool.not_eq_false] at hfrozen
  simp only [Bool.not_eq_true', Bool.not_eq_false] at hhashes
  simp only [Bool.or_eq_true, decide_eq_true_eq, not_or, not_lt] at hcount
  refine ⟨hfrozen.1, hfrozen.2, fun value hvalue => ?_, ?_⟩
  · exact List.all_eq_true.1 hhashes value hvalue
  · exact List.ne_nil_of_length_pos hcount.1

section Members

variable {document : List UInt8} {ms : Members} {catalog : CustomerIncapabilityCatalog}
  (h : CatalogRead document ms catalog)
include h

theorem CatalogRead.schemaVersion :
    ms.lookup "schema_version".toList = some (.str "2.0.0".toList) := by
  have hversion := (catalogShape h.shape).version
  have hmember := @CatalogRead.string _ _ _ h "schema_version" (·.schemaVersion)
    (fun c v => { c with schemaVersion := v }) (by simp [catalogFields]) (fun _ _ => rfl) (by simp [catalogFields, preserves_field])
    (by decide) rfl (by rw [hversion]; decide)
  rw [hmember, hversion]

theorem CatalogRead.sourceRegistryHash :
    ms.lookup "source_registry_hash".toList = some (.str catalog.sourceRegistryHash) :=
  @CatalogRead.string _ _ _ h "source_registry_hash" (·.sourceRegistryHash)
    (fun c v => { c with sourceRegistryHash := v }) (by simp [catalogFields]) (fun _ _ => rfl) (by simp [catalogFields, preserves_field])
    (by decide) rfl (ne_nil_of_isSHA256Hex ((catalogShape h.shape).hashes _ (by simp)))

theorem CatalogRead.items :
    ∃ xs, ms.lookup "items".toList = some (.arr xs) ∧
      (xs.map (Json.sortMembers KeyLE)).mapM (decodeStruct itemFields true · .zero)
        = some catalog.items.elems := by
  have hmem : field "items" (·.items) (fun c v => { c with items := v })
      (decodeSlice .zero (decodeStruct itemFields true)) ∈ catalogFields true := by
    simp [catalogFields]
  obtain ⟨v, hv, hdecoded⟩ := h.member hmem (fun _ _ => rfl) (by simp [catalogFields, preserves_field])
    (by decide)
  obtain ⟨-, hnil⟩ | ⟨ys, hys, hitems⟩ := decodeSlice_nil hdecoded
  · exact absurd (congrArg Slice.elems hnil) (catalogShape h.shape).items
  · cases v with
    | arr xs =>
      rw [Json.sortMembers_arr] at hys
      rw [← Json.arr.inj hys] at hitems
      exact ⟨xs, hv, hitems⟩
    | null => cases hys
    | bool b => cases hys
    | num n => cases hys
    | str s => cases hys
    | obj ns =>
      rw [Json.sortMembers_obj] at hys
      cases hys

theorem CatalogRead.projection : ∃ v, ms.lookup logicalPayloadProjection = some v ∧
    decodeStruct projectionFields true (v.sortMembers KeyLE) .zero
      = some catalog.logicalPayloadProjection := by
  have hmem : field "logical_payload_projection" (·.logicalPayloadProjection)
      (fun c v => { c with logicalPayloadProjection := v })
      (decodeStruct projectionFields true) ∈ catalogFields true := by
    simp [catalogFields]
  exact h.member hmem (fun _ _ => rfl) (by simp [catalogFields, preserves_field])
    (by decide)

end Members

end Catalog

/-! ## The order of the items -/

section Order

def CustomerIncapabilityCatalogItem.sortKey (item : CustomerIncapabilityCatalogItem) :
    List Char ×ₗ List Char :=
  toLex (item.capabilityID, item.incapabilityID)

theorem checkAscending_eq_ok : ∀ {items : List CustomerIncapabilityCatalogItem}
    {capability incapability : List Char},
    checkAscending false capability incapability items = .ok () →
      (∀ item ∈ items, toLex (capability, incapability) < item.sortKey) ∧
        items.Pairwise fun i j => i.sortKey < j.sortKey
  | [], _, _, _ => ⟨by simp, .nil⟩
  | item :: items, capability, incapability, h => by
    rw [checkAscending] at h
    split_ifs at h with hempty hle
    simp only [Bool.not_false, Bool.true_and, Bool.or_eq_true, Bool.and_eq_true, decide_eq_true_eq,
      not_or, not_and, not_lt, not_le] at hle
    have hfirst : toLex (capability, incapability) < item.sortKey := by
      refine Prod.Lex.toLex_lt_toLex.2 ?_
      rcases hle.1.lt_or_eq with hlt | heq
      · exact .inl hlt
      · exact .inr ⟨heq, hle.2 heq.symm⟩
    obtain ⟨hrest, hpairs⟩ := checkAscending_eq_ok h
    refine ⟨List.forall_mem_cons.2 ⟨hfirst, fun i hi => hfirst.trans (hrest i hi)⟩, ?_⟩
    exact List.pairwise_cons.2 ⟨hrest, hpairs⟩

/-- The items of an accepted catalog ascend strictly by their sort keys. -/
theorem pairwise_of_checkAscending {items : List CustomerIncapabilityCatalogItem}
    (h : checkAscending true [] [] items = .ok ()) :
    items.Pairwise fun i j => i.sortKey < j.sortKey := by
  cases items with
  | nil => exact .nil
  | cons item items =>
    rw [checkAscending] at h
    split_ifs at h with hempty hle
    obtain ⟨hrest, hpairs⟩ := checkAscending_eq_ok h
    exact List.pairwise_cons.2 ⟨hrest, hpairs⟩

/-- Two lists with the same elements that both ascend strictly by a key are one list. -/
theorem eq_of_ascending {α κ : Type} [Preorder κ] {key : α → κ} {xs ys : List α}
    (hxs : xs.Pairwise fun x y => key x < key y) (hys : ys.Pairwise fun x y => key x < key y)
    (hmem : ∀ x, x ∈ xs ↔ x ∈ ys) : xs = ys := by
  have hnodup : ∀ {zs : List α}, (zs.Pairwise fun x y => key x < key y) → zs.Nodup :=
    fun h => h.imp fun hlt heq => absurd (heq ▸ hlt) (lt_irrefl _)
  have hperm : xs.Perm ys := (List.perm_ext_iff_of_nodup (hnodup hxs) (hnodup hys)).2 hmem
  exact hperm.eq_of_pairwise (fun _ _ _ _ hxy hyx => absurd hyx (lt_asymm hxy)) hxs hys

/-- The sort key of an item, as the decoder reads it. -/
def sortKeyOf (item : Tree) : Option (List Char × List Char) :=
  (decodeStruct itemFields true (item.sortMembers KeyLE) .zero).map fun i =>
    (i.capabilityID, i.incapabilityID)

/-- The same items, in any order. -/
def SameItems (xs ys : List Tree) : Prop :=
  (∀ x ∈ xs, ∃ y ∈ ys, x.Same y) ∧ ∀ y ∈ ys, ∃ x ∈ xs, x.Same y

theorem mapM_eq_some_iff {α β : Type} {f : α → Option β} : ∀ {xs : List α} {ys : List β},
    xs.mapM f = some ys ↔ List.Forall₂ (fun x y => f x = some y) xs ys
  | [], ys => by simp [eq_comm]
  | x :: xs, ys => by
    rw [List.mapM_cons]
    simp only [Option.bind_eq_bind, Option.bind_eq_some_iff, mapM_eq_some_iff, Option.pure_def,
      Option.some.injEq]
    constructor
    · rintro ⟨y, hy, ys', hys, rfl⟩
      exact .cons hy hys
    · rintro (_ | ⟨hy, hys⟩)
      exact ⟨_, hy, _, hys, rfl⟩

/-- The items of an accepted catalog, in canonical form, ascend strictly by their sort keys. -/
theorem pairwise_sortKey {xs : List Tree} {items : List CustomerIncapabilityCatalogItem}
    (hdecoded : xs.mapM (decodeStruct itemFields true · .zero) = some items)
    (hpairs : items.Pairwise fun i j => i.sortKey < j.sortKey) :
    xs.Pairwise fun x y =>
      ((decodeStruct itemFields true x .zero).map CustomerIncapabilityCatalogItem.sortKey).getD
          (toLex ([], [])) <
        ((decodeStruct itemFields true y .zero).map CustomerIncapabilityCatalogItem.sortKey).getD
          (toLex ([], [])) := by
  rw [mapM_eq_some_iff] at hdecoded
  have hkeys : xs.map (fun x => ((decodeStruct itemFields true x .zero).map
      CustomerIncapabilityCatalogItem.sortKey).getD (toLex ([], [])))
        = items.map CustomerIncapabilityCatalogItem.sortKey := by
    induction hdecoded with
    | nil => rfl
    | cons hx _ ih => rw [List.map_cons, List.map_cons, ih (List.pairwise_cons.1 hpairs).2, hx]; rfl
  rw [← List.pairwise_map, ← hkeys, List.pairwise_map] at hpairs
  exact hpairs

/-- Two accepted lists of the same items are the same list. -/
theorem forall₂_of_sameItems {xs ys : List Tree} {items jtems : List CustomerIncapabilityCatalogItem}
    (hxs : ∀ x ∈ xs, x.Distinct) (hys : ∀ y ∈ ys, y.Distinct)
    (hitems : (xs.map (Json.sortMembers KeyLE)).mapM (decodeStruct itemFields true · .zero)
      = some items)
    (hjtems : (ys.map (Json.sortMembers KeyLE)).mapM (decodeStruct itemFields true · .zero)
      = some jtems)
    (hi : items.Pairwise fun i j => i.sortKey < j.sortKey)
    (hj : jtems.Pairwise fun i j => i.sortKey < j.sortKey) (hsame : SameItems xs ys) :
    List.Forall₂ Json.Same xs ys := by
  have hcanonical : xs.map (Json.sortMembers KeyLE) = ys.map (Json.sortMembers KeyLE) := by
    refine eq_of_ascending (pairwise_sortKey hitems hi) (pairwise_sortKey hjtems hj) fun t => ?_
    simp only [List.mem_map]
    constructor
    · rintro ⟨x, hx, rfl⟩
      obtain ⟨y, hy, hxy⟩ := hsame.1 x hx
      exact ⟨y, hy, ((Json.same_iff_sortMembers KeyLE (hxs x hx) (hys y hy)).1 hxy).symm⟩
    · rintro ⟨y, hy, rfl⟩
      obtain ⟨x, hx, hxy⟩ := hsame.2 y hy
      exact ⟨x, hx, (Json.same_iff_sortMembers KeyLE (hxs x hx) (hys y hy)).1 hxy⟩
  rw [← List.forall₂_eq_eq_eq, List.forall₂_map_left_iff, List.forall₂_map_right_iff] at hcanonical
  clear hitems hjtems hsame
  induction hcanonical with
  | nil => exact .nil
  | cons hxy _ ih =>
    obtain ⟨hx, hxs⟩ := List.forall_mem_cons.1 hxs
    obtain ⟨hy, hys⟩ := List.forall_mem_cons.1 hys
    exact .cons ((Json.same_iff_sortMembers KeyLE hx hy).2 hxy) (ih hxs hys)

end Order

/-! ## What is hashed for a catalog -/

section Payload

/-- The frozen projection of a catalog. -/
def catalogProjection : LogicalPayloadProjection where
  objectType := "customer_incapability_catalog".toList
  idField := "catalog_id".toList
  objectSchemaVersion := "2.0.0".toList
  canonicalEncoder := "RFC8785_JCS".toList
  domainSeparator := domainSeparator "customer_incapability_catalog".toList "2.0.0".toList
  excludedFields := ⟨["catalog_id", "catalog_hash", "logical_payload_sha256",
    "logical_payload_projection"].map String.toList, []⟩
  equivalentDigestFields := ⟨["catalog_hash"].map String.toList, []⟩
  idEncoding := "lowercase_hex_sha256".toList
  idEqualsLogicalPayloadSHA256 := true

variable {document : List UInt8} {ms : Members} {catalog : CustomerIncapabilityCatalog}

theorem declares_catalogProjection : Declares catalogProjection ∧
    validDomainToken (utf8 catalogProjection.objectType) = true ∧
    validSchemaVersion (utf8 catalogProjection.objectSchemaVersion) = true := by
  refine ⟨?_, by decide +kernel, by decide +kernel⟩
  constructor <;> decide +kernel

theorem declares_of_frozen (h : CatalogRead document ms catalog) :
    Declares catalog.logicalPayloadProjection := by
  have hfrozen := (catalogShape h.shape).frozen
  simp only [frozenProjection, Bool.and_eq_true, decide_eq_true_eq] at hfrozen
  obtain ⟨⟨⟨⟨⟨⟨⟨⟨htype, hid⟩, hversion⟩, hencoder⟩, hseparator⟩, hencoding⟩, hflag⟩, hexcluded⟩,
    hequivalent⟩ := hfrozen
  have hdeclares := declares_catalogProjection.1
  refine ⟨hencoder, hencoding, hflag, ?_, ?_, ?_, ?_, ?_, ?_, ?_⟩
  · rw [hseparator, htype, hversion]
  · rw [hexcluded]
    exact hdeclares.excluded_ne
  · rw [hexcluded]
    exact hdeclares.excluded_nodup
  · rw [hid, hexcluded]
    exact hdeclares.excludes
  · rw [hequivalent]
    exact hdeclares.equivalent_ne
  · rw [hequivalent]
    exact hdeclares.equivalent_nodup
  · rw [hequivalent, hexcluded]
    exact hdeclares.equivalent_excluded

/-- The identity of a catalog is proved by its digest in all its digest fields. -/
theorem CatalogRead.identity_iff (h : CatalogRead document ms catalog) :
    verifyContentIdentity document = .ok () ↔ depth (.obj ms) ≤ maxNestingDepth ∧
      ∀ f ∈ catalogProjection.digestFields,
        ms.lookup f = some (.str (catalogProjection.digest ms)) := by
  have hdeclares := declares_of_frozen h
  have hfrozen := (catalogShape h.shape).frozen
  simp only [frozenProjection, Bool.and_eq_true, decide_eq_true_eq] at hfrozen
  obtain ⟨⟨⟨⟨⟨⟨⟨⟨htype, hid⟩, hversion⟩, -⟩, -⟩, -⟩, -⟩, hexcluded⟩, hequivalent⟩ := hfrozen
  have hdigest : catalog.logicalPayloadProjection.digest ms = catalogProjection.digest ms :=
    congrArg (fun bytes => Hex.encodeToString (Sha256.sha256 bytes))
      (hashedBytes_congr htype hversion hexcluded ms)
  have hnames : catalog.logicalPayloadProjection.digestFields = catalogProjection.digestFields := by
    rw [LogicalPayloadProjection.digestFields, hid, hequivalent]
    rfl
  obtain ⟨v, hv, hdecoded⟩ := h.projection
  rw [verifyContentIdentity_iff]
  constructor
  · rintro ⟨ms', raw, p, hms, hdepth, hraw, hp, -, -, -, hfields⟩
    obtain rfl := Json.obj.inj (denotes_unique hms h.denotes)
    obtain rfl := Option.some.inj (hv.symm.trans hraw)
    obtain rfl := Option.some.inj (hp.symm.trans (decodeStruct_allow hdecoded))
    rw [hdigest, hnames] at hfields
    exact ⟨hdepth, hfields⟩
  · rintro ⟨hdepth, hfields⟩
    refine ⟨ms, v, _, h.denotes, hdepth, hv, decodeStruct_allow hdecoded, hdeclares, ?_, ?_, ?_⟩
    · rw [htype]
      exact declares_catalogProjection.2.1
    · rw [hversion]
      exact declares_catalogProjection.2.2
    · rw [hdigest, hnames]
      exact hfields

/-- The members of a catalog that are hashed. -/
def catalogPayload : List (List Char) :=
  ["schema_version", "source_registry_hash", "items"].map String.toList

theorem catalogPayload_eq : catalogPayload = (catalogTopLevel.map String.toList).filter fun k =>
    !catalogProjection.excludedFields.elems.contains k := by
  decide +kernel

theorem mem_catalogPayload {k : List Char} : k ∈ catalogPayload ↔
    k ∈ catalogTopLevel.map String.toList ∧ k ∉ catalogProjection.excludedFields.elems := by
  rw [catalogPayload_eq, List.mem_filter]
  simp

theorem CatalogRead.hashed (h : CatalogRead document ms catalog) {k : List Char}
    (hk : k ∉ catalogProjection.excludedFields.elems) : k ∈ catalogPayload ∨ ms.lookup k = none := by
  by_cases hname : k ∈ catalogTopLevel.map String.toList
  · exact .inl (mem_catalogPayload.2 ⟨hname, hk⟩)
  · exact .inr (Json.lookup_eq_none.2 fun hmem => hname ((h.names k).1 hmem))

theorem digest_congr {p : LogicalPayloadProjection} {ms ns : Members}
    (h : hashedBytes p ms = hashedBytes p ns) : p.digest ms = p.digest ns :=
  congrArg (fun bytes => Hex.encodeToString (Sha256.sha256 bytes)) h

/-- Catalogs with the same items and the same source registry have the same identity. -/
theorem CatalogRead.hashedBytes_eq {document' : List UInt8} {ns : Members}
    {catalog' : CustomerIncapabilityCatalog} (h : CatalogRead document ms catalog)
    (h' : CatalogRead document' ns catalog')
    (hsource : ms.lookup "source_registry_hash".toList = ns.lookup "source_registry_hash".toList)
    (hitems : Option.Rel Json.Same (ms.lookup "items".toList) (ns.lookup "items".toList)) :
    hashedBytes catalogProjection ms = hashedBytes catalogProjection ns := by
  refine (hashedBytes_eq_iff h.denotes.distinct h'.denotes.distinct _).2 fun k hk => ?_
  rcases h.hashed hk with hmem | hnone
  · simp only [catalogPayload, List.map_cons, List.map_nil, List.mem_cons, List.not_mem_nil,
      or_false] at hmem
    rcases hmem with rfl | rfl | rfl
    · rw [h.schemaVersion, h'.schemaVersion]
      exact .some rfl
    · rw [← hsource, h.sourceRegistryHash]
      exact .some rfl
    · exact hitems
  · rcases h'.hashed hk with hmem | hnone'
    · exact absurd ((h.names k).2 (mem_catalogPayload.1 hmem).1) (Json.lookup_eq_none.1 hnone)
    · rw [hnone, hnone']
      exact .none

end Payload

/-! ## Writing a catalog -/

section Sample

mutual
/-- No canonical form is longer. -/
def sizeBound : Tree → ℕ
  | .null => 4
  | .bool _ => 5
  | .num n => (numberText n).length
  | .str s => 6 * s.length + 2
  | .arr xs => sizeBoundList xs + 2
  | .obj ms => sizeBoundMembers ms + 2
def sizeBoundList : List Tree → ℕ
  | [] => 0
  | x :: xs => sizeBound x + 1 + sizeBoundList xs
def sizeBoundMembers : Members → ℕ
  | [] => 0
  | (k, x) :: ms => 6 * k.length + 3 + sizeBound x + 1 + sizeBoundMembers ms
end

theorem length_writeString (s : List Char) : (writeString appendRune s).length ≤ 6 * s.length + 2 := by
  have hrune : ∀ c, (appendRune c).length ≤ 6 := by
    intro c
    unfold appendRune
    split_ifs <;> simp
  have hflat : (s.flatMap appendRune).length ≤ 6 * s.length := by
    induction s with
    | nil => simp
    | cons c s ih =>
      have := hrune c
      simp only [List.flatMap_cons, List.length_append, List.length_cons]
      omega
  simp only [writeString, List.length_cons, List.length_append, List.length_nil]
  omega

theorem length_joinComma (ts : List (List Char)) :
    (joinComma ts).length ≤ (ts.map fun t => t.length + 1).sum := by
  induction ts with
  | nil => simp
  | cons t ts ih =>
    cases ts with
    | nil => simp
    | cons u ts =>
      rw [joinComma_cons_cons, List.map_cons, List.sum_cons]
      simp only [List.length_append, List.length_cons]
      omega

theorem length_write (v : Tree) : (write appendRune numberText v).length ≤ sizeBound v := by
  induction v using Json.induct with
  | null | num n => exact le_rfl
  | bool b => cases b <;> decide
  | str s => exact length_writeString s
  | arr xs ih =>
    have hsum : ((xs.map (write appendRune numberText)).map fun t => t.length + 1).sum
        ≤ sizeBoundList xs := by
      induction xs with
      | nil => simp
      | cons x xs ihxs =>
        obtain ⟨hx, hxs⟩ := List.forall_mem_cons.1 ih
        have := ihxs hxs
        simp only [List.map_cons, List.sum_cons, sizeBoundList]
        omega
    have := length_joinComma (xs.map (write appendRune numberText))
    rw [write, writeElements_eq, sizeBound]
    simp only [List.length_cons, List.length_append, List.length_nil]
    omega
  | obj ms ih =>
    have hsum : ((ms.map fun m => writeMember appendRune (m.1, write appendRune numberText m.2)).map
        fun t => t.length + 1).sum ≤ sizeBoundMembers ms := by
      induction ms with
      | nil => simp
      | cons m ms ihms =>
        obtain ⟨k, x⟩ := m
        obtain ⟨hx, hms⟩ := List.forall_mem_cons.1 ih
        have hmember : (writeMember appendRune (k, write appendRune numberText x)).length
            = (writeString appendRune k).length + 1 + (write appendRune numberText x).length := by
          simp only [writeMember, List.length_append, List.length_cons]
          omega
        have hvalue : (write appendRune numberText x).length ≤ sizeBound x := hx
        have := ihms hms
        have := length_writeString k
        rw [List.map_cons, List.map_cons, List.sum_cons, hmember, sizeBoundMembers]
        omega
    have := length_joinComma (ms.map fun m =>
      writeMember appendRune (m.1, write appendRune numberText m.2))
    rw [write, writeMembers_eq, List.map_map, sizeBound]
    simp only [Function.comp_def, List.length_cons, List.length_append, List.length_nil]
    omega

theorem length_utf8_le (s : List Char) : (utf8 s).length ≤ 4 * s.length := by
  induction s with
  | nil => simp
  | cons c s ih =>
    have hchar : (String.utf8EncodeChar c).length ≤ 4 := by
      rw [String.length_utf8EncodeChar]
      exact Char.utf8Size_le_four c
    rw [utf8_cons, List.length_append, List.length_cons]
    omega

/-- A document read as a catalog is accepted if it is short enough. -/
theorem verifyCustomerIncapabilityCatalog_of_read {document : List UInt8} {ms : Members}
    {catalog : CustomerIncapabilityCatalog} (h : CatalogRead document ms catalog)
    (hidentity : verifyContentIdentity document = .ok ())
    (hsize : 4 * sizeBound (.obj (sortedMembers ms)) ≤ 1048576) :
    verifyCustomerIncapabilityCatalog document = .ok () := by
  have hcanonical := canonicalizeJSON_eq_ok.2 ⟨_, h.denotes, rfl⟩
  have hlength : (utf8 (canonicalForm (.obj ms))).length ≤ 1048576 := by
    have hform := length_write (.obj (sortedMembers ms))
    have hbytes := length_utf8_le (canonicalForm (.obj ms))
    rw [canonicalForm, sortMembers_eq] at hbytes ⊢
    omega
  have hdepth := (h.identity_iff.1 hidentity).1
  have hnodup := (Json.distinct_obj.1 h.denotes.distinct).1
  have hcount : (sortedMembers ms).length = catalogTopLevel.length := by
    have hperm : (Json.names ms).Perm (catalogTopLevel.map String.toList) :=
      (List.perm_ext_iff_of_nodup hnodup catalogTopLevel_names.1).2 h.names
    rw [← List.length_map Prod.fst]
    refine ((perm_names_sortedMembers ms).trans hperm).length_eq.trans ?_
    rw [List.length_map]
  have htop : topLevel 1048576 catalogTopLevel document
      = .ok (utf8 (canonicalForm (.obj ms)), .obj (sortedMembers ms)) := by
    unfold topLevel
    rw [hcanonical]
    dsimp only
    rw [if_neg (not_lt.2 hlength), unmarshal_canonicalForm h.denotes.distinct,
      if_neg (not_lt.2 hdepth), sortMembers_eq]
    dsimp only [decodeMap, Option.getD_some]
    rw [if_neg (not_not.2 hcount)]
    have hfind : (catalogTopLevel.find? fun name =>
        decide (name.toList ∉ Json.names (sortedMembers ms))) = none := by
      refine List.find?_eq_none.2 fun name hname => ?_
      have hmem := (h.names name.toList).2 (List.mem_map_of_mem hname)
      simpa using (perm_names_sortedMembers ms).mem_iff.2 hmem
    rw [hfind]
  rw [verifyCustomerIncapabilityCatalog_of_decoded htop h.decoded, h.shape,
    verifyContentIdentity_canonical hcanonical, hidentity, h.ascending]
  rfl

def sampleHash : List Char := List.replicate 64 '0'

def sampleText (value : String) : Tree := .str value.toList

def sampleTexts (values : List String) : Tree := .arr (values.map sampleText)

def sampleItem : Tree :=
  .obj [("capability_id".toList, sampleText "MVP-CAP-A1"),
    ("incapability_id".toList, sampleText "i"), ("operation_id".toList, sampleText "o"),
    ("reason_code".toList, sampleText "r"), ("safe_explanation".toList, sampleText "e"),
    ("safe_remediation".toList, sampleText "m"),
    ("required_human_surface".toList, sampleText "support"),
    ("coding_agent_denied".toList, .bool true),
    ("structural_denial_contract_ids".toList, sampleTexts ["d"]),
    ("negative_test_receipt_hashes".toList, .arr [.str sampleHash])]

/-- The frozen projection of a catalog, written out. -/
def projectionMembers : Members :=
  [("object_type".toList, sampleText "customer_incapability_catalog"),
    ("id_field".toList, sampleText "catalog_id"),
    ("object_schema_version".toList, sampleText "2.0.0"),
    ("canonical_encoder".toList, sampleText "RFC8785_JCS"),
    ("domain_separator".toList, .str catalogProjection.domainSeparator),
    ("excluded_fields".toList, .arr (catalogProjection.excludedFields.elems.map .str)),
    ("equivalent_digest_fields".toList,
      .arr (catalogProjection.equivalentDigestFields.elems.map .str)),
    ("id_encoding".toList, sampleText "lowercase_hex_sha256"),
    ("id_equals_logical_payload_sha256".toList, .bool true)]

def sampleDigest : List Char :=
  "0b34356a25100f11dc934037211ef0bf".toList ++ "33366864a53ecbd314f0838dfed7eefe".toList

def sampleCatalog (projection : Members) : Members :=
  [("schema_version".toList, sampleText "2.0.0"), ("catalog_id".toList, .str sampleDigest),
    ("logical_payload_sha256".toList, .str sampleDigest),
    ("logical_payload_projection".toList, .obj projection),
    ("catalog_hash".toList, .str sampleDigest), ("source_registry_hash".toList, .str sampleHash),
    ("items".toList, .arr [sampleItem])]

def sampleDocument (projection : Members) : List UInt8 :=
  documentOf (.obj (sampleCatalog projection))

/-- The frozen projection with a member that `id_field` overrides. -/
def overriddenMembers : Members := ("Id_field".toList, sampleText "x") :: projectionMembers

/-- What is evaluated for a sample: it can be read, and is small and flat enough to be written. -/
structure Sampled (projection : Members) : Prop where
  distinct : (Json.obj (sampleCatalog projection)).Distinct
  depth_le : depth (.obj (sampleCatalog projection)) ≤ maxNestingDepth
  size_le : 4 * sizeBound (.obj (sortedMembers (sampleCatalog projection))) ≤ 1048576
  read : (decodeMembers (catalogFields true) true (sortedMembers (sampleCatalog projection))
    .zero).any (fun catalog =>
      decide (validateCustomerIncapabilityCatalogShape catalog = .ok ()) &&
        decide (checkAscending true [] [] catalog.items.elems = .ok ())) = true

theorem sampled : catalogProjection.digest (sampleCatalog []) = sampleDigest ∧
    Sampled projectionMembers ∧ Sampled overriddenMembers := by
  refine ⟨by decide +kernel, ?_, ?_⟩
  · constructor <;> decide +kernel
  · constructor <;> decide +kernel

theorem digest_sampleCatalog (projection : Members) :
    catalogProjection.digest (sampleCatalog projection) = sampleDigest := by
  have hpayload : catalogProjection.payload (sampleCatalog projection)
      = catalogProjection.payload (sampleCatalog []) := rfl
  rw [LogicalPayloadProjection.digest, hashedBytes, hpayload]
  exact sampled.1

theorem mem_sampleCatalog {projection : Members} :
    ∀ f ∈ catalogProjection.digestFields, (f, .str sampleDigest) ∈ sampleCatalog projection :=
  List.forall_mem_cons.2 ⟨.tail _ (.head _), List.forall_mem_cons.2 ⟨.tail _ (.tail _ (.head _)),
    List.forall_mem_cons.2 ⟨.tail _ (.tail _ (.tail _ (.tail _ (.head _)))), by simp⟩⟩⟩

/-- A catalog with a projection that decodes to the frozen one is accepted. -/
theorem sampleDocument_accepted {projection : Members} (hsampled : Sampled projection) :
    verifyCustomerIncapabilityCatalog (sampleDocument projection) = .ok () := by
  obtain ⟨catalog, hdecoded, hchecks⟩ := (Option.any_eq_true _ _).1 hsampled.read
  rw [Bool.and_eq_true, decide_eq_true_eq, decide_eq_true_eq] at hchecks
  have h : CatalogRead (sampleDocument projection) (sampleCatalog projection) catalog :=
    ⟨denotes_documentOf hsampled.distinct, fun _ => Iff.rfl, hdecoded, hchecks.1, hchecks.2⟩
  refine verifyCustomerIncapabilityCatalog_of_read h (h.identity_iff.2
    ⟨hsampled.depth_le, fun f hf => ?_⟩) hsampled.size_le
  have hmem : (f, .str sampleDigest) ∈ sampleCatalog projection := mem_sampleCatalog f hf
  exact (Json.lookup_of_mem (Json.distinct_obj.1 hsampled.distinct).1 hmem).trans
    (congrArg (fun digest => some (Json.str digest)) (digest_sampleCatalog projection).symm)

end Sample

/-! ## The order of the items is not the document's to choose -/

section OrderFree

theorem sameList_of_forall₂ {xs ys : List Tree} (h : List.Forall₂ Json.Same xs ys) :
    Json.SameList xs ys := by
  induction h with
  | nil => rfl
  | cons hxy _ ih => exact ⟨_, _, rfl, hxy, ih⟩

theorem sampleDocument_projectionMembers :
    verifyCustomerIncapabilityCatalog (sampleDocument projectionMembers) = .ok () :=
  sampleDocument_accepted sampled.2.1

end OrderFree

/-! ## Everything but the spelling of the projection is fixed -/

section Determined

variable {document : List UInt8} {ms : Members} {catalog : CustomerIncapabilityCatalog}

theorem CatalogRead.projectionObject (h : CatalogRead document ms catalog) :
    ∃ raw, ms.lookup logicalPayloadProjection = some (.obj raw) := by
  obtain ⟨v, hv, hdecoded⟩ := h.projection
  have hzero : catalog.logicalPayloadProjection ≠ .zero := by
    intro heq
    exact absurd (heq ▸ (declares_of_frozen h).encoder) (by decide)
  cases v with
  | obj raw => exact ⟨raw, hv⟩
  | null => exact absurd (Option.some.inj hdecoded).symm hzero
  | bool b => cases hdecoded
  | num n => cases hdecoded
  | str s => cases hdecoded
  | arr xs =>
    rw [Json.sortMembers_arr] at hdecoded
    cases hdecoded

/-- What is not hashed is a digest or the projection. -/
theorem mem_excluded : ∀ k ∈ catalogProjection.excludedFields.elems,
    k ∈ catalogProjection.digestFields ∨ k = logicalPayloadProjection := by
  decide +kernel

/-- A projection without further names stands in an accepted catalog as it is written out here. -/
theorem CatalogRead.lookup_projection (h : CatalogRead document ms catalog) {raw : Members}
    (hraw : ms.lookup logicalPayloadProjection = some (.obj raw))
    (hnames : ∀ k ∈ Json.names raw, k ∈ Json.names projectionMembers) (k : List Char) :
    raw.lookup k = projectionMembers.lookup k := by
  have hdistinct := (Json.distinct_obj.1 h.denotes.distinct).2 _ (Json.mem_of_lookup hraw)
  have hnodup := (Json.distinct_obj.1 hdistinct).1
  have hplain : ∀ k ∈ Json.names projectionMembers, Plain projectionFields k := by decide +kernel
  obtain ⟨v, hv, hdecoded⟩ := h.projection
  obtain rfl := Option.some.inj (hv.symm.trans hraw)
  rw [sortMembers_eq] at hdecoded
  have hread := projectionDecoded ((perm_names_sortedMembers raw).nodup_iff.2 hnodup)
    (fun k hk => hplain k (hnames k ((perm_names_sortedMembers raw).mem_iff.1 hk))) hdecoded
  have hdeclares := declares_of_frozen h
  have hfrozen := (catalogShape h.shape).frozen
  simp only [frozenProjection, Bool.and_eq_true, decide_eq_true_eq] at hfrozen
  obtain ⟨⟨⟨⟨⟨⟨⟨⟨htype, hid⟩, hversion⟩, hencoder⟩, hseparator⟩, hencoding⟩, hflag⟩, hexcluded⟩,
    hequivalent⟩ := hfrozen
  have hexact := exactProjection_of_decoded hnodup hread hdeclares
    (hdeclares.full (htype ▸ declares_catalogProjection.2.1)
      (hversion ▸ declares_catalogProjection.2.2))
  by_cases hk : k ∈ Json.names projectionMembers
  · simp only [projectionMembers, Json.names_cons, Json.names_nil, List.mem_cons, List.not_mem_nil,
      or_false] at hk
    rcases hk with rfl | rfl | rfl | rfl | rfl | rfl | rfl | rfl | rfl
    · rw [hexact.objectType, htype]
      rfl
    · rw [hexact.idField, hid]
      rfl
    · rw [hexact.objectSchemaVersion, hversion]
      rfl
    · rw [hexact.canonicalEncoder, hencoder]
      rfl
    · rw [hexact.domainSeparator, hseparator]
      rfl
    · rw [hexact.excludedFields, hexcluded]
      rfl
    · rcases hexact.equivalentDigestFields with hlist | ⟨hempty, -⟩
      · rw [hlist, hequivalent]
        rfl
      · rw [hequivalent] at hempty
        cases hempty
    · rw [hexact.idEncoding, hencoding]
      rfl
    · rw [hexact.idEqualsLogicalPayloadSHA256, hflag]
      rfl
  · rw [Json.lookup_eq_none.2 hk, Json.lookup_eq_none.2 fun hmem => hk (hnames k hmem)]

theorem rel_same_self {v : Option Tree} (h : ∀ w, v = some w → w.Distinct) :
    Option.Rel Json.Same v v := by
  cases v with
  | none => exact .none
  | some w => exact .some ((Json.same_iff_sortMembers KeyLE (h w rfl) (h w rfl)).2 rfl)

/-- Two accepted catalogs of one identity have one canonical form exactly when their projections are
the same value, which projections without further names always are. -/
theorem verifyCustomerIncapabilityCatalog_determined {a b : List UInt8}
    (ha : verifyCustomerIncapabilityCatalog a = .ok ())
    (hb : verifyCustomerIncapabilityCatalog b = .ok ()) :
    ∃ v w pv pw, Denotes a (.obj v) ∧ Denotes b (.obj w) ∧
      v.lookup logicalPayloadProjection = some (.obj pv) ∧
      w.lookup logicalPayloadProjection = some (.obj pw) ∧
      (v.lookup "catalog_id".toList = w.lookup "catalog_id".toList →
        (Sha256.sha256 (hashedBytes catalogProjection v)
            = Sha256.sha256 (hashedBytes catalogProjection w) →
          hashedBytes catalogProjection v = hashedBytes catalogProjection w) →
        (canonicalizeJSON a = canonicalizeJSON b ↔ (Json.obj pv).Same (.obj pw))) ∧
      ((∀ k ∈ Json.names pv ++ Json.names pw, k ∈ Json.names projectionMembers) →
        (Json.obj pv).Same (.obj pw)) := by
  obtain ⟨v, c, hv, hvid⟩ := catalogRead ha
  obtain ⟨w, d, hw, hwid⟩ := catalogRead hb
  obtain ⟨pv, hpv⟩ := hv.projectionObject
  obtain ⟨pw, hpw⟩ := hw.projectionObject
  have hvd := hv.denotes.distinct
  have hwd := hw.denotes.distinct
  have hvn := (Json.distinct_obj.1 hvd).1
  have hwn := (Json.distinct_obj.1 hwd).1
  have hpvd := (Json.distinct_obj.1 hvd).2 _ (Json.mem_of_lookup hpv)
  have hpwd := (Json.distinct_obj.1 hwd).2 _ (Json.mem_of_lookup hpw)
  refine ⟨v, w, pv, pw, hv.denotes, hw.denotes, hpv, hpw, fun hid hcollision => ?_, fun hnames => ?_⟩
  · have hdigests := (hv.identity_iff.1 hvid).2
    have hdigests' := (hw.identity_iff.1 hwid).2
    have hmem : "catalog_id".toList ∈ catalogProjection.digestFields := List.mem_cons_self
    rw [hdigests _ hmem, hdigests' _ hmem] at hid
    have hdigest := Json.str.inj (Option.some.inj hid)
    have hbytes := hcollision (Hex.encodeToString_injective hdigest)
    rw [canonicalizeJSON_eq_ok.2 ⟨_, hv.denotes, rfl⟩, canonicalizeJSON_eq_ok.2 ⟨_, hw.denotes, rfl⟩,
      Except.ok.injEq, utf8_injective.eq_iff, canonicalForm_eq_iff hvd hwd,
      Json.same_obj_iff hvn hwn]
    constructor
    · intro hall
      have hrel := hall logicalPayloadProjection
      rw [hpv, hpw] at hrel
      cases hrel with
      | some hsame => exact hsame
    · intro hsame k
      by_cases hk : k ∈ catalogProjection.excludedFields.elems
      · rcases mem_excluded k hk with hfield | rfl
        · rw [hdigests k hfield, hdigests' k hfield, hdigest]
          exact .some rfl
        · rw [hpv, hpw]
          exact .some hsame
      · exact (hashedBytes_eq_iff hvd hwd _).1 hbytes k hk
  · rw [List.forall_mem_append] at hnames
    rw [Json.same_obj_iff (Json.distinct_obj.1 hpvd).1 (Json.distinct_obj.1 hpwd).1]
    intro k
    rw [hv.lookup_projection hpv hnames.1, hw.lookup_projection hpw hnames.2]
    have hdistinct : (Json.obj projectionMembers).Distinct := by decide +kernel
    exact rel_same_self fun x hx => (Json.distinct_obj.1 hdistinct).2 _ (Json.mem_of_lookup hx)

theorem sampleDocument_overriddenMembers :
    verifyCustomerIncapabilityCatalog (sampleDocument overriddenMembers) = .ok () :=
  sampleDocument_accepted sampled.2.2

theorem verifyCustomerIncapabilityCatalog_determined_sample :
    ∃ v w pv pw, Denotes (sampleDocument projectionMembers) (.obj v) ∧
      Denotes (sampleDocument overriddenMembers) (.obj w) ∧
      v.lookup logicalPayloadProjection = some (.obj pv) ∧
      w.lookup logicalPayloadProjection = some (.obj pw) ∧
      (v.lookup "catalog_id".toList = w.lookup "catalog_id".toList →
        (Sha256.sha256 (hashedBytes catalogProjection v)
            = Sha256.sha256 (hashedBytes catalogProjection w) →
          hashedBytes catalogProjection v = hashedBytes catalogProjection w) →
        (canonicalizeJSON (sampleDocument projectionMembers)
            = canonicalizeJSON (sampleDocument overriddenMembers) ↔
          (Json.obj pv).Same (.obj pw))) ∧
      ((∀ k ∈ Json.names pv ++ Json.names pw, k ∈ Json.names projectionMembers) →
        (Json.obj pv).Same (.obj pw)) :=
  verifyCustomerIncapabilityCatalog_determined sampleDocument_projectionMembers
    sampleDocument_overriddenMembers

theorem not_verifyCustomerIncapabilityCatalog_determined : ¬ ∀ a b v w,
    verifyCustomerIncapabilityCatalog a = .ok () → verifyCustomerIncapabilityCatalog b = .ok () →
    Denotes a (.obj v) → Denotes b (.obj w) →
    v.lookup "catalog_id".toList = w.lookup "catalog_id".toList →
    (Sha256.sha256 (hashedBytes catalogProjection v)
        = Sha256.sha256 (hashedBytes catalogProjection w) →
      hashedBytes catalogProjection v = hashedBytes catalogProjection w) →
    canonicalizeJSON a = canonicalizeJSON b := by
  intro h
  have hdistinct : (Json.obj (sampleCatalog projectionMembers)).Distinct := by decide +kernel
  have hdistinct' : (Json.obj (sampleCatalog overriddenMembers)).Distinct := by decide +kernel
  have hdenotes := denotes_documentOf hdistinct
  have hdenotes' := denotes_documentOf hdistinct'
  have heq := h _ _ _ _ sampleDocument_projectionMembers sampleDocument_overriddenMembers hdenotes
    hdenotes' rfl fun _ => rfl
  rw [sampleDocument, sampleDocument, canonicalizeJSON_eq_ok.2 ⟨_, hdenotes, rfl⟩,
    canonicalizeJSON_eq_ok.2 ⟨_, hdenotes', rfl⟩, Except.ok.injEq, utf8_injective.eq_iff,
    canonicalForm_eq_iff hdistinct hdistinct', Json.same_obj_iff (Json.distinct_obj.1 hdistinct).1
    (Json.distinct_obj.1 hdistinct').1] at heq
  have hprojection : Option.Rel Json.Same (some (.obj projectionMembers))
      (some (.obj overriddenMembers)) := heq logicalPayloadProjection
  cases hprojection with
  | some hsame =>
    obtain ⟨_, hobj, -, hsub⟩ := hsame
    obtain rfl := Json.obj.inj hobj
    exact absurd (hsub List.mem_cons_self) (by decide +kernel)

end Determined

end Canonical
