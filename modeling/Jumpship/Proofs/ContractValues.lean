import Jumpship.Canonical.Detached
import Jumpship.Proofs.Identity

/-!
# The canonical texts of claims and registries

Claims and registries are written with their members in order and once each, so a canonical text is
the text of one of them, up to the rounding of a registry's version to a double.
-/

namespace Canonical

open Go JsonText Unicode

/-! ## Written contract values -/

section Marshal

theorem integer_value (n : ℤ) : (integer n).value = n := by
  have hdigits : Decimal.toNat (integer n).int = n.natAbs := toNat_natDigits n.natAbs
  have hvalue : (integer n).value = (if n < 0 then -1 else 1) * (n.natAbs : ℚ) := by
    rw [Number.value, show (integer n).frac = [] from rfl, List.append_nil, hdigits]
    simp [integer]
  rw [hvalue, Nat.cast_natAbs]
  split_ifs with h
  · rw [abs_of_neg h]
    simp
  · rw [abs_of_nonneg (not_lt.1 h), one_mul]

/-- The literal is the text that `itoa` writes. -/
theorem integer_text (n : ℤ) : (integer n).text = itoa n := by
  rw [Number.text, itoa, natText_eq, show (integer n).int = natDigits n.natAbs from rfl]
  by_cases hneg : n < 0
  · simp [integer, hneg, fracText, expText, digitsText]
  · simp [integer, hneg, fracText, expText, digitsText]

theorem denotes_marshal {v : Value} {w : Tree} (hd : w.Distinct)
    (hmap : v.mapNum parseFloat = some w) : Denotes (marshal v) w :=
  ⟨_, rfl, text_literal_iff.2 ⟨v, text_write escapes_htmlEscape (fun _ _ => rfl) v, hmap⟩, hd⟩

theorem canonicalizeJSON_marshal {v : Value} {w : Tree} (hd : w.Distinct)
    (hmap : v.mapNum parseFloat = some w) :
    canonicalizeJSON (marshal v) = .ok (utf8 (canonicalForm w)) :=
  canonicalizeJSON_eq_ok.2 ⟨w, denotes_marshal hd hmap, rfl⟩

theorem nearest_version (version : Int64) :
    Binary64.nearest version.toInt = some (numberOfVersion version) := by
  have hbound : |(version.toInt : ℚ)| ≤ 2 ^ (63 : ℕ) := by
    have h1 := version.toInt_lt
    have h2 := version.le_toInt
    have habs : |version.toInt| ≤ 2 ^ 63 := abs_le.2 ⟨by omega, by omega⟩
    exact_mod_cast habs
  have hpower : Binary64.roundMagnitude (2 ^ (63 : ℕ)) = 2 ^ (63 : ℕ) :=
    Binary64.roundMagnitude_of_isMagnitude ⟨1, 63, by norm_num, by norm_num, by norm_num⟩
  have hround : Binary64.roundMagnitude |(version.toInt : ℚ)| < 2 ^ 1024 := by
    have hle := Binary64.roundMagnitude_mono (abs_nonneg _) hbound
    rw [hpower] at hle
    exact hle.trans_lt (pow_lt_pow_right₀ (by norm_num) (by norm_num))
  rw [numberOfVersion, Binary64.nearest, dif_pos hround]
  rfl

/-- An object without repeated names whose members stand in order, and so for all within it. -/
structure Orderly (v : Tree) : Prop where
  distinct : v.Distinct
  sorted : v.sortMembers KeyLE = v

theorem orderly_str (s : List Char) : Orderly (.str s) := ⟨trivial, rfl⟩

theorem orderly_num (x : Binary64) : Orderly (.num x) := ⟨trivial, rfl⟩

theorem orderly_pointer (value : Option (List Char)) : Orderly (pointer value) := by
  cases value with
  | none => exact ⟨trivial, rfl⟩
  | some s => exact orderly_str s

theorem orderly_arr {xs : List Tree} (h : ∀ x ∈ xs, Orderly x) : Orderly (.arr xs) := by
  refine ⟨Json.distinct_arr.2 fun x hx => (h x hx).distinct, ?_⟩
  rw [Json.sortMembers_arr, Json.arr.injEq]
  exact (List.map_congr_left fun x hx => (h x hx).sorted).trans (List.map_id xs)

theorem orderly_slice (value : Option (List (List Char))) : Orderly (slice value) := by
  cases value with
  | none => exact ⟨trivial, rfl⟩
  | some items =>
    refine orderly_arr fun x hx => ?_
    obtain ⟨s, -, rfl⟩ := List.mem_map.1 hx
    exact orderly_str s

theorem orderly_obj {ms : Members} (hnames : (Json.names ms).Nodup ∧ (Json.names ms).Pairwise KeyLE)
    (h : ∀ m ∈ ms, Orderly m.2) : Orderly (.obj ms) := by
  refine ⟨Json.distinct_obj.2 ⟨hnames.1, fun m hm => (h m hm).distinct⟩, ?_⟩
  have hmap : (ms.map fun m => (m.1, m.2.sortMembers KeyLE)) = ms :=
    (List.map_congr_left fun m hm => by rw [(h m hm).sorted]; rfl).trans (List.map_id ms)
  rw [Json.sortMembers_obj, hmap, Json.sortByName_eq_self KeyLE (List.pairwise_map.1 hnames.2)]

/-- The canonical text of an orderly value is the text of no other. -/
theorem Orderly.canonicalForm_inj {v w : Tree} (hv : Orderly v) (hw : Orderly w) :
    canonicalForm v = canonicalForm w ↔ v = w := by
  rw [canonicalForm_eq_iff hv.distinct hw.distinct,
    Json.same_iff_sortMembers KeyLE hv.distinct hw.distinct, hv.sorted, hw.sorted]

def claimNames : List (List Char) :=
  ["algorithm", "environment", "expires_at", "issued_at", "key_registry_hash", "key_registry_id",
    "kid", "migration_scope", "object_schema_id", "object_schema_version", "object_type",
    "payload_digest", "purpose", "schema_version", "signer_id", "signer_role",
    "tenant_scope"].map String.toList

def keyNames : List (List Char) :=
  ["algorithm", "environments", "kid", "public_key_pem", "purposes", "revocation_reason",
    "revoked_at", "status", "supersedes_kid", "tenant_scope", "valid_from",
    "valid_until"].map String.toList

def registryNames : List (List Char) :=
  ["issued_at", "keys", "previous_registry_hash", "purpose_policy_hash", "registry_id",
    "registry_version", "root_fingerprint", "schema_version"].map String.toList

theorem names_in_order : ∀ names ∈ [claimNames, keyNames, registryNames],
    names.Nodup ∧ names.Pairwise KeyLE := by
  decide

theorem orderly_claims (claims : SignatureClaims) : Orderly claims.json := by
  refine orderly_obj (names_in_order claimNames (by simp)) ?_
  simp only [List.forall_mem_cons, List.not_mem_nil, false_imp_iff, implies_true, orderly_str,
    orderly_pointer, and_true]

theorem orderly_key (key : RegistryKey) : Orderly key.json := by
  refine orderly_obj (names_in_order keyNames (by simp)) ?_
  simp only [List.forall_mem_cons, List.not_mem_nil, false_imp_iff, implies_true, orderly_str,
    orderly_pointer, orderly_slice, and_true]

theorem orderly_registry (registry : PublicKeyRegistry) :
    Orderly (registry.json numberOfVersion) := by
  have hkeys : Orderly (.arr (registry.keys.map RegistryKey.json)) := by
    refine orderly_arr fun x hx => ?_
    obtain ⟨key, -, rfl⟩ := List.mem_map.1 hx
    exact orderly_key key
  refine orderly_obj (names_in_order registryNames (by simp)) ?_
  simp only [List.forall_mem_cons, List.not_mem_nil, false_imp_iff, implies_true, orderly_str,
    orderly_pointer, orderly_num, hkeys, and_true]

end Marshal

/-! ## What the bytes say -/

section Layout

section Numbers

variable {ν μ : Type} (f : ν → Option μ)

theorem mapNum_pointer (value : Option (List Char)) :
    (pointer value : Json (List Char) ν).mapNum f = some (pointer value) := by
  cases value with
  | none => rfl
  | some s => rfl

theorem mapNumList_strings (items : List (List Char)) :
    Json.mapNumList f (items.map .str) = some (items.map .str) := by
  induction items with
  | nil => rfl
  | cons s items ih => exact Json.mapNumList_cons.2 ⟨_, _, rfl, ih, rfl⟩

theorem mapNum_slice (value : Option (List (List Char))) :
    (slice value : Json (List Char) ν).mapNum f = some (slice value) := by
  cases value with
  | none => rfl
  | some items => exact congrArg (Option.map Json.arr) (mapNumList_strings f items)

theorem mapNum_claims (claims : SignatureClaims) :
    (claims.json : Json (List Char) ν).mapNum f = some claims.json := by
  simp only [SignatureClaims.json, Json.mapNum, Json.mapNumMembers, mapNum_pointer]
  rfl

theorem mapNum_key (key : RegistryKey) :
    (key.json : Json (List Char) ν).mapNum f = some key.json := by
  simp only [RegistryKey.json, Json.mapNum, Json.mapNumMembers, mapNum_pointer, mapNum_slice]
  rfl

theorem mapNumList_keys (keys : List RegistryKey) :
    Json.mapNumList f (keys.map RegistryKey.json) = some (keys.map RegistryKey.json) := by
  induction keys with
  | nil => rfl
  | cons key keys ih => exact Json.mapNumList_cons.2 ⟨_, _, mapNum_key f key, ih, rfl⟩

end Numbers

theorem mapNum_registry (registry : PublicKeyRegistry) :
    (registry.json fun version => integer version.toInt).mapNum parseFloat
      = some (registry.json numberOfVersion) := by
  have hversion : parseFloat (integer registry.registryVersion.toInt)
      = some (numberOfVersion registry.registryVersion) := by
    rw [parseFloat, integer_value]
    exact nearest_version _
  simp only [PublicKeyRegistry.json, Json.mapNum, Json.mapNumMembers, mapNum_pointer,
    mapNumList_keys, hversion]
  rfl

/-- The canonical bytes of claims. -/
def claimsBytes (claims : SignatureClaims) : List UInt8 := utf8 (canonicalForm claims.json)

/-- The canonical bytes of a registry. -/
def registryBytes (registry : PublicKeyRegistry) : List UInt8 :=
  utf8 (canonicalForm (registry.json numberOfVersion))

theorem canonicalClaimsBytes_eq (claims : SignatureClaims) :
    canonicalClaimsBytes claims = .ok (claimsBytes claims) :=
  canonicalizeJSON_marshal (orderly_claims claims).distinct (mapNum_claims parseFloat claims)

theorem registryDigest_eq (registry : PublicKeyRegistry) :
    registryDigest registry = .ok (Hex.encodeToString (Sha256.sha256 (registryBytes registry))) := by
  rw [registryDigest, canonicalizeJSON_marshal (orderly_registry registry).distinct
    (mapNum_registry registry)]
  rfl

theorem canonicalizeJSON_claimsBytes (claims : SignatureClaims) :
    canonicalizeJSON (claimsBytes claims) = .ok (claimsBytes claims) :=
  canonicalizeJSON_fixed (canonicalClaimsBytes_eq claims)

/-! ### Injectivity -/

theorem pointer_inj {a b : Option (List Char)} : (pointer a : Tree) = pointer b ↔ a = b := by
  cases a with
  | none => cases b with
    | none => simp
    | some t => exact iff_of_false (fun h => by cases h) (by simp)
  | some s => cases b with
    | none => exact iff_of_false (fun h => by cases h) (by simp)
    | some t => simp [pointer]

theorem map_str_injective : Function.Injective (List.map (Json.str : List Char → Tree)) :=
  List.map_injective_iff.2 fun _ _ h => Json.str.inj h

theorem slice_inj {a b : Option (List (List Char))} : (slice a : Tree) = slice b ↔ a = b := by
  cases a with
  | none => cases b with
    | none => simp
    | some t => exact iff_of_false (fun h => by cases h) (by simp)
  | some s => cases b with
    | none => exact iff_of_false (fun h => by cases h) (by simp)
    | some t => simp [slice, map_str_injective.eq_iff]

theorem claims_json_inj {a b : SignatureClaims} : (a.json : Tree) = b.json ↔ a = b := by
  refine ⟨fun h => ?_, fun h => h ▸ rfl⟩
  simp only [SignatureClaims.json, Json.obj.injEq, List.cons.injEq, Prod.mk.injEq, Json.str.injEq,
    pointer_inj, true_and, and_true] at h
  cases a
  simp_all only

theorem key_json_injective : Function.Injective (RegistryKey.json : RegistryKey → Tree) := by
  intro a b h
  simp only [RegistryKey.json, Json.obj.injEq, List.cons.injEq, Prod.mk.injEq, Json.str.injEq,
    pointer_inj, slice_inj, true_and, and_true] at h
  cases a
  simp_all only

/-- All of two registries is the same but the versions, which round to one double. -/
def SameRegistry (a b : PublicKeyRegistry) : Prop :=
  { a with registryVersion := b.registryVersion } = b ∧
    numberOfVersion a.registryVersion = numberOfVersion b.registryVersion

theorem registry_json_inj {a b : PublicKeyRegistry} :
    a.json numberOfVersion = b.json numberOfVersion ↔ SameRegistry a b := by
  simp only [PublicKeyRegistry.json, Json.obj.injEq, List.cons.injEq, Prod.mk.injEq, Json.str.injEq,
    Json.arr.injEq, Json.num.injEq, (List.map_injective_iff.2 key_json_injective).eq_iff,
    pointer_inj, true_and, and_true]
  constructor
  · rintro ⟨h1, h2, h3, h4, h5, h6, h7, h8⟩
    refine ⟨?_, h6⟩
    cases a
    simp_all only
  · rintro ⟨h, hversion⟩
    rw [← h]
    exact ⟨rfl, rfl, rfl, rfl, rfl, hversion, rfl, rfl⟩

theorem claimsBytes_injective : Function.Injective claimsBytes := fun a b h =>
  claims_json_inj.1 (((orderly_claims a).canonicalForm_inj (orderly_claims b)).1 (utf8_injective h))

theorem registryBytes_eq_iff {a b : PublicKeyRegistry} :
    registryBytes a = registryBytes b ↔ SameRegistry a b := by
  rw [registryBytes, registryBytes, utf8_injective.eq_iff,
    (orderly_registry a).canonicalForm_inj (orderly_registry b), registry_json_inj]

end Layout

end Canonical
