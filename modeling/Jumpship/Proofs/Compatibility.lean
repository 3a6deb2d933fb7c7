import Jumpship.Codegen.Compatibility
import Jumpship.Proofs.PyJson

/-!
# Advancing the compatibility baseline

What it means that a comparison finds nothing breaking, part by part, and that two comparisons in a
row find nothing breaking only if the direct one does. The one way around it is a schema with an
approved replacement that first gains its version.
-/

namespace Codegen

open Py Findings

/-! ## Nothing breaking -/

section Breaking

variable {α : Type}

@[simp] theorem breaking_append (f g : Findings) :
    (f ++ g).breaking = f.breaking ++ g.breaking := rfl

@[simp] theorem changes_append (f g : Findings) :
    (f ++ g).changes = f.changes ++ g.changes := rfl

@[simp] theorem breaking_empty : empty.breaking = [] := rfl

@[simp] theorem changes_empty : empty.changes = [] := rfl

@[simp] theorem breaking_change (parts : List Str) : (change parts).breaking = [] := rfl

@[simp] theorem breaking_breaks (parts : List Str) : (breaks parts).breaking ≠ [] :=
  List.cons_ne_nil _ _

theorem breaking_each {f : α → Findings} {xs : List α} :
    (each f xs).breaking = [] ↔ ∀ x ∈ xs, (f x).breaking = [] := by
  induction xs with
  | nil => simp [each]
  | cons x xs ih => simp [each, ih]

theorem changes_each {f : α → Findings} {xs : List α} :
    (each f xs).changes = [] ↔ ∀ x ∈ xs, (f x).changes = [] := by
  induction xs with
  | nil => simp [each]
  | cons x xs ih => simp [each, ih]

/-- The comparison reports, and nothing that breaks. -/
def Clean (found : Except Exc Findings) : Prop := ∃ f, found = .ok f ∧ f.breaking = []

theorem clean_pure {f : Findings} : Clean (pure f) ↔ f.breaking = [] := by
  constructor
  · rintro ⟨g, hg, hbreaking⟩
    rwa [Except.ok.inj hg]
  · exact fun h => ⟨f, rfl, h⟩

theorem clean_bind {x : Except Exc α} {f : α → Except Exc Findings} :
    Clean (x >>= f) ↔ ∃ a, x = .ok a ∧ Clean (f a) := by
  cases x with
  | error e =>
    constructor
    · rintro ⟨g, hg, -⟩
      cases hg
    · rintro ⟨a, ha, -⟩
      cases ha
  | ok a =>
    constructor
    · exact fun h => ⟨a, rfl, h⟩
    · rintro ⟨b, hb, h⟩
      rwa [Except.ok.inj hb]

theorem clean_eachM {f : α → Except Exc Findings} {xs : List α} :
    Clean (eachM f xs) ↔ ∀ x ∈ xs, Clean (f x) := by
  induction xs with
  | nil => simp [eachM, clean_pure]
  | cons x xs ih =>
    rw [eachM, List.forall_mem_cons, ← ih, clean_bind]
    simp only [clean_bind, clean_pure, breaking_append, List.append_eq_nil_iff]
    constructor
    · rintro ⟨g, hg, h, hh, hbg, hbh⟩
      exact ⟨⟨g, hg, hbg⟩, h, hh, hbh⟩
    · rintro ⟨⟨g, hg, hbg⟩, h, hh, hbh⟩
      exact ⟨g, hg, h, hh, hbg, hbh⟩

end Breaking

/-! ## Additive maps -/

section Additive

variable {α : Type}

theorem mem_sortedKeys {keys : List Str} {k : Str} : k ∈ sortedKeys keys ↔ k ∈ keys :=
  (List.perm_insertionSort _ keys).mem_iff

theorem mem_names_iff {ms : List (Str × α)} {k : Str} :
    k ∈ Json.names ms ↔ ∃ v, ms.lookup k = some v := by
  rw [← not_iff_not, ← Json.lookup_eq_none]
  simp [Option.eq_none_iff_forall_ne_some]

theorem mem_removedKeys {old new : List (Str × α)} {k : Str} :
    k ∈ removedKeys old new ↔ k ∈ Json.names old ∧ k ∉ Json.names new := by
  simp [removedKeys, mem_sortedKeys]

theorem mem_commonKeys {old new : List (Str × α)} {k : Str} :
    k ∈ commonKeys old new ↔ k ∈ Json.names old ∧ k ∈ Json.names new := by
  simp [commonKeys, mem_sortedKeys]

/-- Every entry is still there, as it was or approved. -/
def Additive (same : α → α → Prop) (approved : Str → Prop) (old new : List (Str × α)) : Prop :=
  ∀ k v, old.lookup k = some v → ∃ w, new.lookup k = some w ∧ (same v w ∨ approved k)

theorem Additive.trans {same : α → α → Prop} {approved : Str → Prop} {a b c : List (Str × α)}
    (hsame : ∀ {u v w}, same u v → same v w → same u w) (h : Additive same approved a b)
    (h' : Additive same approved b c) : Additive same approved a c := by
  intro k u hu
  obtain ⟨v, hv, huv⟩ := h k u hu
  obtain ⟨w, hw, hvw⟩ := h' k v hv
  refine ⟨w, hw, ?_⟩
  obtain huv | happroved := huv
  · exact hvw.imp_left (hsame huv)
  · exact .inr happroved

/-- The replacements a map approves. -/
def approves (replacements : List (String × String)) (k : Str) : Prop :=
  ((replacements.map fun r => (str r.1, str r.2)).lookup k).isSome

theorem breaking_compareExactAdditiveMap {differ : α → α → Bool} {label : Str}
    {old new : List (Str × α)} {replacements : List (String × String)} :
    (compareExactAdditiveMap differ label old new replacements).breaking = [] ↔
      Additive (fun v w => differ v w = false) (approves replacements) old new := by
  simp only [compareExactAdditiveMap, breaking_append, List.append_eq_nil_iff, breaking_each,
    breaking_change, implies_true, and_true, mem_removedKeys, mem_commonKeys, mem_names_iff]
  constructor
  · rintro ⟨hremoved, hcommon⟩ k v hv
    by_cases hk : ∃ w, new.lookup k = some w
    · obtain ⟨w, hw⟩ := hk
      refine ⟨w, hw, ?_⟩
      have := hcommon k ⟨⟨v, hv⟩, w, hw⟩
      simp only [hv, hw] at this
      split at this
      · split at this
        · exact absurd this (breaking_breaks _)
        · rename_i hr
          exact .inr (by rw [approves, hr]; rfl)
      · rename_i hdiffer
        exact .inl (by simpa using hdiffer)
    · exact absurd (hremoved k ⟨⟨v, hv⟩, hk⟩) (breaking_breaks _)
  · intro h
    refine ⟨?_, ?_⟩
    · rintro k ⟨⟨v, hv⟩, hk⟩
      obtain ⟨w, hw, -⟩ := h k v hv
      exact absurd ⟨w, hw⟩ hk
    · rintro k ⟨⟨v, hv⟩, w, hw⟩
      simp only [hv, hw]
      obtain ⟨w', hw', hsame⟩ := h k v hv
      obtain rfl := Option.some.inj (hw.symm.trans hw')
      split
      · rename_i hdiffer
        obtain hsame | happroved := hsame
        · rw [hsame] at hdiffer
          cases hdiffer
        · obtain ⟨authority, hr⟩ := Option.isSome_iff_exists.1 happroved
          rw [hr]
          rfl
      · rfl

theorem approves_nil (k : Str) : ¬ approves [] k := by
  simp [approves]

theorem breaking_compareExactAdditiveMap_nil {differ : α → α → Bool} {label : Str}
    {old new : List (Str × α)} :
    (compareExactAdditiveMap differ label old new []).breaking = [] ↔
      Additive (fun v w => differ v w = false) (fun _ => False) old new := by
  rw [breaking_compareExactAdditiveMap]
  simp only [Additive, approves_nil]

theorem differ_eq_false {v w : Value} : differ v w = false ↔ equal v w = true := by
  simp [differ]

end Additive

/-! ## Schemas -/

section Schemas

/-- The properties declare this version. -/
def Declares (properties : Dict) (version : String) : Prop :=
  ∃ spec : Dict, properties.lookup (str "schema_version") = some (.obj spec) ∧
    spec.lookup (str "const") = some (string version)

theorem declares_of_versionOf {properties version : Value} {text : String}
    (h : versionOf properties = .ok version) (hversion : differ version (string text) = false) :
    ∃ d : Dict, properties = .obj d ∧ Declares d text := by
  have hstr : version = string text := by
    rw [differ_eq_false, equal, Bool.and_eq_true] at hversion
    cases version <;> simp [same, string, number?] at hversion
    rw [hversion.2]
    rfl
  subst hstr
  cases properties with
  | obj d =>
    refine ⟨d, rfl, ?_⟩
    simp only [versionOf, asDict, getOr, bind, Except.bind, pure, Except.pure] at h
    rcases hlookup : d.lookup (str "schema_version") with _ | spec
    · rw [hlookup] at h
      cases Except.ok.inj h
    rw [hlookup] at h
    cases spec with
    | obj spec =>
      refine ⟨spec, hlookup, ?_⟩
      have hconst := Except.ok.inj h
      rcases hc : spec.lookup (str "const") with _ | c
      · rw [hc] at hconst
        cases hconst
      · rw [hc] at hconst
        exact congrArg some hconst
    | _ => cases h
  | _ => cases h

theorem versionOf_of_declares {d : Dict} {text : String} (h : Declares d text) :
    versionOf (.obj d) = .ok (string text) := by
  obtain ⟨spec, hspec, hconst⟩ := h
  simp only [versionOf, asDict, getOr, hspec, hconst, bind, Except.bind, pure, Except.pure,
    Option.getD_some]

/-- What a comparison of two schemas has to find for nothing to break. -/
inductive SchemaCompatible (path : Str) (old new : SchemaSurface) : Prop where
  | additive (root : equal (.obj old.root) (.obj new.root) = true) (o n : Dict)
      (hold : old.properties = .obj o) (hnew : new.properties = .obj n)
      (h : Additive (fun v w => equal v w = true) (fun _ => False) o n)
  | replaced (root : equal (.obj old.root) (.obj new.root) = false) (r : Replacement)
      (approved : replacementOf path = some r) (o n : Dict) (hold : old.properties = .obj o)
      (hnew : new.properties = .obj n) (fromVersion : Declares o r.fromVersion)
      (toVersion : Declares n r.toVersion)

theorem asDict_eq_ok {v : Value} {d : Dict} : asDict v = .ok d ↔ v = .obj d := by
  cases v <;> simp [asDict]

theorem clean_compareSchema {path : Str} {old new : SchemaSurface} :
    Clean (compareSchema path old new) ↔ SchemaCompatible path old new := by
  by_cases hroot : equal (.obj old.root) (.obj new.root) = true
  · rw [compareSchema, if_neg (by simp [differ, hroot])]
    simp only [clean_bind, clean_pure, asDict_eq_ok, breaking_compareExactAdditiveMap_nil,
      differ_eq_false]
    constructor
    · rintro ⟨o, ho, n, hn, h⟩
      exact .additive hroot o n ho hn h
    · rintro (⟨-, o, n, ho, hn, h⟩ | ⟨hfalse, -⟩)
      · exact ⟨o, ho, n, hn, h⟩
      · rw [hroot] at hfalse
        cases hfalse
  · rw [compareSchema, if_pos (by simp [differ, hroot])]
    simp only [clean_bind]
    constructor
    · rintro ⟨oldVersion, ho, newVersion, hn, h⟩
      split at h
      · exact absurd (clean_pure.1 h) (breaking_breaks _)
      rename_i r hr
      split at h
      · exact absurd (clean_pure.1 h) (breaking_breaks _)
      rename_i hversions
      simp only [Bool.or_eq_true, not_or, Bool.not_eq_true] at hversions
      obtain ⟨o, hold, hfrom⟩ := declares_of_versionOf ho hversions.1
      obtain ⟨n, hnew, hto⟩ := declares_of_versionOf hn hversions.2
      exact .replaced (by simpa using hroot) r hr o n hold hnew hfrom hto
    · rintro (⟨htrue, -⟩ | ⟨-, r, hr, o, n, hold, hnew, hfrom, hto⟩)
      · exact absurd htrue hroot
      · refine ⟨_, by rw [hold, versionOf_of_declares hfrom], _,
          by rw [hnew, versionOf_of_declares hto], ?_⟩
        rw [hr]
        simp [differ, equal, same, string, isNan, clean_pure]

theorem replacementOf_versions {path : Str} {r : Replacement} (h : replacementOf path = some r) :
    r.fromVersion ≠ r.toVersion := by
  simp only [replacementOf, approvedVersionedSchemaReplacements, List.map_cons, List.map_nil] at h
  rw [Json.lookup_cons_eq] at h
  split_ifs at h
  · rw [← Option.some.inj h]
    decide
  · cases h

theorem Declares.unique {d : Dict} {v w : String} (h : Declares d v) (h' : Declares d w) : v = w := by
  obtain ⟨spec, hspec, hv⟩ := h
  obtain ⟨spec', hspec', hw⟩ := h'
  rw [hspec] at hspec'
  cases Option.some.inj hspec'
  rw [hv] at hw
  simpa [string] using hw

/-- What stays keeps the version. -/
theorem Declares.later {o n : Dict} {version : String}
    (h : Additive (fun v w => equal v w = true) (fun _ => False) o n) (ho : Declares o version) :
    Declares n version := by
  obtain ⟨spec, hspec, hconst⟩ := ho
  obtain ⟨w, hw, hsame | hfalse⟩ := h _ _ hspec
  · rw [equal, Bool.and_eq_true] at hsame
    cases w <;> simp [same] at hsame
    rename_i spec'
    obtain ⟨x, hx, hsamex⟩ := sameMembers_iff.1 hsame.2.2 _ (Json.mem_of_lookup hconst)
    refine ⟨spec', hw, ?_⟩
    cases x <;> simp [same, string] at hsamex
    rw [hx, ← hsamex]
    rfl
  · exact hfalse.elim

/-- A version that is declared later was declared from the start, where there was one. -/
theorem Declares.earlier {o n : Dict} {version : String} (hdistinct : (Json.obj o).Distinct)
    (h : Additive (fun v w => equal v w = true) (fun _ => False) o n)
    (hdeclared : (o.lookup (str "schema_version")).isSome) (hn : Declares n version) :
    Declares o version := by
  obtain ⟨spec, hspec, hconst⟩ := hn
  obtain ⟨v, hv⟩ := Option.isSome_iff_exists.1 hdeclared
  obtain ⟨w, hw, hsame | hfalse⟩ := h _ _ hv
  · obtain rfl := Option.some.inj (hw.symm.trans hspec)
    rw [equal, Bool.and_eq_true] at hsame
    cases v <;> simp [same, number?] at hsame
    rename_i spec'
    refine ⟨spec', hv, ?_⟩
    obtain ⟨-, hlength, hmembers⟩ := hsame
    rw [sameMembers_iff] at hmembers
    have hnodup : (Json.names spec').Nodup :=
      (Json.distinct_obj.1 ((Json.distinct_obj.1 hdistinct).2 _ (Json.mem_of_lookup hv))).1
    have hsubset : Json.names spec' ⊆ Json.names spec := by
      intro k hk
      obtain ⟨x, hx⟩ := Json.mem_names.1 hk
      obtain ⟨y, hy, -⟩ := hmembers _ hx
      exact Json.mem_names.2 ⟨y, Json.mem_of_lookup hy⟩
    obtain ⟨x, hx⟩ := Json.mem_names.1 (names_subset_of_same hnodup hlength hsubset
      (Json.mem_names_of_mem (Json.mem_of_lookup hconst)))
    obtain ⟨y, hy, hsamexy⟩ := hmembers _ hx
    obtain rfl := Option.some.inj (hy.symm.trans hconst)
    rw [Json.lookup_of_mem hnodup hx]
    cases x <;> simp [same, string, number?] at hsamexy
    rw [hsamexy]
    rfl
  · exact hfalse.elim

theorem SchemaCompatible.trans {path : Str} {a b c : SchemaSurface}
    (hrootA : (Json.obj a.root).Distinct) (hrootB : (Json.obj b.root).Distinct) (hrootC : (Json.obj c.root).Distinct)
    (hproperties : a.properties.Distinct)
    (hdeclared : (replacementOf path).isSome → ∀ o : Dict, a.properties = .obj o →
      (o.lookup (str "schema_version")).isSome)
    (h : SchemaCompatible path a b) (h' : SchemaCompatible path b c) : SchemaCompatible path a c := by
  obtain ⟨hroot, o, n, ho, hn, hadd⟩ | ⟨hroot, r, hr, o, n, ho, hn, hfrom, hto⟩ := h
  · obtain ⟨hroot', n', m, hn', hm, hadd'⟩ | ⟨hroot', r, hr, n', m, hn', hm, hfrom, hto⟩ := h'
    · obtain rfl : n = n' := Json.obj.inj (hn.symm.trans hn')
      exact .additive (equal_trans hroot hroot') o m ho hm (hadd.trans equal_trans hadd')
    · obtain rfl : n = n' := Json.obj.inj (hn.symm.trans hn')
      have hne : equal (.obj a.root) (.obj c.root) = false := by
        by_contra htrue
        have hbc := equal_trans (equal_symm hrootA hrootB hroot) (by simpa using htrue)
        rw [hbc] at hroot'
        cases hroot'
      rw [ho] at hproperties
      exact .replaced hne r hr o m ho hm
        (hfrom.earlier hproperties hadd (hdeclared (by rw [hr]; rfl) o ho)) hto
  · obtain ⟨hroot', n', m, hn', hm, hadd'⟩ | ⟨hroot', r', hr', n', m, hn', hm, hfrom', hto'⟩ := h'
    · obtain rfl : n = n' := Json.obj.inj (hn.symm.trans hn')
      have hne : equal (.obj a.root) (.obj c.root) = false := by
        by_contra htrue
        have hab := equal_trans (by simpa using htrue) (equal_symm hrootB hrootC hroot')
        rw [hab] at hroot
        cases hroot
      exact .replaced hne r hr o m ho hm hfrom (hto.later hadd')
    · obtain rfl : n = n' := Json.obj.inj (hn.symm.trans hn')
      obtain rfl : r = r' := Option.some.inj (hr.symm.trans hr')
      exact absurd (hfrom'.unique hto) (replacementOf_versions hr)

end Schemas

/-! ## Surfaces -/

section Surfaces

/-- Every member of a mapping is a value whose objects repeat no key. -/
structure Surface.Distinct (s : Surface) : Prop where
  roots : ∀ path schema, s.jsonSchemas.lookup path = some schema → (Json.obj schema.root).Distinct
  properties : ∀ path schema, s.jsonSchemas.lookup path = some schema → schema.properties.Distinct
  version : s.openapi.version.Distinct
  servers : s.openapi.servers.Distinct
  operations : ∀ key operation, s.openapi.operations.lookup key = some operation →
    operation.Distinct
  components : s.openapi.components.Distinct

/-- What was found is clean, beside anything else that holds. -/
theorem exists_of_clean {found : Except Exc Findings} {p : Prop} (h : Clean found) (hp : p) :
    ∃ f, found = .ok f ∧ p ∧ f.breaking = [] := by
  obtain ⟨f, hf, hbreaking⟩ := h
  exact ⟨f, hf, hp, hbreaking⟩

theorem clean_compareSchemas {old new : List (Str × SchemaSurface)} :
    Clean (compareSchemas old new) ↔ ∀ path oldSchema, old.lookup path = some oldSchema →
      ∃ newSchema, new.lookup path = some newSchema ∧
        SchemaCompatible path oldSchema newSchema := by
  rw [compareSchemas, clean_bind]
  simp only [clean_pure, breaking_append, List.append_eq_nil_iff, breaking_each, breaking_change,
    implies_true, and_true, mem_removedKeys, mem_names_iff]
  constructor
  · rintro ⟨found, hfound, hremoved, hclean⟩ path o ho
    by_cases hpath : ∃ n, new.lookup path = some n
    · obtain ⟨n, hn⟩ := hpath
      have := clean_eachM.1 ⟨found, hfound, hclean⟩ path
        (mem_commonKeys.2 ⟨mem_names_iff.2 ⟨o, ho⟩, mem_names_iff.2 ⟨n, hn⟩⟩)
      simp only [ho, hn] at this
      exact ⟨n, hn, clean_compareSchema.1 this⟩
    · exact absurd (hremoved path ⟨⟨o, ho⟩, hpath⟩) (breaking_breaks _)
  · intro h
    refine exists_of_clean (clean_eachM.2 fun path hpath => ?_) ?_
    · rw [mem_commonKeys, mem_names_iff] at hpath
      obtain ⟨⟨o, ho⟩, -⟩ := hpath
      obtain ⟨n, hn, hcompatible⟩ := h path o ho
      simp only [ho, hn]
      exact clean_compareSchema.2 hcompatible
    · rintro path ⟨⟨o, ho⟩, hpath⟩
      obtain ⟨n, hn, -⟩ := h path o ho
      exact absurd ⟨n, hn⟩ hpath

theorem obj_of_equal {v w : Value} (h : equal v w = true) :
    (∃ d : Dict, v = .obj d) ↔ ∃ d : Dict, w = .obj d := by
  rw [equal, Bool.and_eq_true] at h
  cases v <;> cases w <;> simp [same, number?] at h ⊢

/-- Two categories without a breaking change: maps, or the same value. -/
def CategoryCompatible (category : Str) (old new : Value) : Prop :=
  (∃ o n : Dict, old = .obj o ∧ new = .obj n ∧ Additive (fun v w => equal v w = true)
    (approves (if category = str "schemas" then approvedOpenapiComponentReplacements else []))
    o n) ∨
  ((¬ ∃ d : Dict, old = .obj d) ∧ equal old new = true)

theorem breaking_compareCategory {category : Str} {old new : Value} :
    (compareCategory category old new).breaking = [] ↔ CategoryCompatible category old new := by
  unfold compareCategory CategoryCompatible
  split
  · rename_i o n
    rw [breaking_compareExactAdditiveMap]
    simp only [differ_eq_false]
    constructor
    · exact fun h => .inl ⟨o, n, rfl, rfl, h⟩
    · rintro (⟨o', n', ho, hn, h⟩ | ⟨h, -⟩)
      · cases ho
        cases hn
        exact h
      · exact absurd ⟨o, rfl⟩ h
  · rename_i hne
    have hiff : (if differ old new then
        breaks [str "changed OpenAPI component category ", category] else empty).breaking = [] ↔
        equal old new = true := by
      rw [differ]
      by_cases h : equal old new = true
      · simp [h]
      · simp [h]
    rw [hiff]
    constructor
    · intro h
      refine .inr ⟨fun ⟨o, ho⟩ => ?_, h⟩
      obtain ⟨n, hn⟩ := (obj_of_equal h).1 ⟨o, ho⟩
      exact hne o n ho hn
    · rintro (⟨o, n, ho, hn, -⟩ | ⟨-, h⟩)
      · exact absurd hn (hne o n ho)
      · exact h

theorem CategoryCompatible.trans {category : Str} {a b c : Value}
    (h : CategoryCompatible category a b) (h' : CategoryCompatible category b c) :
    CategoryCompatible category a c := by
  obtain ⟨o, n, ho, hn, hadd⟩ | ⟨hne, heq⟩ := h
  · obtain ⟨n', m, hn', hm, hadd'⟩ | ⟨hne, -⟩ := h'
    · obtain rfl : n = n' := Json.obj.inj (hn.symm.trans hn')
      exact .inl ⟨o, m, ho, hm, hadd.trans equal_trans hadd'⟩
    · exact absurd ⟨n, hn⟩ hne
  · obtain ⟨n, m, hn, -⟩ | ⟨-, heq'⟩ := h'
    · exact absurd ((obj_of_equal heq).2 ⟨n, hn⟩) hne
    · exact .inr ⟨hne, equal_trans heq heq'⟩

/-- What a comparison of two OpenAPI surfaces has to find for nothing to break. -/
structure OpenapiCompatible (old new : OpenapiSurface) : Prop where
  version : equal old.version new.version = true
  servers : equal old.servers new.servers = true
  operations : Additive (fun v w => equal v w = true) (fun _ => False) old.operations new.operations
  components : ∃ o n : Dict, old.components = .obj o ∧ new.components = .obj n ∧
    ∀ category, CategoryCompatible category ((o.lookup category).getD (.obj []))
      ((n.lookup category).getD (.obj []))

theorem breaking_if {condition : Bool} {parts : List Str} :
    (if condition then breaks parts else empty).breaking = [] ↔ condition = false := by
  cases condition <;> simp

theorem categoryCompatible_missing (category : Str) :
    CategoryCompatible category (.obj []) (.obj []) :=
  .inl ⟨[], [], rfl, rfl, fun k v hv => by simp at hv⟩

theorem clean_compareOpenapi {old new : OpenapiSurface} :
    Clean (compareOpenapi old new) ↔ OpenapiCompatible old new := by
  simp only [compareOpenapi, clean_bind, clean_pure, asDict_eq_ok, breaking_append,
    List.append_eq_nil_iff, breaking_each, breaking_if, differ_eq_false,
    breaking_compareExactAdditiveMap_nil, breaking_compareCategory, mem_sortedKeys,
    List.mem_append, List.mem_filter, decide_eq_true_eq]
  constructor
  · rintro ⟨o, ho, n, hn, ⟨⟨hversion, hservers⟩, hoperations⟩, hcategories⟩
    refine ⟨hversion, hservers, hoperations, o, n, ho, hn, fun category => ?_⟩
    by_cases hmem : category ∈ Json.names o ∨ category ∈ Json.names n ∧ category ∉ Json.names o
    · exact hcategories category hmem
    · have hnames : category ∉ Json.names o ∧ category ∉ Json.names n := by tauto
      rw [Json.lookup_eq_none.2 hnames.1, Json.lookup_eq_none.2 hnames.2]
      exact categoryCompatible_missing category
  · rintro ⟨hversion, hservers, hoperations, o, n, ho, hn, hcategories⟩
    exact ⟨o, ho, n, hn, ⟨⟨hversion, hservers⟩, hoperations⟩, fun category _ => hcategories category⟩

theorem OpenapiCompatible.trans {a b c : OpenapiSurface} (h : OpenapiCompatible a b)
    (h' : OpenapiCompatible b c) : OpenapiCompatible a c := by
  obtain ⟨o, n, ho, hn, hcategories⟩ := h.components
  obtain ⟨n', m, hn', hm, hcategories'⟩ := h'.components
  obtain rfl : n = n' := Json.obj.inj (hn.symm.trans hn')
  exact ⟨equal_trans h.version h'.version, equal_trans h.servers h'.servers,
    h.operations.trans equal_trans h'.operations, o, m, ho, hm,
    fun category => (hcategories category).trans (hcategories' category)⟩

/-- Every group is still there, and its members as they were. -/
def GroupsCompatible {α : Type} (old new : List (Str × List (Str × α))) : Prop :=
  Additive (Additive (· = ·) fun _ => False) (fun _ => False) old new

theorem breaking_compareGroups {α : Type} [DecidableEq α] {group memberLabel : String}
    {old new : List (Str × List (Str × α))} :
    (compareGroups group memberLabel old new).breaking = [] ↔ GroupsCompatible old new := by
  have hsame : ∀ x y : α, (fun x y => decide (x ≠ y)) x y = false ↔ x = y := by simp
  simp only [compareGroups, breaking_append, List.append_eq_nil_iff, breaking_each, breaking_change,
    implies_true, and_true, mem_removedKeys, mem_commonKeys, mem_names_iff]
  constructor
  · rintro ⟨hremoved, hcommon⟩ name o ho
    by_cases hname : ∃ n, new.lookup name = some n
    · obtain ⟨n, hn⟩ := hname
      have := hcommon name ⟨⟨o, ho⟩, n, hn⟩
      simp only [ho, hn, breaking_compareExactAdditiveMap_nil, hsame] at this
      exact ⟨n, hn, .inl this⟩
    · exact absurd (hremoved name ⟨⟨o, ho⟩, hname⟩) (breaking_breaks _)
  · intro h
    refine ⟨?_, ?_⟩
    · rintro name ⟨⟨o, ho⟩, hname⟩
      obtain ⟨n, hn, -⟩ := h name o ho
      exact absurd ⟨n, hn⟩ hname
    · rintro name ⟨⟨o, ho⟩, -⟩
      obtain ⟨n, hn, hadd | hfalse⟩ := h name o ho
      · simp only [ho, hn, breaking_compareExactAdditiveMap_nil, hsame]
        exact hadd
      · exact hfalse.elim

theorem GroupsCompatible.trans {α : Type} {a b c : List (Str × List (Str × α))}
    (h : GroupsCompatible a b) (h' : GroupsCompatible b c) : GroupsCompatible a c :=
  Additive.trans (fun h h' => Additive.trans Eq.trans h h') h h'

structure ProtobufCompatible (old new : ProtoSurface) : Prop where
  protoSyntax : old.protoSyntax = new.protoSyntax
  package : old.package = new.package
  enums : GroupsCompatible old.enums new.enums
  messages : GroupsCompatible old.messages new.messages
  services : GroupsCompatible old.services new.services

theorem breaking_compareProtobuf {old new : ProtoSurface} :
    (compareProtobuf old new).breaking = [] ↔ ProtobufCompatible old new := by
  have hite : ∀ {p : Prop} [Decidable p] {parts : List Str},
      (if p then breaks parts else empty).breaking = [] ↔ ¬ p := by
    intro p _ parts
    by_cases hp : p <;> simp [hp]
  simp only [compareProtobuf, breaking_append, List.append_eq_nil_iff, hite, not_not,
    breaking_compareGroups]
  constructor
  · rintro ⟨⟨⟨⟨h₁, h₂⟩, h₃⟩, h₄⟩, h₅⟩
    exact ⟨h₁, h₂, h₃, h₄, h₅⟩
  · rintro ⟨h₁, h₂, h₃, h₄, h₅⟩
    exact ⟨⟨⟨⟨h₁, h₂⟩, h₃⟩, h₄⟩, h₅⟩

theorem ProtobufCompatible.trans {a b c : ProtoSurface} (h : ProtobufCompatible a b)
    (h' : ProtobufCompatible b c) : ProtobufCompatible a c :=
  ⟨h.protoSyntax.trans h'.protoSyntax, h.package.trans h'.package, h.enums.trans h'.enums,
    h.messages.trans h'.messages, h.services.trans h'.services⟩

theorem clean_compareCompatibility {old new : Surface} :
    Clean (compareCompatibility old new) ↔
      Clean (compareSchemas old.jsonSchemas new.jsonSchemas) ∧
        OpenapiCompatible old.openapi new.openapi ∧
          ProtobufCompatible old.protobuf new.protobuf := by
  rw [← clean_compareOpenapi, ← breaking_compareProtobuf]
  simp only [compareCompatibility, clean_bind, clean_pure, breaking_append,
    List.append_eq_nil_iff]
  constructor
  · rintro ⟨f, hf, g, hg, ⟨hbf, hbg⟩, hproto⟩
    exact ⟨⟨f, hf, hbf⟩, ⟨g, hg, hbg⟩, hproto⟩
  · rintro ⟨⟨f, hf, hbf⟩, ⟨g, hg, hbg⟩, hproto⟩
    exact ⟨f, hf, g, hg, ⟨hbf, hbg⟩, hproto⟩

end Surfaces

/-! ## What a surface is made of -/

section Produced

theorem distinct_of_readable (v : Value) : ReadableValue v → v.Distinct := by
  induction v using Json.induct with
  | null | bool | num | str => simp [Json.Distinct]
  | arr xs ih =>
    intro h
    exact Json.distinct_arr.2 fun x hx => ih x hx (readableValue_arr.1 h x hx)
  | obj ms ih =>
    intro h
    obtain ⟨hnd, hms⟩ := readableValue_obj.1 h
    exact Json.distinct_obj.2 ⟨hnd, fun m hm => ih m hm (hms m hm).2⟩

theorem distinct_of_loadsContent {content : List UInt8} {v : Value}
    (h : loadsContent content = .ok v) : v.Distinct := by
  unfold loadsContent at h
  split at h
  · rename_i value hvalue
    cases h
    rw [Option.bind_eq_some_iff] at hvalue
    obtain ⟨text, -, hvalue⟩ := hvalue
    exact distinct_of_readable v (readableValue_of_loads hvalue)
  · cases h

theorem assertionsMembers_eq (ms : Dict) : assertionsMembers ms =
    (ms.filter fun m => !isAnnotated m.1).map fun m => (m.1, schemaAssertions m.2) := by
  induction ms with
  | nil => rfl
  | cons m ms ih =>
    obtain ⟨k, v⟩ := m
    rw [assertionsMembers]
    by_cases hk : isAnnotated k = true
    · simp [hk, ih]
    · simp [hk, ih]

theorem assertionsList_eq (xs : List Value) : assertionsList xs = xs.map schemaAssertions := by
  induction xs with
  | nil => rfl
  | cons x xs ih => rw [assertionsList, ih, List.map_cons]

theorem distinct_schemaAssertions (v : Value) : v.Distinct → (schemaAssertions v).Distinct := by
  induction v using Json.induct with
  | null | bool | num | str => simp [schemaAssertions, Json.Distinct]
  | arr xs ih =>
    intro h
    rw [schemaAssertions, assertionsList_eq, Json.distinct_arr]
    intro y hy
    obtain ⟨x, hx, rfl⟩ := List.mem_map.1 hy
    exact ih x hx (Json.distinct_arr.1 h x hx)
  | obj ms ih =>
    intro h
    obtain ⟨hnd, hms⟩ := Json.distinct_obj.1 h
    have hperm := Json.perm_sortByName Layout.KeyLE (assertionsMembers ms)
    rw [schemaAssertions, Json.distinct_obj]
    refine ⟨(hperm.map Prod.fst).nodup_iff.2 ?_, fun m hm => ?_⟩
    · rw [assertionsMembers_eq, List.map_map]
      exact hnd.sublist (List.filter_sublist.map Prod.fst)
    · have hm := hperm.mem_iff.1 hm
      rw [assertionsMembers_eq] at hm
      obtain ⟨n, hn, rfl⟩ := List.mem_map.1 hm
      have hn := List.mem_of_mem_filter hn
      exact ih n hn (hms n hn)

theorem distinct_getOr {d : Dict} (hd : (Json.obj d).Distinct) {key : String} {default : Value}
    (hdefault : default.Distinct) : (getOr d key default).Distinct := by
  rw [getOr]
  rcases hv : d.lookup (str key) with _ | v
  · exact hdefault
  · exact (Json.distinct_obj.1 hd).2 _ (Json.mem_of_lookup hv)

theorem distinct_emptyObj : (Json.obj ([] : Dict)).Distinct :=
  Json.distinct_obj.2 ⟨List.nodup_nil, by simp⟩

theorem distinct_emptyArr : (Json.arr ([] : List Value)).Distinct := Json.distinct_arr.2 (by simp)

theorem distinct_schemaSurface {document : Value} {s : SchemaSurface} (hd : document.Distinct)
    (h : schemaSurface document = .ok s) : (Json.obj s.root).Distinct ∧ s.properties.Distinct := by
  have hassertions := distinct_schemaAssertions document hd
  unfold schemaSurface at h
  cases hv : schemaAssertions document with
  | obj d =>
    rw [hv] at h hassertions
    obtain rfl := Except.ok.inj h
    refine ⟨Json.distinct_obj.2 ⟨?_, fun m hm => ?_⟩, distinct_getOr hassertions distinct_emptyObj⟩
    · exact (Json.distinct_obj.1 hassertions).1.sublist (List.filter_sublist.map Prod.fst)
    · exact (Json.distinct_obj.1 hassertions).2 m (List.mem_of_mem_filter hm)
  | _ =>
    rw [hv] at h
    cases h

theorem except_bind_eq_ok {ε α β : Type} {x : Except ε α} {f : α → Except ε β} {b : β} :
    x >>= f = .ok b ↔ ∃ a, x = .ok a ∧ f a = .ok b := by
  cases x with
  | error e => exact ⟨fun h => (by cases h), fun ⟨a, ha, _⟩ => (by cases ha)⟩
  | ok a => exact ⟨fun h => ⟨a, rfl, h⟩, fun ⟨b, hb, h⟩ => by rwa [Except.ok.inj hb]⟩

theorem distinct_schemaSurfaces {artifacts : List (Str × List UInt8)}
    {schemas : List (Str × SchemaSurface)} (h : schemaSurfaces artifacts = .ok schemas) :
    ∀ m ∈ schemas, (Json.obj m.2.root).Distinct ∧ m.2.properties.Distinct := by
  induction artifacts generalizing schemas with
  | nil =>
    obtain rfl := Except.ok.inj h
    simp
  | cons a artifacts ih =>
    obtain ⟨path, content⟩ := a
    rw [schemaSurfaces] at h
    split at h
    · simp only [except_bind_eq_ok] at h
      obtain ⟨document, hdocument, surface, hsurface, rest, hrest, h⟩ := h
      obtain rfl := Except.ok.inj h
      exact List.forall_mem_cons.2
        ⟨distinct_schemaSurface (distinct_of_loadsContent hdocument) hsurface, ih hrest⟩
    · exact ih h

theorem operationSurface_spec {operation : Value} (hoperation : operation.Distinct)
    {keys : List String} {d : Dict} (h : operationSurface operation keys = .ok d) :
    (Json.names d).Sublist (keys.map str) ∧ ∀ m ∈ d, m.2.Distinct := by
  induction keys generalizing d with
  | nil =>
    obtain rfl := Except.ok.inj h
    simp
  | cons key keys ih =>
    simp only [operationSurface, except_bind_eq_ok] at h
    obtain ⟨found, hfound, rest, hrest, h⟩ := h
    obtain rfl := Except.ok.inj h
    obtain ⟨hnames, hvalues⟩ := ih hrest
    cases found with
    | none => exact ⟨hnames.cons _, hvalues⟩
    | some v =>
      refine ⟨by simpa using hnames.cons_cons (str key), List.forall_mem_cons.2 ⟨?_, hvalues⟩⟩
      unfold operationItem at hfound
      split at hfound
      · rename_i ms
        exact (Json.distinct_obj.1 hoperation).2 _ (Json.mem_of_lookup (Except.ok.inj hfound))
      · split_ifs at hfound
        cases hfound
      · split_ifs at hfound
        cases hfound
      · cases hfound

/-- An operation of a surface is a mapping that repeats no key. -/
theorem distinct_pathOperations {path : Str} {items : Dict} (hitems : ∀ m ∈ items, m.2.Distinct)
    {ops : List (Str × Value)} (h : pathOperations path items = .ok ops) :
    ∀ m ∈ ops, m.2.Distinct ∧ isNan m.2 = false := by
  induction items generalizing ops with
  | nil =>
    obtain rfl := Except.ok.inj h
    simp
  | cons item items ih =>
    obtain ⟨method, operation⟩ := item
    obtain ⟨hoperation, hitems⟩ := List.forall_mem_cons.1 hitems
    rw [pathOperations] at h
    split at h
    · simp only [except_bind_eq_ok] at h
      obtain ⟨surface, hsurface, rest, hrest, h⟩ := h
      obtain rfl := Except.ok.inj h
      obtain ⟨hnames, hvalues⟩ := operationSurface_spec hoperation hsurface
      have hnodup : (operationKeys.map str).Nodup := by decide
      exact List.forall_mem_cons.2
        ⟨⟨Json.distinct_obj.2 ⟨hnodup.sublist hnames, hvalues⟩, rfl⟩, ih hitems hrest⟩
    · exact ih hitems h

theorem distinct_operations {items : Dict} (hitems : ∀ m ∈ items, m.2.Distinct)
    {ops : List (Str × Value)} (h : operations items = .ok ops) :
    ∀ m ∈ ops, m.2.Distinct ∧ isNan m.2 = false := by
  induction items generalizing ops with
  | nil =>
    obtain rfl := Except.ok.inj h
    simp
  | cons item items ih =>
    obtain ⟨path, value⟩ := item
    obtain ⟨hvalue, hrest'⟩ := List.forall_mem_cons.1 hitems
    simp only [operations, except_bind_eq_ok, asDict_eq_ok] at h
    obtain ⟨d, rfl, first, hfirst, rest, hrest, h⟩ := h
    obtain rfl := Except.ok.inj h
    have hperm := Json.perm_sortByName Layout.KeyLE d
    refine List.forall_mem_append.2 ⟨distinct_pathOperations (fun m hm => ?_) hfirst, ih hrest' hrest⟩
    exact (Json.distinct_obj.1 hvalue).2 m (hperm.mem_iff.1 hm)

theorem mem_put {α : Type} {d : List (Str × α)} {key : Str} {value : α} {m : Str × α}
    (h : m ∈ put d key value) : m = (key, value) ∨ m ∈ d := by
  induction d with
  | nil => exact .inl (List.mem_singleton.1 h)
  | cons n d ih =>
    rw [put] at h
    split_ifs at h with hk
    · obtain rfl | h := List.mem_cons.1 h
      · exact .inl (by rw [hk])
      · exact .inr (List.mem_cons_of_mem _ h)
    · obtain rfl | h := List.mem_cons.1 h
      · exact .inr List.mem_cons_self
      · exact (ih h).imp_right (List.mem_cons_of_mem _)

theorem mem_ofEntries {α : Type} {entries : List (Str × α)} {m : Str × α}
    (h : m ∈ ofEntries entries) : m ∈ entries := by
  have hfold : ∀ (entries d : List (Str × α)),
      m ∈ entries.foldl (fun d entry => put d entry.1 entry.2) d → m ∈ d ∨ m ∈ entries := by
    intro entries
    induction entries with
    | nil => exact fun d hd => .inl hd
    | cons n entries ih =>
      intro d hd
      obtain hm | hm := ih _ hd
      · obtain rfl | hm := mem_put hm
        · exact .inr List.mem_cons_self
        · exact .inl hm
      · exact .inr (List.mem_cons_of_mem _ hm)
  exact (hfold entries [] h).resolve_left List.not_mem_nil

theorem distinct_openapiSurface {document : Value} (hd : document.Distinct) {s : OpenapiSurface}
    (h : openapiSurface document = .ok s) : s.version.Distinct ∧ s.servers.Distinct ∧
      s.components.Distinct ∧
        ∀ key op, s.operations.lookup key = some op → op.Distinct ∧ isNan op = false := by
  simp only [openapiSurface, except_bind_eq_ok, asDict_eq_ok] at h
  obtain ⟨d, rfl, paths, hpaths, ops, hops, h⟩ := h
  obtain rfl := Except.ok.inj h
  refine ⟨distinct_getOr hd (by simp [Json.Distinct]), distinct_getOr hd distinct_emptyArr,
    distinct_getOr hd distinct_emptyObj, fun key op hop => ?_⟩
  have hpathsDistinct : (Json.obj paths).Distinct := by
    rw [← hpaths]
    exact distinct_getOr hd distinct_emptyObj
  have hperm := Json.perm_sortByName Layout.KeyLE paths
  exact distinct_operations (fun m hm => (Json.distinct_obj.1 hpathsDistinct).2 m
    (hperm.mem_iff.1 hm)) hops _ (mem_ofEntries (Json.mem_of_lookup hop))

theorem distinct_compatibilitySurface {l : Letters} {artifacts : List (Str × List UInt8)}
    {s : Surface} (h : compatibilitySurface l artifacts = .ok s) : s.Distinct ∧
      ∀ key op, s.openapi.operations.lookup key = some op → isNan op = false := by
  simp only [compatibilitySurface, except_bind_eq_ok] at h
  obtain ⟨schemas, hschemas, content, -, document, hdocument, protoContent, -, h⟩ := h
  split at h
  · cases h
  simp only [except_bind_eq_ok] at h
  obtain ⟨openapi, hopenapi, h⟩ := h
  obtain rfl := Except.ok.inj h
  have hmem := distinct_schemaSurfaces hschemas
  obtain ⟨hversion, hservers, hcomponents, hoperations⟩ :=
    distinct_openapiSurface (distinct_of_loadsContent hdocument) hopenapi
  exact ⟨⟨fun path schema hs => (hmem _ (Json.mem_of_lookup hs)).1,
    fun path schema hs => (hmem _ (Json.mem_of_lookup hs)).2, hversion, hservers,
    fun key op hop => (hoperations key op hop).1, hcomponents⟩,
    fun key op hop => (hoperations key op hop).2⟩

end Produced

/-! ## Advancing the baseline -/

section Advancing

/-- A schema with an approved replacement has a version to be replaced. -/
def Surface.Versioned (s : Surface) : Prop :=
  ∀ path schema, s.jsonSchemas.lookup path = some schema → (replacementOf path).isSome →
    ∀ o : Dict, schema.properties = .obj o → (o.lookup (str "schema_version")).isSome

/-- Properties and components are mappings, and what is compared is not a nan. -/
structure Surface.Plain (s : Surface) : Prop where
  properties : ∀ path schema, s.jsonSchemas.lookup path = some schema →
    ∃ d : Dict, schema.properties = .obj d ∧ ∀ k v, d.lookup k = some v → isNan v = false
  version : isNan s.openapi.version = false
  servers : isNan s.openapi.servers = false
  components : ∃ d : Dict, s.openapi.components = .obj d ∧ ∀ category v,
    d.lookup category = some v → isNan v = false ∧
      ∀ e : Dict, v = .obj e → ∀ k w, e.lookup k = some w → isNan w = false

theorem clean_trans {a b c : Surface} (ha : a.Distinct) (hb : b.Distinct) (hc : c.Distinct)
    (hversioned : a.Versioned) (h : Clean (compareCompatibility a b))
    (h' : Clean (compareCompatibility b c)) : Clean (compareCompatibility a c) := by
  obtain ⟨hschemas, hopenapi, hproto⟩ := clean_compareCompatibility.1 h
  obtain ⟨hschemas', hopenapi', hproto'⟩ := clean_compareCompatibility.1 h'
  refine clean_compareCompatibility.2 ⟨clean_compareSchemas.2 fun path s hs => ?_,
    hopenapi.trans hopenapi', hproto.trans hproto'⟩
  obtain ⟨t, ht, hst⟩ := clean_compareSchemas.1 hschemas path s hs
  obtain ⟨u, hu, htu⟩ := clean_compareSchemas.1 hschemas' path t ht
  exact ⟨u, hu, hst.trans (ha.roots path s hs) (hb.roots path t ht) (hc.roots path u hu)
    (ha.properties path s hs) (hversioned path s hs) htu⟩

theorem each_eq_empty {α : Type} {f : α → Findings} {xs : List α} (h : ∀ x ∈ xs, f x = empty) :
    each f xs = empty := by
  induction xs with
  | nil => rfl
  | cons x xs ih =>
    obtain ⟨hx, hxs⟩ := List.forall_mem_cons.1 h
    rw [each, hx, ih hxs]
    rfl

theorem eachM_eq_empty {α : Type} {f : α → Except Exc Findings} {xs : List α}
    (h : ∀ x ∈ xs, f x = .ok empty) : eachM f xs = .ok empty := by
  induction xs with
  | nil => rfl
  | cons x xs ih =>
    obtain ⟨hx, hxs⟩ := List.forall_mem_cons.1 h
    rw [eachM, hx, ih hxs]
    rfl

theorem removedKeys_self {α : Type} (d : List (Str × α)) : removedKeys d d = [] := by
  rw [List.eq_nil_iff_forall_not_mem]
  intro k hk
  rw [mem_removedKeys] at hk
  exact hk.2 hk.1

theorem compareExactAdditiveMap_self {α : Type} {differ : α → α → Bool} (label : Str)
    {d : List (Str × α)} (replacements : List (String × String))
    (h : ∀ k v, d.lookup k = some v → differ v v = false) :
    compareExactAdditiveMap differ label d d replacements = empty := by
  rw [compareExactAdditiveMap, removedKeys_self, @each_eq_empty _ _ (commonKeys d d)]
  · rfl
  · intro k hk
    obtain ⟨v, hv⟩ := mem_names_iff.1 (mem_commonKeys.1 hk).1
    simp [hv, h k v hv]

theorem compareGroups_self {α : Type} [DecidableEq α] (group memberLabel : String)
    (groups : List (Str × List (Str × α))) :
    compareGroups group memberLabel groups groups = empty := by
  rw [compareGroups, removedKeys_self, @each_eq_empty _ _ (commonKeys groups groups)]
  · rfl
  · intro name hname
    obtain ⟨g, hg⟩ := mem_names_iff.1 (mem_commonKeys.1 hname).1
    simp only [hg]
    exact compareExactAdditiveMap_self _ _ fun k v _ => by simp

theorem differ_self {v : Value} (hv : v.Distinct) (hnan : isNan v = false) : differ v v = false :=
  differ_eq_false.2 (equal_refl hv hnan)

theorem compareSchemas_self {s : Surface} (hs : s.Distinct) (hplain : s.Plain) :
    compareSchemas s.jsonSchemas s.jsonSchemas = .ok empty := by
  rw [compareSchemas, removedKeys_self, eachM_eq_empty]
  · rfl
  · intro path hpath
    obtain ⟨schema, hschema⟩ := mem_names_iff.1 (mem_commonKeys.1 hpath).1
    obtain ⟨d, hd, hnan⟩ := hplain.properties path schema hschema
    have hdistinct := hs.properties path schema hschema
    rw [hd, Json.distinct_obj] at hdistinct
    have hroot : differ (.obj schema.root) (.obj schema.root) = false :=
      differ_self (hs.roots path schema hschema) rfl
    simp only [hschema, compareSchema, hroot, hd, asDict]
    show Except.ok (compareExactAdditiveMap differ _ d d []) = _
    rw [compareExactAdditiveMap_self]
    exact fun k v hv => differ_self (hdistinct.2 _ (Json.mem_of_lookup hv)) (hnan k v hv)

theorem compareOpenapi_self {s : Surface} (hs : s.Distinct) (hplain : s.Plain)
    (hoperations : ∀ key op, s.openapi.operations.lookup key = some op → isNan op = false) :
    compareOpenapi s.openapi s.openapi = .ok empty := by
  obtain ⟨d, hd, hnan⟩ := hplain.components
  have hdistinct := hs.components
  rw [hd, Json.distinct_obj] at hdistinct
  have hcategory : ∀ category, compareCategory category ((d.lookup category).getD (.obj []))
      ((d.lookup category).getD (.obj [])) = empty := by
    intro category
    rcases hv : d.lookup category with _ | v
    · show compareExactAdditiveMap differ (concat [str "OpenAPI ", category, str " component"])
        ([] : Dict) [] (if category = str "schemas" then approvedOpenapiComponentReplacements
          else []) = empty
      exact compareExactAdditiveMap_self _ _ fun k v hv => by simp at hv
    obtain ⟨hv', hentries⟩ := hnan category v hv
    have hvdistinct := hdistinct.2 _ (Json.mem_of_lookup hv)
    have hsame : differ v v = false := differ_self hvdistinct hv'
    rw [Option.getD_some]
    cases v with
    | obj e =>
      exact compareExactAdditiveMap_self _ _ fun k w hw => differ_self
        ((Json.distinct_obj.1 hvdistinct).2 _ (Json.mem_of_lookup hw)) (hentries e rfl k w hw)
    | _ => simp [compareCategory, hsame]
  rw [compareOpenapi, hd]
  show Except.ok _ = _
  rw [differ_self hs.version hplain.version, differ_self hs.servers hplain.servers,
    compareExactAdditiveMap_self _ _ fun k v hv =>
      differ_self (hs.operations k v hv) (hoperations k v hv),
    each_eq_empty fun category _ => hcategory category]
  rfl

theorem compareCompatibility_self {s : Surface} (hs : s.Distinct) (hplain : s.Plain)
    (hoperations : ∀ key op, s.openapi.operations.lookup key = some op → isNan op = false) :
    compareCompatibility s s = .ok empty := by
  rw [compareCompatibility, compareSchemas_self hs hplain, compareOpenapi_self hs hplain hoperations]
  show Except.ok (_ ++ _ ++ compareProtobuf s.protobuf s.protobuf) = _
  rw [compareProtobuf, compareGroups_self, compareGroups_self, compareGroups_self]
  simp
  rfl

/-- Artifacts with a catalog schema and nothing else. -/
def catalogArtifacts (schema : Value) : List (Str × List UInt8) :=
  [(str "contracts/client/customer-incapability-catalog.schema.json",
      Unicode.utf8 (dumps .plain schema)),
    (str "contracts/openapi/openapi.yaml", Unicode.utf8 (dumps .plain (.obj []))),
    (str "contracts/proto/jumpship/cell/v1/cell.proto", [])]

/-- Their surface. -/
def catalogSurface (schema : SchemaSurface) : Surface where
  jsonSchemas := [(str "contracts/client/customer-incapability-catalog.schema.json", schema)]
  openapi := ⟨.null, .arr [], [], .obj []⟩
  protobuf := ⟨none, none, [], [], []⟩

theorem loadsContent_dumps {v : Value} (hv : ReadableValue v) :
    loadsContent (Unicode.utf8 (dumps .plain v)) = .ok v := by
  have h := loads_dumps Layout.spaced_plain hv (t := []) (by simp)
  rw [List.append_nil, Layout.normal, if_neg (by decide)] at h
  rw [loadsContent, Unicode.utf8Decode_utf8, Option.bind_some, h]

theorem compatibilitySurface_catalog {schema : Value} {s : SchemaSurface}
    (hv : ReadableValue schema) (hs : schemaSurface schema = .ok s) :
    compatibilitySurface .ascii (catalogArtifacts schema) = .ok (catalogSurface s) := by
  have hsort : Json.sortByName Layout.KeyLE (catalogArtifacts schema) = catalogArtifacts schema :=
    Json.sortByName_eq_self _ (by
      simp only [catalogArtifacts, List.pairwise_cons, List.mem_cons, List.not_mem_nil, or_false,
        forall_eq_or_imp, forall_eq, false_imp_iff, implies_true, List.Pairwise.nil, and_true]
      decide)
  have hschemas : schemaSurfaces (catalogArtifacts schema)
      = .ok (catalogSurface s).jsonSchemas := by
    rw [catalogArtifacts, schemaSurfaces, if_pos (by decide), loadsContent_dumps hv]
    show (do
      let surface ← schemaSurface schema
      let rest ← schemaSurfaces _
      pure ((_, surface) :: rest)) = _
    rw [hs, schemaSurfaces, if_neg (by decide), schemaSurfaces, if_neg (by decide)]
    rfl
  have hopenapi : artifact (catalogArtifacts schema) "contracts/openapi/openapi.yaml"
      = .ok (Unicode.utf8 (dumps .plain (.obj []))) := rfl
  have hproto : artifact (catalogArtifacts schema)
      "contracts/proto/jumpship/cell/v1/cell.proto" = .ok [] := rfl
  have hempty : ReadableValue (.obj []) := readableValue_obj.2 ⟨List.nodup_nil, by simp⟩
  rw [compatibilitySurface, hsort, hschemas, hopenapi, hproto]
  simp only [bind, Except.bind]
  rw [loadsContent_dumps hempty]
  rfl

/-- A version and nothing else. -/
def versionProperties (version : String) : Value :=
  dict [("schema_version", dict [("const", string version)])]

theorem readable_string {s : String} (h : ∀ c ∈ (str s).codes, c < 0x80) :
    ReadableValue (string s) := .of_ascii h

theorem readable_dict {fields : Fields} (hnames : (Json.names fields.entries).Nodup)
    (h : ∀ f ∈ fields, (∀ c ∈ (str f.1).codes, c < 0x80) ∧ ReadableValue f.2) :
    ReadableValue (dict fields) := by
  refine readableValue_obj.2 ⟨hnames, fun m hm => ?_⟩
  obtain ⟨f, hf, rfl⟩ := List.mem_map.1 hm
  exact ⟨.of_ascii (h f hf).1, (h f hf).2⟩

theorem readable_versionProperties {version : String}
    (h : ∀ c ∈ (str version).codes, c < 0x80) : ReadableValue (versionProperties version) := by
  have hnames : (∀ c ∈ (str "schema_version").codes, c < 0x80) ∧
      ∀ c ∈ (str "const").codes, c < 0x80 := by decide
  refine readable_dict (by simp [Fields.entries]) (List.forall_mem_singleton.2 ⟨hnames.1, ?_⟩)
  exact readable_dict (by simp [Fields.entries])
    (List.forall_mem_singleton.2 ⟨hnames.2, readable_string h⟩)

/-- The surface of a schema with these properties. -/
theorem surface_properties {properties : Value} {s : SchemaSurface} (h : ReadableValue properties)
    (hs : schemaSurface (dict [("properties", properties)]) = .ok s) :
    compatibilitySurface .ascii (catalogArtifacts (dict [("properties", properties)]))
      = .ok (catalogSurface s) := by
  have hname : ∀ c ∈ (str "properties").codes, c < 0x80 := by decide
  exact compatibilitySurface_catalog (readable_dict (by simp [Fields.entries])
    (List.forall_mem_singleton.2 ⟨hname, h⟩)) hs

end Advancing

end Codegen
