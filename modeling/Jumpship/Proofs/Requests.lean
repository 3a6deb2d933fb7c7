import Jumpship.DependencyLocks.Requests
import Jumpship.Lib.Fallible

/-!
# When the checks of a request return

`request_errors` returns exactly on the documents it can handle: it raises where a value that no set can
hold is looked up in one, where a URL is no string or one that does not parse, and where the document is
nested deeper than the frames left. An empty list of errors means that the fields have their types.
-/

namespace DependencyLocks

open Fallible Py

/-! ## Returning -/

section Returning

variable {α β ε : Type}

def Returns (x : Except ε α) : Prop := ∃ a, x = .ok a

theorem returns_pure {a : α} : Returns (pure a : Except ε α) := ⟨a, rfl⟩

theorem not_returns_throw {e : ε} : ¬ Returns (throw e : Except ε α) := fun ⟨_, h⟩ => nomatch h

theorem returns_unless {p : Bool} {e : ε} {a : α} :
    Returns (if p = true then throw e else pure a : Except ε α) ↔ p = false := by
  cases p with
  | true => exact iff_of_false not_returns_throw (by simp)
  | false => exact iff_of_true returns_pure rfl

theorem returns_bind {x : Except ε α} {f : α → Except ε β} :
    Returns (x >>= f) ↔ ∃ a, x = .ok a ∧ Returns (f a) := by
  simp only [Returns, bind_eq_ok]
  constructor
  · rintro ⟨b, a, ha, hb⟩
    exact ⟨a, ha, b, hb⟩
  · rintro ⟨a, ha, b, hb⟩
    exact ⟨b, a, ha, hb⟩

/-- The rest returns whatever the first part has answered. -/
theorem returns_bind_of {x : Except ε α} {f : α → Except ε β} {p : Prop} (h : ∀ a, Returns (f a) ↔ p) :
    Returns (x >>= f) ↔ Returns x ∧ p := by
  rw [returns_bind]
  simp only [h, exists_and_right]
  rfl

theorem returns_bind_pure {x : Except ε α} {f : α → β} :
    Returns (x >>= fun a => pure (f a)) ↔ Returns x := by
  rw [returns_bind_of fun a => iff_true_intro (returns_pure (a := f a)), and_true]

theorem returns_mapM {f : α → Except ε β} {xs : List α} :
    Returns (xs.mapM f) ↔ ∀ x ∈ xs, Returns (f x) := by
  induction xs with
  | nil => simp [returns_pure]
  | cons x xs ih =>
    rw [List.mapM_cons, List.forall_mem_cons, ← ih]
    simp only [returns_bind]
    constructor
    · rintro ⟨y, hy, ys, hys, -⟩
      exact ⟨⟨y, hy⟩, ys, hys⟩
    · rintro ⟨⟨y, hy⟩, ys, hys⟩
      exact ⟨y, hy, ys, hys, returns_pure⟩

end Returning

/-! ## The values handled -/

section Handled

variable (urlparse : Str → Option ParsedUrl)

/-- A value no deeper than so many frames. -/
def nestsIn : ℕ → Value → Bool
  | 0, _ => false
  | frames + 1, value =>
    match value with
    | .obj ms => ms.all fun m => nestsIn frames m.2
    | .arr xs => xs.all (nestsIn frames)
    | _ => true

/-- A string that parses as a URL, or a false value. -/
def UrlHandled : Value → Prop
  | .str s => (urlparse s).isSome
  | value => truthy value = false

def IntegrityHandled : Value → Prop
  | .obj integrity => hasExactly integrity ["algorithm", "value", "source_url"] = true →
      hashable (getField integrity "algorithm") = true
        ∧ UrlHandled urlparse (getOr integrity "source_url" (.str (str "")))
  | _ => True

/-- What the loop over the dependencies can handle of one. -/
def DependencyChecked : Value → Prop
  | .obj dependency =>
    hashable (getField dependency "ecosystem") = true ∧ hashable (getField dependency "license") = true
      ∧ UrlHandled urlparse (getOr dependency "source_url" (.str (str "")))
      ∧ IntegrityHandled urlparse (getField dependency "integrity")
  | _ => True

/-- The identity of a dependency. -/
def identityOf : Value → List (Value × Value)
  | .obj dependency => [(getField dependency "ecosystem", getField dependency "name")]
  | _ => []

def DependencyHandled (dependency : Value) : Prop :=
  DependencyChecked urlparse dependency
    ∧ ∀ identity ∈ identityOf dependency, hashable identity.1 = true ∧ hashable identity.2 = true

def DependenciesHandled : Value → Prop
  | .arr dependencies => ∀ dependency ∈ dependencies, DependencyHandled urlparse dependency
  | _ => True

def ElementsHandled : Value → Prop
  | .arr items => ∀ item ∈ items, hashable item = true
  | _ => True

def RequirementsHandled : Value → Prop
  | .arr [x, y, z] => ElementsHandled (.arr [x, y, z])
  | _ => True

def RiskHandled : Value → Prop
  | .obj risk =>
    hasExactly risk ["security_sensitive", "data_boundary_impact", "justification"] = true →
      hashable (getField risk "data_boundary_impact") = true
  | _ => True

/-- The documents that `request_errors` can handle. -/
def Handled (frames : ℕ) : Option Value → Prop
  | some (.obj request) =>
    hashable (getField request "status") = true
      ∧ DependenciesHandled urlparse (getField request "dependencies")
      ∧ ElementsHandled (getField request "affected_lockfiles")
      ∧ RequirementsHandled (getField request "validation_requirements")
      ∧ RiskHandled (getField request "risk") ∧ nestsIn frames (.obj request) = true
  | _ => True

end Handled

/-! ## Where the parts return -/

section Parts

variable (urlparse : Str → Option ParsedUrl)

theorem memberOf_eq_ok {value : Value} {options : List Str} {b : Bool} :
    memberOf value options = .ok b ↔ hashable value = true ∧ isOneOf value options = b := by
  unfold memberOf
  split_ifs with h
  · simp only [h, true_and]
    exact ⟨Except.ok.inj, congrArg _⟩
  · exact iff_of_false (fun h => nomatch h) fun h' => h h'.1

theorem returns_memberOf {value : Value} {options : List Str} :
    Returns (memberOf value options) ↔ hashable value = true := by
  simp only [Returns, memberOf_eq_ok, exists_and_left, exists_eq', and_true]

theorem returns_isHttps {value : Value} :
    Returns (isHttps urlparse value) ↔ UrlHandled urlparse value := by
  cases value with
  | str s =>
    rw [isHttps, UrlHandled]
    cases urlparse s with
    | none => exact iff_of_false not_returns_throw (by simp)
    | some parsed => exact iff_of_true returns_pure rfl
  | _ =>
    simp only [isHttps, UrlHandled]
    split_ifs with h
    · exact iff_of_false not_returns_throw (by simp [h])
    · exact iff_of_true returns_pure (by simpa using h)

theorem returns_statusErrors (request : Dict) :
    Returns (statusErrors request) ↔ hashable (getField request "status") = true := by
  rw [statusErrors, returns_bind_pure, returns_memberOf]

theorem returns_integrityErrors (index : ℕ) (integrity : Value) :
    Returns (integrityErrors urlparse index integrity) ↔ IntegrityHandled urlparse integrity := by
  cases integrity with
  | obj d =>
    rw [integrityErrors, IntegrityHandled]
    by_cases h : hasExactly d ["algorithm", "value", "source_url"] = true
    · rw [if_neg (by simp [h]), returns_bind_of fun _ => returns_bind_pure, returns_memberOf,
        returns_isHttps]
      exact ⟨fun h' _ => h', fun h' => h' h⟩
    · rw [if_pos (by simp [h])]
      exact iff_of_true returns_pure fun h' => absurd h' h
  | _ => exact iff_of_true returns_pure trivial

theorem returns_dependencyErrors (index : ℕ) (dependency : Value) :
    Returns (dependencyErrors urlparse index dependency) ↔ DependencyChecked urlparse dependency := by
  cases dependency with
  | obj d =>
    rw [dependencyErrors, returns_bind_of fun _ => returns_bind_of fun _ => returns_bind_of fun _ =>
      returns_bind_pure, returns_memberOf, returns_memberOf, returns_isHttps, returns_integrityErrors]
    rfl
  | _ => exact iff_of_true returns_pure trivial

theorem dependencyErrors_snd {index : ℕ} {dependency : Value}
    {found : List RequestError × List (Value × Value)}
    (h : dependencyErrors urlparse index dependency = .ok found) : found.2 = identityOf dependency := by
  cases dependency with
  | obj d =>
    rw [dependencyErrors] at h
    simp only [bind_eq_ok] at h
    obtain ⟨_, -, _, -, _, -, _, -, hfound⟩ := h
    rw [← Except.ok.inj hfound]
    rfl
  | _ =>
    rw [← Except.ok.inj h]
    rfl

/-- What the loop over the dependencies has found holds their identities. -/
theorem flatMap_identities {xs : List (Value × ℕ)} {found : List (List RequestError × List (Value × Value))}
    (h : xs.mapM (fun (d, index) => dependencyErrors urlparse index d) = .ok found) :
    found.flatMap Prod.snd = xs.flatMap fun x => identityOf x.1 := by
  have hforall := mapM_eq_ok.1 h
  clear h
  induction hforall with
  | nil => rfl
  | cons hx _ ih => rw [List.flatMap_cons, List.flatMap_cons, ih, dependencyErrors_snd urlparse hx]

theorem returns_dependenciesErrors (value : Value) :
    Returns (dependenciesErrors urlparse value) ↔ DependenciesHandled urlparse value := by
  cases value with
  | arr dependencies =>
    cases dependencies with
    | nil => exact iff_of_true returns_pure fun _ h => nomatch h
    | cons d ds =>
      have hmapM : Returns ((d :: ds).zipIdx.mapM fun p => dependencyErrors urlparse p.2 p.1)
          ↔ ∀ x ∈ d :: ds, DependencyChecked urlparse x := by
        simp only [returns_mapM, returns_dependencyErrors]
        rw [← List.forall_mem_map (f := Prod.fst) (P := DependencyChecked urlparse), List.zipIdx_map_fst]
      have hids {found : List (List RequestError × List (Value × Value))}
          (h : (d :: ds).zipIdx.mapM (fun p => dependencyErrors urlparse p.2 p.1) = .ok found) :
          found.flatMap Prod.snd = (d :: ds).flatMap identityOf := by
        rw [flatMap_identities urlparse h, ← List.flatMap_map Prod.fst identityOf, List.zipIdx_map_fst]
      have hhash : ((d :: ds).flatMap identityOf).any (fun identity =>
            !hashable identity.1 || !hashable identity.2) = false
          ↔ ∀ x ∈ d :: ds, ∀ identity ∈ identityOf x,
            hashable identity.1 = true ∧ hashable identity.2 = true := by
        rw [List.any_eq_false]
        simp only [List.mem_flatMap, Bool.or_eq_true, Bool.not_eq_true', not_or, Bool.not_eq_false,
          forall_exists_index, and_imp]
        exact ⟨fun h x hx identity hidentity => h identity x hx hidentity,
          fun h identity x hx hidentity => h x hx identity hidentity⟩
      rw [dependenciesErrors, returns_bind]
      constructor
      · rintro ⟨found, hfound, hrest⟩
        have hchecked := hmapM.1 ⟨found, hfound⟩
        rw [hids hfound, returns_unless, hhash] at hrest
        exact fun x hx => ⟨hchecked x hx, hrest x hx⟩
      · intro h
        obtain ⟨found, hfound⟩ := hmapM.2 fun x hx => (h x hx).1
        refine ⟨found, hfound, ?_⟩
        rw [hids hfound, returns_unless, hhash]
        exact fun x hx => (h x hx).2
  | _ => exact iff_of_true returns_pure trivial

theorem returns_lockfilesErrors (value : Value) : Returns (lockfilesErrors value) ↔ ElementsHandled value := by
  cases value with
  | arr paths =>
    cases paths with
    | nil => exact iff_of_true returns_pure fun _ h => nomatch h
    | cons path paths =>
      rw [lockfilesErrors, ElementsHandled]
      by_cases h : (path :: paths).any (fun item => !hashable item) = true
      · rw [if_pos h]
        refine iff_of_false not_returns_throw fun h' => ?_
        obtain ⟨item, hitem, hhash⟩ := List.any_eq_true.1 h
        simp [h' item hitem] at hhash
      · rw [if_neg h]
        refine iff_of_true (by split_ifs <;> exact returns_pure) fun item hitem => ?_
        have := List.any_eq_false.1 (Bool.eq_false_iff.2 h) item hitem
        simpa using this
  | _ => exact iff_of_true returns_pure trivial

theorem returns_requirementsErrors (value : Value) :
    Returns (requirementsErrors value) ↔ RequirementsHandled value := by
  by_cases h : ∃ x y z, value = .arr [x, y, z]
  · obtain ⟨x, y, z, rfl⟩ := h
    simp only [requirementsErrors, RequirementsHandled]
    rw [returns_unless, List.any_eq_false]
    simp only [Bool.not_eq_true', Bool.not_eq_false]
    rfl
  · have herrors : Returns (requirementsErrors value) := by
      unfold requirementsErrors
      split
      · exact absurd ⟨_, _, _, rfl⟩ h
      · exact returns_pure
    have hhandled : RequirementsHandled value := by
      unfold RequirementsHandled
      split
      · exact absurd ⟨_, _, _, rfl⟩ h
      · trivial
    exact iff_of_true herrors hhandled

theorem returns_riskErrors (value : Value) : Returns (riskErrors value) ↔ RiskHandled value := by
  cases value with
  | obj risk =>
    rw [riskErrors, RiskHandled]
    by_cases h : hasExactly risk ["security_sensitive", "data_boundary_impact", "justification"] = true
    · rw [if_neg (by simp [h]), returns_bind_pure, returns_memberOf]
      exact ⟨fun h' _ => h', fun h' => h' h⟩
    · rw [if_pos (by simp [h])]
      exact iff_of_true returns_pure fun h' => absurd h' h
  | _ => exact iff_of_true returns_pure trivial

theorem returns_keysContainingSecrets (frames : ℕ) (location : Codes) (value : Value) :
    Returns (keysContainingSecrets frames location value) ↔ nestsIn frames value = true := by
  induction frames generalizing location value with
  | zero => exact iff_of_false not_returns_throw (by simp [nestsIn])
  | succ frames ih =>
    cases value with
    | obj ms =>
      simp only [keysContainingSecrets, returns_bind_pure, returns_mapM, nestsIn, List.all_eq_true, ih]
    | arr xs =>
      simp only [keysContainingSecrets, returns_bind_pure, returns_mapM, nestsIn, List.all_eq_true, ih]
      rw [← List.forall_mem_map (f := Prod.fst) (P := fun x => nestsIn frames x = true),
        List.zipIdx_map_fst]
    | _ => exact iff_of_true returns_pure rfl

/-- `request_errors` returns on what it can handle. -/
theorem returns_documentErrors (frames : ℕ) (text : Value → Str) (name : Str) (document : Option Value) :
    Returns (documentErrors urlparse frames text name document) ↔ Handled urlparse frames document := by
  unfold documentErrors Handled
  split
  · exact iff_of_true returns_pure trivial
  · rw [returns_bind_of fun _ => returns_bind_of fun _ => returns_bind_of fun _ => returns_bind_of fun _ =>
      returns_bind_of fun _ => returns_bind_pure, returns_statusErrors, returns_dependenciesErrors,
      returns_lockfilesErrors, returns_requirementsErrors, returns_riskErrors, secretErrors,
      returns_bind_pure, returns_keysContainingSecrets]
  · rename_i h
    refine iff_of_true returns_pure ?_
    split
    · rename_i heq
      exact (h _ (Option.some.inj heq)).elim
    · trivial

end Parts

/-! ## What an empty list of errors means -/

section Typed

def IsStr (value : Value) : Prop := ∃ s, value = .str s

/-- A list with elements, each of a kind. -/
def IsListOf (kind : Value → Prop) (value : Value) : Prop :=
  ∃ items, value = .arr items ∧ items ≠ [] ∧ ∀ item ∈ items, kind item

def IntegrityTyped (value : Value) : Prop :=
  ∃ integrity, value = .obj integrity ∧
    ∀ key ∈ ["algorithm", "value", "source_url"], IsStr (getField integrity key)

def DependencyTyped (value : Value) : Prop :=
  ∃ dependency, value = .obj dependency
    ∧ (∀ key ∈ ["ecosystem", "name", "version", "license", "source_url"], IsStr (getField dependency key))
    ∧ IntegrityTyped (getField dependency "integrity")

/-- A document whose fields have their types. -/
def WellTyped (document : Option Value) : Prop :=
  ∃ request, document = some (.obj request)
    ∧ IsStr (getField request "status") ∧ IsStr (getField request "packet_id")
    ∧ IsListOf DependencyTyped (getField request "dependencies")
    ∧ IsListOf IsStr (getField request "affected_lockfiles")
    ∧ IsListOf IsStr (getField request "affected_builds")
    ∧ IsListOf IsStr (getField request "validation_requirements")

theorem check_eq_nil {holds : Bool} {message : String} : check holds message = [] ↔ holds = true := by
  cases holds <;> simp [check]

theorem checkAt_eq_nil {index : ℕ} {holds : Bool} {message : String} :
    checkAt index holds message = [] ↔ holds = true := by
  cases holds <;> simp [checkAt]

theorem isStr_of_isOneOf {value : Value} {options : List Str} (h : isOneOf value options = true) :
    IsStr value := by
  cases value with
  | str s => exact ⟨s, rfl⟩
  | _ => cases h

theorem isStr_of_isNonEmptyStr {value : Value} (h : isNonEmptyStr value = true) : IsStr value := by
  cases value with
  | str s => exact ⟨s, rfl⟩
  | _ => cases h

theorem isStr_of_isVisibleStr {value : Value} (h : isVisibleStr value = true) : IsStr value := by
  cases value with
  | str s => exact ⟨s, rfl⟩
  | _ => cases h

theorem isStr_of_exactVersion {value : Value} (h : exactVersion value = true) : IsStr value := by
  cases value with
  | str s => exact ⟨s, rfl⟩
  | _ => cases h

theorem isStr_of_fullmatch {re : RegularExpression ℕ} {value : Value} (h : fullmatch re value = true) :
    IsStr value := by
  cases value with
  | str s => exact ⟨s, rfl⟩
  | _ => cases h

theorem isStr_of_integrityValid {algorithm value : Value} (h : integrityValid algorithm value = true) :
    IsStr value := by
  cases algorithm with
  | str a =>
    cases value with
    | str s => exact ⟨s, rfl⟩
    | _ => cases h
  | _ => cases h

variable (urlparse : Str → Option ParsedUrl)

theorem isStr_of_isHttps {value : Value} (h : isHttps urlparse value = .ok true) : IsStr value := by
  cases value with
  | str s => exact ⟨s, rfl⟩
  | _ =>
    simp only [isHttps] at h
    split_ifs at h
    cases h

theorem getOr_of_hasExactly {d : Dict} {keys : List String} (h : hasExactly d keys = true) {key : String}
    (hkey : key ∈ keys) (default : Value) : getOr d key default = getField d key := by
  rw [hasExactly, Bool.and_eq_true, List.all_eq_true, List.all_eq_true] at h
  obtain ⟨value, hvalue⟩ := Option.isSome_iff_exists.1 (h.2 key hkey)
  rw [getField, getOr, getOr, hvalue]
  rfl

theorem integrityTyped_of_ok {index : ℕ} {value : Value}
    (h : integrityErrors urlparse index value = .ok []) : IntegrityTyped value := by
  cases value with
  | obj d =>
    rw [integrityErrors] at h
    split_ifs at h with hkeys
    · cases h
    simp only [bind_eq_ok, memberOf_eq_ok] at h
    obtain ⟨supported, ⟨-, hsupported⟩, https, hhttps, h⟩ := h
    have hnil := Except.ok.inj h
    simp only [List.append_eq_nil_iff, checkAt_eq_nil] at hnil
    obtain ⟨⟨rfl, hvalid⟩, rfl⟩ := hnil
    have hexact : hasExactly d ["algorithm", "value", "source_url"] = true := by simpa using hkeys
    rw [getOr_of_hasExactly hexact (by simp)] at hhttps
    refine ⟨d, rfl, ?_⟩
    simp only [List.forall_mem_cons]
    exact ⟨isStr_of_isOneOf hsupported, isStr_of_integrityValid hvalid, isStr_of_isHttps urlparse hhttps,
      fun _ h => nomatch h⟩
  | _ => cases h

theorem dependencyTyped_of_ok {index : ℕ} {value : Value} {identities : List (Value × Value)}
    (h : dependencyErrors urlparse index value = .ok ([], identities)) : DependencyTyped value := by
  cases value with
  | obj d =>
    rw [dependencyErrors] at h
    simp only [bind_eq_ok, memberOf_eq_ok] at h
    obtain ⟨ecosystem, ⟨-, hecosystem⟩, license, ⟨-, hlicense⟩, https, hhttps, integrity, hintegrity, h⟩ := h
    have hnil := congrArg Prod.fst (Except.ok.inj h)
    simp only [List.append_eq_nil_iff, checkAt_eq_nil] at hnil
    obtain ⟨⟨⟨⟨⟨⟨⟨⟨hexact, rfl⟩, hname⟩, hversion⟩, rfl⟩, -⟩, rfl⟩, -⟩, rfl⟩ := hnil
    rw [getOr_of_hasExactly hexact (by simp)] at hhttps
    refine ⟨d, rfl, ?_, integrityTyped_of_ok urlparse hintegrity⟩
    simp only [List.forall_mem_cons]
    exact ⟨isStr_of_isOneOf hecosystem, isStr_of_isNonEmptyStr hname, isStr_of_exactVersion hversion,
      isStr_of_isOneOf hlicense, isStr_of_isHttps urlparse hhttps, fun _ h => nomatch h⟩
  | _ => cases h

theorem dependencies_of_ok {value : Value} (h : dependenciesErrors urlparse value = .ok []) :
    IsListOf DependencyTyped value := by
  cases value with
  | arr dependencies =>
    cases dependencies with
    | nil => cases h
    | cons d ds =>
      obtain ⟨found, hfound, h⟩ := bind_eq_ok.1 h
      simp only [] at h
      split_ifs at h
      have hnil := Except.ok.inj h
      rw [List.append_eq_nil_iff, List.flatMap_eq_nil_iff] at hnil
      refine ⟨d :: ds, rfl, by simp, fun x hx => ?_⟩
      rw [← List.zipIdx_map_fst 0 (d :: ds)] at hx
      obtain ⟨⟨x, index⟩, hmem, rfl⟩ := List.mem_map.1 hx
      obtain ⟨⟨errors, identities⟩, hy, hfx⟩ := exists_of_mapM_eq_ok hfound _ hmem
      obtain rfl : errors = [] := hnil.1 _ hy
      exact dependencyTyped_of_ok urlparse hfx
  | _ => cases h

theorem lockfiles_of_ok {value : Value} (h : lockfilesErrors value = .ok []) : IsListOf IsStr value := by
  cases value with
  | arr paths =>
    cases paths with
    | nil => cases h
    | cons path paths =>
      rw [lockfilesErrors] at h
      split_ifs at h with hhash hall
      · cases h
      refine ⟨path :: paths, rfl, by simp, fun item hitem => ?_⟩
      have hall : (path :: paths).all (fun item => isOneOf item lockPaths) = true := by simpa using hall
      exact isStr_of_isOneOf (List.all_eq_true.1 hall item hitem)
  | _ => cases h

theorem builds_of_nil {value : Value} (h : buildsErrors value = []) : IsListOf IsStr value := by
  cases value with
  | arr builds =>
    cases builds with
    | nil => cases h
    | cons build builds =>
      rw [buildsErrors] at h
      split_ifs at h with hall
      have hall : (build :: builds).all isVisibleStr = true := by simpa using hall
      exact ⟨_, rfl, by simp, fun item hitem => isStr_of_isVisibleStr (List.all_eq_true.1 hall item hitem)⟩
  | _ => cases h

theorem requirements_of_ok {value : Value} (h : requirementsErrors value = .ok []) :
    IsListOf IsStr value := by
  unfold requirementsErrors at h
  split at h
  · simp only [] at h
    split_ifs at h
    have hnil := Except.ok.inj h
    rw [check_eq_nil, Bool.and_eq_true] at hnil
    exact ⟨_, rfl, by simp, fun item hitem => isStr_of_isOneOf (List.all_eq_true.1 hnil.1 item hitem)⟩
  · cases h

theorem status_of_ok {request : Dict} (h : statusErrors request = .ok []) :
    IsStr (getField request "status") := by
  rw [statusErrors, bind_eq_ok] at h
  obtain ⟨known, hknown, h⟩ := h
  have hnil := Except.ok.inj h
  simp only [List.append_eq_nil_iff, check_eq_nil] at hnil
  obtain ⟨⟨⟨rfl, -⟩, -⟩, -⟩ := hnil
  exact isStr_of_isOneOf (memberOf_eq_ok.1 hknown).2

/-- A document without errors has its fields of their types. -/
theorem wellTyped_of_ok {frames : ℕ} {text : Value → Str} {name : Str} {document : Option Value}
    (h : documentErrors urlparse frames text name document = .ok []) : WellTyped document := by
  unfold documentErrors at h
  split at h
  · cases h
  · simp only [bind_eq_ok] at h
    obtain ⟨status, hstatus, dependencies, hdependencies, lockfiles, hlockfiles, requirements,
      hrequirements, risk, -, secrets, -, h⟩ := h
    have hnil := Except.ok.inj h
    simp only [List.append_eq_nil_iff, headErrors, check_eq_nil] at hnil
    obtain ⟨⟨⟨⟨⟨⟨⟨hhead, rfl⟩, rfl⟩, rfl⟩, hbuilds⟩, rfl⟩, -⟩, -⟩ := hnil
    obtain ⟨⟨⟨⟨⟨⟨-, hpacket⟩, -⟩, -⟩, -⟩, -⟩, -⟩ := hhead
    exact ⟨_, rfl, status_of_ok hstatus, isStr_of_fullmatch hpacket,
      dependencies_of_ok urlparse hdependencies, lockfiles_of_ok hlockfiles, builds_of_nil hbuilds,
      requirements_of_ok hrequirements⟩
  · cases h

end Typed

end DependencyLocks
