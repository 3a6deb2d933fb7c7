import Jumpship.Packets.Commands
import Jumpship.Proofs.PacketGraph

/-!
# Which hooks a selector reaches

A selector that lists references selects those hooks and no others, so a hook of its identity is left
out unless some selector refers to it. Every other registered hook is reached.
-/

namespace Packets

open Fallible Py

/-! ## What validation has checked -/

section Registered

structure Registered (catalog : Catalog) : Prop where
  selectors : (catalog.selectors.map Selector.identity).Nodup
  selector : ∀ s ∈ catalog.selectors, s.key ∈ selectorKeys ∧ fullmatch selectorRe s.value = true
  targets : (catalog.hooks.map (·.target)).Nodup
  hook : ∀ h ∈ catalog.hooks,
    (catalog.targets.find? (·.name = h.dispatcher)).any (·.kind ∈ dispatcherKinds) = true
  references : ∀ s ∈ catalog.selectors, ∀ r ∈ s.hookRefs,
    ∃ h ∈ catalog.hooks, h.target = r ∧ h.dispatcher = s.target
  registration : ∀ h ∈ catalog.hooks, (∃ s ∈ catalog.selectors, s.identity = h.identity) ∨
    ∃ s ∈ catalog.selectors, h.target ∈ s.hookRefs

variable {decimal : ℕ → Option ℕ} {graphIds : List Str} {graphNodes : List GraphNode}
  {targets : List Target} {selectors : List Selector} {hooks : List Hook}

theorem matching_eq_ok {e : CommandError} {p : Pattern.Regex} {value : Value} {s : Str} :
    matching e p value = .ok s ↔ value = .str s ∧ fullmatch p s = true := by
  cases value with
  | str t =>
    simp only [matching, ite_throw_eq_ok, pure_eq_ok, Bool.not_eq_true', Bool.not_eq_false,
      Json.str.injEq]
    exact ⟨fun ⟨h, heq⟩ => ⟨heq, heq ▸ h⟩, fun ⟨heq, h⟩ => ⟨heq ▸ h, heq⟩⟩
  | _ => simp [matching, throw_ne_ok]

theorem checkSelector_ok {entry : Value × ℕ} {selector : Selector}
    (h : checkSelector graphIds targets selectors entry = .ok selector) :
    selector.identity ∉ selectors.map Selector.identity ∧ selector.key ∈ selectorKeys ∧
      fullmatch selectorRe selector.value = true := by
  simp only [checkSelector, bind_eq_ok, unless_eq_ok, pure_eq_ok, requireIn_eq_ok,
    matching_eq_ok] at h
  obtain ⟨raw, -, target, -, key, ⟨-, hkey⟩, value, ⟨-, hvalue⟩, owner, -, hnew, refs, -, rfl⟩ := h
  exact ⟨hnew, hkey, hvalue⟩

theorem checkHook_ok {entry : Value × ℕ} {hook : Hook}
    (h : checkHook decimal graphNodes targets hooks entry = .ok hook) :
    hook.target ∉ hooks.map (·.target) ∧
      (targets.find? (·.name = hook.dispatcher)).any (·.kind ∈ dispatcherKinds) = true := by
  simp only [checkHook, bind_eq_ok, unless_eq_ok, pure_eq_ok, Bool.not_eq_true',
    Bool.not_eq_false] at h
  obtain ⟨raw, -, dispatcher, -, hkind, key, -, selector, -, owner, -, -, deps, -, -, -, -, hnew, rfl⟩ := h
  exact ⟨hnew, hkind⟩

theorem foldlM_checkReference {selector : Selector} {refs referenced after : List Str}
    (h : refs.foldlM (checkReference hooks selector) referenced = .ok after) :
    after = referenced ++ refs ∧
      ∀ r ∈ refs, ∃ hook ∈ hooks, hook.target = r ∧ hook.dispatcher = selector.target := by
  induction refs generalizing referenced with
  | nil => exact ⟨by rw [List.append_nil]; exact (pure_eq_ok.1 h).symm, nofun⟩
  | cons r refs ih =>
    rw [List.foldlM_cons, bind_eq_ok] at h
    obtain ⟨next, hnext, h⟩ := h
    unfold checkReference at hnext
    split at hnext
    · cases hnext
    · rename_i hook hfind
      simp only [ite_throw_eq_ok, pure_eq_ok, not_not] at hnext
      obtain ⟨-, hdispatcher, rfl⟩ := hnext
      obtain ⟨rfl, hrest⟩ := ih h
      have htarget : hook.target = r := by simpa using List.find?_some hfind
      refine ⟨by simp, List.forall_mem_cons.2 ⟨?_, hrest⟩⟩
      exact ⟨hook, List.mem_of_find?_eq_some hfind, htarget, hdispatcher⟩

theorem foldlM_checkReferences {referenced after : List Str}
    (h : selectors.foldlM (checkReferences hooks) referenced = .ok after) :
    after = referenced ++ selectors.flatMap (·.hookRefs) ∧
      ∀ s ∈ selectors, ∀ r ∈ s.hookRefs,
        ∃ hook ∈ hooks, hook.target = r ∧ hook.dispatcher = s.target := by
  induction selectors generalizing referenced with
  | nil => exact ⟨by rw [List.flatMap_nil, List.append_nil]; exact (pure_eq_ok.1 h).symm, nofun⟩
  | cons s selectors ih =>
    simp only [List.foldlM_cons, bind_eq_ok, checkReferences, unless_eq_ok, pure_eq_ok] at h
    obtain ⟨_, ⟨next, hnext, -, rfl⟩, h⟩ := h
    obtain ⟨rfl, hrefs⟩ := foldlM_checkReference hnext
    obtain ⟨rfl, hrest⟩ := ih h
    exact ⟨by simp, List.forall_mem_cons.2 ⟨hrefs, hrest⟩⟩

theorem checkRegistration_ok {referenced : List Str} {hook : Hook}
    (h : checkRegistration selectors referenced hook = .ok ()) :
    (∃ s ∈ selectors, s.identity = hook.identity) ∨ hook.target ∈ referenced := by
  unfold checkRegistration at h
  split at h
  · right
    rw [ite_throw_eq_ok, not_not] at h
    exact h.1
  · rename_i selector hfind
    exact .inl ⟨selector, List.mem_of_find?_eq_some hfind, by simpa using List.find?_some hfind⟩

theorem forM_eq_ok {ε α : Type} {f : α → Except ε Unit} {xs : List α} :
    xs.forM f = .ok () ↔ ∀ x ∈ xs, f x = .ok () := by
  induction xs with
  | nil => exact ⟨nofun, fun _ => rfl⟩
  | cons x xs ih =>
    have hcons : (x :: xs).forM f = f x >>= fun _ => xs.forM f := rfl
    rw [hcons, bind_eq_ok, List.forall_mem_cons, ih]
    exact ⟨fun ⟨_, h⟩ => h, fun h => ⟨(), h⟩⟩

theorem registered {document : Dict} {catalog : Catalog}
    (h : validateCommands decimal document graphNodes = .ok catalog) : Registered catalog := by
  simp only [validateCommands, bind_eq_ok, unless_eq_ok, pure_eq_ok] at h
  obtain ⟨-, -, -, -, targets, -, rawSelectors, -, selectors, hselectors, rawHooks, -, hooks, hhooks,
    referenced, hreferenced, _, hregistration, rawAdapters, -, adapters, -, rfl⟩ := h
  obtain ⟨hreferenced, hreferences⟩ := foldlM_checkReferences hreferenced
  have hselector := (collect_spec hselectors).2
  have hhook := (collect_spec hhooks).2
  refine ⟨?_, fun s hs => ?_, ?_, fun h hh => ?_, hreferences, fun h hh => ?_⟩
  · refine nodup_map_of_new fun front s back heq => ?_
    obtain ⟨entry, -, hentry⟩ := hselector front s back heq
    exact (checkSelector_ok hentry).1
  · obtain ⟨front, back, heq⟩ := List.append_of_mem hs
    obtain ⟨entry, -, hentry⟩ := hselector front s back heq
    exact (checkSelector_ok hentry).2
  · refine nodup_map_of_new fun front h back heq => ?_
    obtain ⟨entry, -, hentry⟩ := hhook front h back heq
    exact (checkHook_ok hentry).1
  · obtain ⟨front, back, heq⟩ := List.append_of_mem hh
    obtain ⟨entry, -, hentry⟩ := hhook front h back heq
    exact (checkHook_ok hentry).2
  · refine (checkRegistration_ok (forM_eq_ok.1 hregistration h hh)).imp_right fun hmem => ?_
    rw [hreferenced, List.nil_append] at hmem
    exact List.mem_flatMap.1 hmem

end Registered

/-! ## What a selector selects -/

section Candidates

/-- An environment with one variable in it. -/
def only (key value : Str) : Str → Option Str := fun name => if name = key then some value else none

/-- Some registered selector of the hook's dispatcher, set alone, has the hook among its candidates. -/
def Reachable (catalog : Catalog) (hook : Hook) : Prop :=
  ∃ selector ∈ catalog.selectors, selector.target = hook.dispatcher ∧
    ∃ cands, candidates catalog (only selector.key selector.value) hook.dispatcher = .ok cands ∧
      hook ∈ cands

/-- The hook's identity is that of a selector with references, none of which are to the hook, and no
other selector refers to it either. -/
def Shadowed (catalog : Catalog) (hook : Hook) : Prop :=
  (∀ s ∈ catalog.selectors, hook.target ∉ s.hookRefs) ∧
    ∃ s ∈ catalog.selectors, s.identity = hook.identity ∧ s.hookRefs ≠ []

variable {catalog : Catalog} {hook : Hook} {selector : Selector}

theorem mem_allHooks {dispatcher : Str} :
    hook ∈ catalog.internals.filterMap (hookOf dispatcher) ↔
      hook ∈ catalog.hooks ∧ hook.dispatcher = dispatcher := by
  simp only [Catalog.internals, List.filterMap_append, List.filterMap_map, List.mem_append,
    List.mem_filterMap, Function.comp_apply, hookOf, Option.ite_none_right_eq_some,
    Option.some.injEq, reduceCtorEq, and_false, exists_false, or_false]
  constructor
  · rintro ⟨h, hmem, hdispatcher, rfl⟩
    exact ⟨hmem, hdispatcher⟩
  · rintro ⟨hmem, hdispatcher⟩
    exact ⟨hook, hmem, hdispatcher, rfl⟩

theorem selected_only {key value : Str} (hkey : key ∈ selectorKeys) (hvalue : value.codes ≠ []) :
    (selectorKeys.filterMap fun name => (only key value name).bind fun value =>
        if value.codes = [] then none else some (name, value)) = [(key, value)] ∧
      only key value (str "REQUIRE_COMPLETE") = none := by
  simp only [selectorKeys, List.mem_cons, List.not_mem_nil, or_false] at hkey
  rcases hkey with rfl | rfl | rfl | rfl <;> simp [selectorKeys, only, hvalue]

theorem find_identity (h : Registered catalog) (hselector : selector ∈ catalog.selectors) :
    catalog.selectors.find? (·.identity = selector.identity) = some selector := by
  obtain ⟨found, hfound⟩ : ∃ found, catalog.selectors.find? (·.identity = selector.identity) = some found :=
    Option.isSome_iff_exists.1 (List.find?_isSome.2 ⟨selector, hselector, by simp⟩)
  have hidentity : found.identity = selector.identity := by simpa using List.find?_some hfound
  rw [hfound, List.inj_on_of_nodup_map h.selectors (List.mem_of_find?_eq_some hfound) hselector
    hidentity]

/-- What a registered selector selects when it is set alone. -/
theorem mem_candidates_only (h : Registered catalog) (hselector : selector ∈ catalog.selectors)
    (hhook : hook ∈ catalog.hooks) (htarget : selector.target = hook.dispatcher) :
    (∃ cands, candidates catalog (only selector.key selector.value) hook.dispatcher = .ok cands ∧
        hook ∈ cands) ↔
      if selector.hookRefs ≠ [] then hook.target ∈ selector.hookRefs
      else hook.selectorKey = selector.key ∧ hook.selector = selector.value := by
  obtain ⟨hkey, hvalue⟩ := h.selector selector hselector
  have hne : selector.value.codes ≠ [] := by
    intro hnil
    rw [fullmatch, hnil] at hvalue
    exact absurd hvalue (by decide)
  obtain ⟨hselected, hcomplete⟩ := selected_only hkey hne
  have hfind : catalog.selectors.find?
      (·.identity = (hook.dispatcher, selector.key, selector.value)) = some selector :=
    htarget ▸ find_identity h hselector
  have hall : hook ∈ catalog.internals.filterMap (hookOf hook.dispatcher) :=
    mem_allHooks.2 ⟨hhook, rfl⟩
  simp only [candidates, unless_eq_ok, ite_throw_eq_ok, pure_eq_ok, hselected, hcomplete, hfind,
    h.hook hook hhook, hvalue, Bool.not_true, Bool.false_eq_true, not_false_eq_true, true_and,
    List.length_singleton, lt_self_iff_false, Option.getD_none, List.mem_cons, true_or, not_true]
  by_cases hrefs : selector.hookRefs = []
  · simp only [hrefs, ne_eq, not_true, if_false]
    constructor
    · rintro ⟨_, ⟨-, rfl⟩, hmem⟩
      simpa using (List.mem_filter.1 hmem).2
    · intro hsame
      have hmem : hook ∈ (catalog.internals.filterMap (hookOf hook.dispatcher)).filter fun hook =>
          hook.selectorKey = selector.key ∧ hook.selector = selector.value :=
        List.mem_filter.2 ⟨hall, by simpa using hsame⟩
      exact ⟨_, ⟨List.ne_nil_of_mem hmem, rfl⟩, hmem⟩
  · simp only [hrefs, ne_eq, not_false_eq_true, if_true]
    constructor
    · rintro ⟨_, ⟨-, rfl⟩, hmem⟩
      simpa using (List.mem_filter.1 hmem).2
    · intro hsame
      have hmem : hook ∈ (catalog.internals.filterMap (hookOf hook.dispatcher)).filter fun hook =>
          hook.target ∈ selector.hookRefs :=
        List.mem_filter.2 ⟨hall, by simpa using hsame⟩
      exact ⟨_, ⟨List.ne_nil_of_mem hmem, rfl⟩, hmem⟩

theorem reachable_of_reference (h : Registered catalog) (hhook : hook ∈ catalog.hooks)
    (hselector : selector ∈ catalog.selectors) (hmem : hook.target ∈ selector.hookRefs) :
    Reachable catalog hook := by
  obtain ⟨named, hnamed, htarget, hdispatcher⟩ := h.references selector hselector _ hmem
  obtain rfl := List.inj_on_of_nodup_map h.targets hnamed hhook htarget
  refine ⟨selector, hselector, hdispatcher.symm, ?_⟩
  rw [mem_candidates_only h hselector hhook hdispatcher.symm, if_pos (List.ne_nil_of_mem hmem)]
  exact hmem

theorem reachable_iff (h : Registered catalog) (hhook : hook ∈ catalog.hooks) :
    Reachable catalog hook ↔ ¬ Shadowed catalog hook := by
  constructor
  · rintro ⟨selector, hselector, htarget, hcands⟩ ⟨hunreferenced, other, hother, hidentity, hrefs⟩
    rw [mem_candidates_only h hselector hhook htarget] at hcands
    split_ifs at hcands with hnone
    · exact hunreferenced selector hselector hcands
    · -- the selector without references has the hook's identity, and no other has it
      have hsame : selector.identity = other.identity := by
        rw [hidentity, Selector.identity, Hook.identity, htarget, hcands.1, hcands.2]
      have heq := List.inj_on_of_nodup_map h.selectors hselector hother hsame
      exact hnone (heq ▸ hrefs)
  · intro hclear
    rcases h.registration hook hhook with ⟨selector, hselector, hidentity⟩ | ⟨selector, hselector, hmem⟩
    · by_cases hreferenced : ∃ s ∈ catalog.selectors, hook.target ∈ s.hookRefs
      · obtain ⟨s, hs, hmem⟩ := hreferenced
        exact reachable_of_reference h hhook hs hmem
      · push Not at hreferenced
        have hrefs : selector.hookRefs = [] := by
          by_contra hrefs
          exact hclear ⟨hreferenced, selector, hselector, hidentity, hrefs⟩
        obtain ⟨htarget, hkey, hvalue⟩ : selector.target = hook.dispatcher ∧
            selector.key = hook.selectorKey ∧ selector.value = hook.selector := by
          simpa [Selector.identity, Hook.identity] using hidentity
        refine ⟨selector, hselector, htarget, ?_⟩
        rw [mem_candidates_only h hselector hhook htarget, if_neg (not_not.2 hrefs)]
        exact ⟨hkey.symm, hvalue.symm⟩
    · exact reachable_of_reference h hhook hselector hmem

/-- Dispatching a target selects hooks of the target only. -/
theorem mem_candidates {environ : Str → Option Str} {dispatcher : Str} {cands : List Hook}
    (h : candidates catalog environ dispatcher = .ok cands) (hmem : hook ∈ cands) :
    hook ∈ catalog.hooks ∧ hook.dispatcher = dispatcher := by
  simp only [candidates, unless_eq_ok] at h
  obtain ⟨-, -, -, h⟩ := h
  split at h
  · rw [← pure_eq_ok.1 h] at hmem
    exact mem_allHooks.1 hmem
  · rw [ite_throw_eq_ok] at h
    obtain ⟨-, h⟩ := h
    split at h
    · cases h
    · simp only [ite_throw_eq_ok, pure_eq_ok] at h
      rw [← h.2] at hmem
      split_ifs at hmem <;> exact mem_allHooks.1 (List.mem_of_mem_filter hmem)

end Candidates

/-! ## The hooks of a contract -/

section Contract

instance decidableShadowed (catalog : Catalog) (hook : Hook) : Decidable (Shadowed catalog hook) :=
  inferInstanceAs (Decidable ((∀ s ∈ catalog.selectors, hook.target ∉ s.hookRefs) ∧
    ∃ s ∈ catalog.selectors, s.identity = hook.identity ∧ s.hookRefs ≠ []))

variable {decimal : ℕ → Option ℕ} {document : Dict} {graphNodes : List GraphNode} {catalog : Catalog}

/-- Every hook of an accepted contract is reached, and dispatch stays with its target, exactly when no
hook without a reference shares its identity with a selector that lists some. -/
theorem hooks_reachable_iff (h : validateCommands decimal document graphNodes = .ok catalog) :
    ((∀ hook ∈ catalog.hooks, Reachable catalog hook) ∧
        ∀ environ dispatcher cands, candidates catalog environ dispatcher = .ok cands →
          ∀ hook ∈ cands, hook ∈ catalog.hooks ∧ hook.dispatcher = dispatcher) ↔
      ∀ hook ∈ catalog.hooks, ¬ Shadowed catalog hook := by
  have hregistered := registered h
  refine ⟨fun hall hook hhook => (reachable_iff hregistered hhook).1 (hall.1 hook hhook),
    fun hclear => ⟨fun hook hhook => (reachable_iff hregistered hhook).2 (hclear hook hhook), ?_⟩⟩
  exact fun environ dispatcher cands hcands hook hmem => mem_candidates hcands hmem

/-- One entry of `hooks`, for the target `verify` and a suite. -/
def sampleHook (suite target : String) : Value :=
  .obj [(str "dispatcher", .str (str "verify")), (str "selector_key", .str (str "SUITE")),
    (str "selector", .str (str suite)), (str "owner", .str (str "P01")),
    (str "lifecycle", .str (str "planned")), (str "depends_on", .arr []),
    (str "target", .str (str target))]

def sampleSelector (suite : String) (refs : List String) : Value :=
  .obj [(str "target", .str (str "verify")), (str "key", .str (str "SUITE")),
    (str "value", .str (str suite)), (str "owner", .str (str "P01")),
    (str "hook_refs", .arr (refs.map fun r => .str (str r)))]

/-- Two suites with a hook each; the first selector lists `refs`. -/
def sampleContract (refs : List String) : Dict :=
  [(str "schema_version", .str (str "1.0.0")), (str "kind", .str (str "jumpship-mvp-command-contract")),
    (str "selector_keys", .arr (selectorKeys.map .str)),
    (str "target_groups", .arr [.obj [(str "owner", .str (str "P01")),
      (str "kind", .str (str "dispatcher")),
      (str "targets", .obj [(str "verify", .str (str "run the suites"))])]]),
    (str "selectors", .arr [sampleSelector "a" refs, sampleSelector "b" []]),
    (str "hooks", .arr [sampleHook "a" "_p01_verify_SUITE-a", sampleHook "b" "_p01_verify_SUITE-b"])]

def sampleNodes : List GraphNode :=
  match checkNodes (fun _ => none) sampleDocument with
  | .ok nodes => nodes
  | .error _ => []

def sampleCatalog (refs : List String) : Option Catalog :=
  (validateCommands (fun _ => none) (sampleContract refs) sampleNodes).toOption

theorem validateCommands_of_sampleCatalog {refs : List String} (h : sampleCatalog refs = some catalog) :
    validateCommands (fun _ => none) (sampleContract refs) sampleNodes = .ok catalog := by
  unfold sampleCatalog at h
  cases hval : validateCommands (fun _ => none) (sampleContract refs) sampleNodes with
  | error e =>
    rw [hval] at h
    cases h
  | ok c =>
    rw [hval] at h
    rw [Option.some.inj h]

/-- Without references both hooks are reached. -/
theorem hooks_reachable_sample :
    ∃ catalog, validateCommands (fun _ => none) (sampleContract []) sampleNodes = .ok catalog ∧
      ∀ hook ∈ catalog.hooks, Reachable catalog hook := by
  have hclear : (sampleCatalog []).any (fun catalog =>
      catalog.hooks.all fun hook => ¬ Shadowed catalog hook) = true := by decide +kernel
  obtain ⟨catalog, hcatalog, hall⟩ := (Option.any_eq_true _ _).1 hclear
  have hvalid := validateCommands_of_sampleCatalog hcatalog
  refine ⟨catalog, hvalid, ((hooks_reachable_iff hvalid).2 fun hook hhook => ?_).1⟩
  simpa using List.all_eq_true.1 hall hook hhook

/-- A selector that refers to the other suite's hook leaves its own out. -/
theorem not_hooks_reachable :
    ¬ ∀ (decimal : ℕ → Option ℕ) (document : Dict) (graphNodes : List GraphNode) (catalog : Catalog),
      validateCommands decimal document graphNodes = .ok catalog →
        ∀ hook ∈ catalog.hooks, Reachable catalog hook := by
  intro h
  have hshadowed : (sampleCatalog ["_p01_verify_SUITE-b"]).any (fun catalog =>
      catalog.hooks.any fun hook => Shadowed catalog hook) = true := by decide +kernel
  obtain ⟨catalog, hcatalog, hany⟩ := (Option.any_eq_true _ _).1 hshadowed
  have hvalid := validateCommands_of_sampleCatalog hcatalog
  obtain ⟨hook, hhook, hshadow⟩ := List.any_eq_true.1 hany
  have hreachable := h _ _ _ catalog hvalid hook hhook
  exact (reachable_iff (registered hvalid) hhook).1 hreachable (by simpa using hshadow)

end Contract

end Packets
