import Jumpship.Lib.Fallible
import Jumpship.Packets.Graph
import Jumpship.Py.Text

/-!
# The command contract

`validate_commands` against the nodes of the packet graph, and how `dispatch` of `scripts/packets/check`
chooses its candidates from what was validated.
-/

namespace Packets

open Fallible Py Pattern Regex

/-! ## The registries -/

structure Target where
  name : Str
  owner : Str
  kind : Str
  description : Str
deriving DecidableEq

structure Selector where
  target : Str
  key : Str
  value : Str
  owner : Str
  hookRefs : List Str
deriving DecidableEq

structure Hook where
  target : Str
  dispatcher : Str
  selectorKey : Str
  selector : Str
  owner : Str
  dependsOn : List Str
  lifecycle : Str
deriving DecidableEq

structure Adapter where
  target : Str
  publicTarget : Str
  owner : Str
deriving DecidableEq

inductive Internal where
  | hook (hook : Hook)
  | adapter (adapter : Adapter)
deriving DecidableEq

abbrev Identity := Str × Str × Str

def Selector.identity (s : Selector) : Identity := (s.target, s.key, s.value)

def Hook.identity (h : Hook) : Identity := (h.dispatcher, h.selectorKey, h.selector)

/-- `SELECTOR_KEYS` -/
def selectorKeys : List Str := [str "SUITE", str "PHASE", str "PLANE", str "LAYER"]

/-- The kinds of target that hooks are dispatched from. -/
def dispatcherKinds : List Str := [str "aggregate", str "composite", str "dispatcher"]

def targetKinds : List Str := str "direct" :: dispatcherKinds

/-- `TARGET_RE`: `^[a-z][a-z0-9]*(?:-[a-z0-9]+)*$` -/
def targetRe : Regex :=
  seq [.cls [('a', 'z')], .star (.cls [('a', 'z'), ('0', '9')]),
    .star (.group (.cat (.literal '-') (.plus (.cls [('a', 'z'), ('0', '9')]))))]

/-- `SELECTOR_RE`: `^[a-z0-9][a-z0-9-]*$` -/
def selectorRe : Regex :=
  .cat (.cls [('a', 'z'), ('0', '9')]) (.star (.cls [('a', 'z'), ('0', '9'), ('-', '-')]))

inductive CommandError where
  | schemaVersion
  | kind
  | selectorKeys
  | targetGroups
  | targetGroup (index : ℕ)
  | groupOwner (index : ℕ)
  | groupKind (index : ℕ)
  | groupTargets (index : ℕ)
  | targetName (name : Str)
  | targetDescription (name : Str)
  | duplicateTargets (names : List Str)
  | selectors
  | selector (index : ℕ)
  | selectorTarget (index : ℕ)
  | selectorKey (index : ℕ)
  | selectorValue (index : ℕ)
  | selectorOwner (index : ℕ)
  | duplicateSelector (identity : Identity)
  | hookRefs (index : ℕ)
  | hooks
  | hook (index : ℕ)
  | hookDispatcher (index : ℕ)
  | notDispatcher (index : ℕ) (dispatcher : Str)
  | hookKey (index : ℕ)
  | hookSelector (index : ℕ)
  | hookOwner (index : ℕ)
  | hookLifecycle (index : ℕ)
  | dependsOn (cause : GraphError)
  | hookDependencies (index : ℕ) (owner : Str)
  | duplicateOwnership (identity : Identity)
  | hookTarget (index : ℕ) (expected : Str)
  | duplicateHook (target : Str)
  | unknownHook (selector : Identity) (hookRef : Str)
  | referencedTwice (hookRef : Str)
  | otherDispatcher (target hookRef : Str)
  | compositeOwner
  | unregistered (target : Str)
  | ownership (target owner : Str)
  | adapters
  | adapter (index : ℕ)
  | adapterTarget (index : ℕ)
  | duplicateInternal (target : Str)
  | adapterPublicTarget (index : ℕ)
  | adapterOwner (index : ℕ)
  /-- `TypeError`: a value that no set can hold. -/
  | unhashable

/-- `d.get(key, default)` -/
def getOr (d : Dict) (key : String) (default : Value) : Value := (d.lookup (str key)).getD default

def asObject (e : CommandError) : Value → Except CommandError Dict
  | .obj d => pure d
  | _ => throw e

def asArray (e : CommandError) : Value → Except CommandError (List Value)
  | .arr xs => pure xs
  | _ => throw e

def asStrings (e : CommandError) (value : Value) : Except CommandError (List Str) := do
  let items ← asArray e value
  items.mapM fun
    | .str s => pure s
    | _ => throw e

/-- A string that the pattern matches whole. -/
def matching (e : CommandError) (p : Regex) : Value → Except CommandError Str
  | .str s => if !fullmatch p s then throw e else pure s
  | _ => throw e

/-- `owner not in graph_ids or owner.startswith("J")` -/
def packetOwner (graphIds : List Str) (e : CommandError) (value : Value) : Except CommandError Str := do
  let owner ← requireIn .unhashable graphIds e value
  if (str "J").startsWith owner then throw e
  pure owner

/-! ## The targets -/

section Targets

/-- One entry of a group's `targets`. -/
def checkTarget (owner kind : Str) (entry : Str × Value) : Except CommandError Target := do
  if !fullmatch targetRe entry.1 then throw (.targetName entry.1)
  match entry.2 with
  | .str description =>
    if strip description.codes = [] then throw (.targetDescription entry.1)
    else pure ⟨entry.1, owner, kind, .ofCodes (strip description.codes)⟩
  | _ => throw (.targetDescription entry.1)

def checkTargetGroup (graphIds : List Str) (index : ℕ) (raw : Value) :
    Except CommandError (List Target) := do
  let group ← asObject (.targetGroup index) raw
  let owner ← packetOwner graphIds (.groupOwner index) (get group "owner")
  let kind ← requireIn .unhashable targetKinds (.groupKind index) (get group "kind")
  let targets ← asObject (.groupTargets index) (get group "targets")
  if targets = [] then throw (.groupTargets index)
  targets.mapM (checkTarget owner kind)

/-- `_expand_target_groups` -/
def expandTargetGroups (document : Dict) (graphIds : List Str) : Except CommandError (List Target) := do
  let groups ← asArray .targetGroups (get document "target_groups")
  let targets ← groups.zipIdx.mapM fun (raw, index) => checkTargetGroup graphIds index raw
  let names := targets.flatten.map (·.name)
  let duplicates := sorted (names.filter fun name => 1 < names.count name).dedup
  if duplicates ≠ [] then throw (.duplicateTargets duplicates)
  pure targets.flatten

end Targets

/-! ## The selectors -/

section Selectors

/-- One entry of `selectors`, behind those of the list. -/
def checkSelector (graphIds : List Str) (targets : List Target) (selectors : List Selector)
    (entry : Value × ℕ) : Except CommandError Selector := do
  let (raw, index) := entry
  let raw ← asObject (.selector index) raw
  let target ←
    requireIn .unhashable (targets.map (·.name)) (.selectorTarget index) (get raw "target")
  let key ← requireIn .unhashable selectorKeys (.selectorKey index) (get raw "key")
  let value ← matching (.selectorValue index) selectorRe (get raw "value")
  let owner ← packetOwner graphIds (.selectorOwner index) (get raw "owner")
  if (target, key, value) ∈ selectors.map Selector.identity then
    throw (.duplicateSelector (target, key, value))
  let hookRefs ← asStrings (.hookRefs index) (getOr raw "hook_refs" (.arr []))
  pure ⟨target, key, value, owner, hookRefs⟩

end Selectors

/-! ## The hooks -/

section Hooks

variable (decimal : ℕ → Option ℕ)

/-- `owner.lower()` of an ASCII id. -/
def lower (s : Str) : List ℕ := s.codes.map fun c => if 0x41 ≤ c ∧ c ≤ 0x5A then c + 32 else c

/-- `_hidden_hook_name` -/
def hiddenHookName (owner dispatcher key selector : Str) : Str :=
  .ofCodes (0x5F :: lower owner ++ 0x5F :: dispatcher.codes ++ 0x5F :: key.codes ++
    0x2D :: selector.codes)

/-- One entry of `hooks`, behind those of the list. -/
def checkHook (graphNodes : List GraphNode) (targets : List Target) (hooks : List Hook)
    (entry : Value × ℕ) : Except CommandError Hook := do
  let (raw, index) := entry
  let graphIds := graphNodes.map (·.id)
  let raw ← asObject (.hook index) raw
  let dispatcher ←
    requireIn .unhashable (targets.map (·.name)) (.hookDispatcher index) (get raw "dispatcher")
  if !(targets.find? (·.name = dispatcher)).any (·.kind ∈ dispatcherKinds) then
    throw (.notDispatcher index dispatcher)
  let key ← requireIn .unhashable selectorKeys (.hookKey index) (get raw "selector_key")
  let selector ← matching (.hookSelector index) selectorRe (get raw "selector")
  let owner ← packetOwner graphIds (.hookOwner index) (get raw "owner")
  if !isStr (get raw "lifecycle") (str "planned") then throw (.hookLifecycle index)
  let dependencies ← (expandDependencies decimal (get raw "depends_on") (.dependsOn index)
    graphIds).mapError .dependsOn
  if some dependencies ≠ startRequiresOf graphNodes owner then
    throw (.hookDependencies index owner)
  if (dispatcher, key, selector) ∈ hooks.map Hook.identity then
    throw (.duplicateOwnership (dispatcher, key, selector))
  let expected := hiddenHookName owner dispatcher key selector
  if !isStr (get raw "target") expected then throw (.hookTarget index expected)
  if expected ∈ hooks.map (·.target) then throw (.duplicateHook expected)
  pure ⟨expected, dispatcher, key, selector, owner, dependencies, str "planned"⟩

/-- One of a selector's `hook_refs`; `referenced` holds those of the selectors before it and its own. -/
def checkReference (hooks : List Hook) (selector : Selector) (referenced : List Str) (hookRef : Str) :
    Except CommandError (List Str) :=
  match hooks.find? (·.target = hookRef) with
  | none => throw (.unknownHook selector.identity hookRef)
  | some hook =>
    if hookRef ∈ referenced then throw (.referencedTwice hookRef)
    else if hook.dispatcher ≠ selector.target then throw (.otherDispatcher selector.target hookRef)
    else pure (referenced ++ [hookRef])

def checkReferences (hooks : List Hook) (referenced : List Str) (selector : Selector) :
    Except CommandError (List Str) := do
  let referenced ← selector.hookRefs.foldlM (checkReference hooks selector) referenced
  if selector.hookRefs ≠ [] ∧ selector.owner ≠ str "P01" then throw .compositeOwner
  pure referenced

/-- The registration of a hook: a public selector of its identity and owner, or a reference. -/
def checkRegistration (selectors : List Selector) (referenced : List Str) (hook : Hook) :
    Except CommandError Unit :=
  match selectors.find? (·.identity = hook.identity) with
  | none => if hook.target ∉ referenced then throw (.unregistered hook.target) else pure ()
  | some selector =>
    if selector.owner ≠ hook.owner then throw (.ownership hook.target hook.owner) else pure ()

end Hooks

/-! ## The adapters -/

section Adapters

variable (decimal : ℕ → Option ℕ)

/-- `re.fullmatch(r"_p\d{2}_[a-z][a-z0-9-]*", target)` -/
def isAdapterTarget : List ℕ → Bool
  | 0x5F :: 0x70 :: a :: b :: 0x5F :: c :: rest =>
    (digit? decimal a).isSome && (digit? decimal b).isSome && (0x61 ≤ c && c ≤ 0x7A) &&
      rest.all fun c => (0x61 ≤ c && c ≤ 0x7A) || (0x30 ≤ c && c ≤ 0x39) || c = 0x2D
  | _ => false

def adapterTarget (index : ℕ) : Value → Except CommandError Str
  | .str s => if !isAdapterTarget decimal s.codes then throw (.adapterTarget index) else pure s
  | _ => throw (.adapterTarget index)

/-- One entry of `adapters`, behind those of the list. -/
def checkAdapter (graphIds : List Str) (targets : List Target) (hooks : List Hook)
    (adapters : List Adapter) (entry : Value × ℕ) : Except CommandError Adapter := do
  let (raw, index) := entry
  let raw ← asObject (.adapter index) raw
  let target ← adapterTarget decimal index (get raw "target")
  if target ∈ adapters.map (·.target) ∨ target ∈ hooks.map (·.target) then
    throw (.duplicateInternal target)
  let publicTarget ← requireIn .unhashable (targets.map (·.name)) (.adapterPublicTarget index)
    (get raw "public_target")
  let owner ← packetOwner graphIds (.adapterOwner index) (get raw "owner")
  pure ⟨target, publicTarget, owner⟩

end Adapters

/-! ## validate_commands -/

/-- `set(declared_keys) != SELECTOR_KEYS or len(declared_keys) != 4` -/
def checkSelectorKeys (value : Value) : Except CommandError Unit := do
  let declared ← asArray .selectorKeys value
  if !declared.all hashable then throw .unhashable
  if !(declared.all (fun key => selectorKeys.any (isStr key)) &&
      selectorKeys.all (fun key => declared.any (isStr · key)) && declared.length = 4) then
    throw .selectorKeys

structure Catalog where
  targets : List Target
  selectors : List Selector
  hooks : List Hook
  adapters : List Adapter

/-- `hooks + adapters` -/
def Catalog.internals (catalog : Catalog) : List Internal :=
  catalog.hooks.map .hook ++ catalog.adapters.map .adapter

def validateCommands (decimal : ℕ → Option ℕ) (document : Dict) (graphNodes : List GraphNode) :
    Except CommandError Catalog := do
  if !isStr (get document "schema_version") (str "1.0.0") then throw .schemaVersion
  if !isStr (get document "kind") (str "jumpship-mvp-command-contract") then throw .kind
  checkSelectorKeys (get document "selector_keys")
  let graphIds := graphNodes.map (·.id)
  let targets ← expandTargetGroups document graphIds
  let rawSelectors ← asArray .selectors (get document "selectors")
  let selectors ← collect (checkSelector graphIds targets) rawSelectors.zipIdx
  let rawHooks ← asArray .hooks (get document "hooks")
  let hooks ← collect (checkHook decimal graphNodes targets) rawHooks.zipIdx
  let referenced ← selectors.foldlM (checkReferences hooks) []
  hooks.forM (checkRegistration selectors referenced)
  let rawAdapters ← asArray .adapters (getOr document "adapters" (.arr []))
  let adapters ← collect (checkAdapter decimal graphIds targets hooks) rawAdapters.zipIdx
  pure ⟨targets, selectors, hooks, adapters⟩

/-! ## dispatch -/

section Dispatch

inductive DispatchError where
  | notDispatcher (dispatcher : Str)
  | severalSelectors (selected : List (Str × Str))
  | requireComplete
  | unsafeValue (key value : Str)
  | unknownSelector (dispatcher key value : Str)
  | noHook (dispatcher key value : Str)

/-- `item.get("dispatcher") == dispatcher` -/
def hookOf (dispatcher : Str) : Internal → Option Hook
  | .hook hook => if hook.dispatcher = dispatcher then some hook else none
  | .adapter _ => none

/-- `dispatch` down to its candidates. -/
def candidates (catalog : Catalog) (environ : Str → Option Str) (dispatcher : Str) :
    Except DispatchError (List Hook) := do
  if !(catalog.targets.find? (·.name = dispatcher)).any (·.kind ∈ dispatcherKinds) then
    throw (.notDispatcher dispatcher)
  let selected := selectorKeys.filterMap fun key =>
    (environ key).bind fun value => if value.codes = [] then none else some (key, value)
  if 1 < selected.length then throw (.severalSelectors selected)
  if (environ (str "REQUIRE_COMPLETE")).getD (str "0") ∉ [str "0", str "1"] then
    throw .requireComplete
  let allHooks := catalog.internals.filterMap (hookOf dispatcher)
  match selected with
  | [] => pure allHooks
  | (key, value) :: _ =>
    if !fullmatch selectorRe value then throw (.unsafeValue key value)
    else
      match catalog.selectors.find? (·.identity = (dispatcher, key, value)) with
      | none => throw (.unknownSelector dispatcher key value)
      | some selector =>
        let candidates :=
          if selector.hookRefs ≠ [] then allHooks.filter (·.target ∈ selector.hookRefs)
          else allHooks.filter fun hook => hook.selectorKey = key ∧ hook.selector = value
        if candidates = [] then throw (.noHook dispatcher key value) else pure candidates

end Dispatch

end Packets
