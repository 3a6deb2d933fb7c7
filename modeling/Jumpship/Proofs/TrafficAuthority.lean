import Jumpship.Proofs.Acceptance
import Jumpship.Proofs.Definitions
import Jumpship.Proofs.SchemaQuestions
import Jumpship.Codegen.TrafficAuthority
import Jumpship.Lib.Runs

/-!
# Write fencing over runs of transitions

A document the schema accepts takes one edge of the state machine: it fixes which side may write by
the state it enters and advances the authority epoch exactly where the authority changes
(`transition_of_accepts`). On a run the states that do not let the target write are left only by
fencing the source, and those that do not let the source write only by fencing the target and then
arming the source's resume stream.
-/

namespace Codegen

open Py SchemaValidator Eval

/-! ## Documents -/

section Documents

def member (document : Value) (key : String) : Option Value :=
  match document with
  | .obj ms => ms.lookup (str key)
  | _ => none

/-- The number a member holds. -/
def numberAt (document : Value) (key : String) : Option ℚ :=
  match member document key with
  | some (.num x) => x.value?
  | _ => none

/-- A string in which the hash pattern is found. -/
def IsHash (re : Str → Option (Str → Bool)) (value : Value) : Prop :=
  ∃ s found, value = .str s ∧ re (str hashPattern) = some found ∧ found s = true

theorem lookup_hashWhen (fields : Fields) (test : Bool) (keys : List String) (key : String) :
    (fields.hashWhen test keys).lookup key =
      if test = true ∧ key ∈ keys then some hashField else fields.lookup key := by
  cases test with
  | false => simp [Fields.hashWhen]
  | true =>
    simp only [Fields.hashWhen, if_true, true_and]
    induction keys generalizing fields with
    | nil => simp
    | cons k keys ih =>
      rw [List.foldl_cons, ih, lookup_set]
      by_cases h : key = k <;> by_cases h' : key ∈ keys <;> simp [h, h']

theorem mem_keys_of_lookup {fields : Fields} {key : String} {value : Value}
    (h : fields.lookup key = some value) : key ∈ fields.map Prod.fst :=
  List.mem_map_of_mem (f := Prod.fst) (Json.mem_of_lookup h)

/-- The constant an edge fixes a member to. -/
def EdgeConst (fromState toState : TrafficState) (key : String) (value : Value) : Prop :=
  (trafficEdgeProperties fromState toState).lookup key = some (const value)

variable (f t : TrafficState)

theorem edge_from_state : EdgeConst f t "from_state" (string f.text) := by
  unfold EdgeConst trafficEdgeProperties
  dsimp only
  split_ifs <;> simp [Fields.update, lookup_hashWhen, Json.lookup_cons_eq]

theorem edge_to_state : EdgeConst f t "to_state" (string t.text) := by
  unfold EdgeConst trafficEdgeProperties
  dsimp only
  split_ifs <;> simp [Fields.update, lookup_hashWhen, Json.lookup_cons_eq]

theorem edge_increment : EdgeConst f t "application_authority_epoch_increment"
    (int (if f.authority ≠ t.authority then 1 else 0)) := by
  unfold EdgeConst trafficEdgeProperties
  dsimp only
  split_ifs <;> simp_all [Fields.update, lookup_hashWhen, Json.lookup_cons_eq]

theorem edge_source_writes : EdgeConst f t "source_application_writes_enabled"
    (.bool (t.authority = .source)) := by
  unfold EdgeConst trafficEdgeProperties
  dsimp only
  split_ifs <;> simp [Fields.update, lookup_hashWhen, Json.lookup_cons_eq]

theorem edge_target_writes : EdgeConst f t "target_application_writes_enabled"
    (.bool (t.authority = .target)) := by
  unfold EdgeConst trafficEdgeProperties
  dsimp only
  split_ifs <;> simp [Fields.update, lookup_hashWhen, Json.lookup_cons_eq]

theorem edge_source_fence : (trafficEdgeProperties f .sourceFencedAndDrained).lookup
    "source_fence_receipt_hash" = some hashField := by
  simp [trafficEdgeProperties, lookup_hashWhen]

theorem edge_target_fence : (trafficEdgeProperties f .targetFencedAndReverseDrained).lookup
    "target_fence_receipt_hash" = some hashField := by
  simp [trafficEdgeProperties, lookup_hashWhen]

theorem edge_resume_stream : (trafficEdgeProperties f .sourceResumeStreamArmed).lookup
    "source_resume_stream_receipt_hash" = some hashField := by
  simp [trafficEdgeProperties, lookup_hashWhen]

theorem edge_source_parity : (trafficEdgeProperties f .sourceResumeStreamArmed).lookup
    "source_parity_receipt_hash" = some hashField := by
  simp [trafficEdgeProperties, lookup_hashWhen]

end Documents

/-! ## Accepted documents -/

section Accepts

variable {re : Str → Option (Str → Bool)} {byId : Documents} {limit : ℕ} {rec : Validator}
  {root : Dict}

theorem eq_string_of_jsonEqual {value : Value} {s : String}
    (h : jsonEqual value (string s) = true) : value = string s := by
  cases value with
  | str s' => simpa [string, jsonEqual] using h
  | _ => simp [string, jsonEqual] at h

theorem eq_bool_of_jsonEqual {value : Value} {b : Bool} (h : jsonEqual value (.bool b) = true) :
    value = .bool b := by
  cases value with
  | bool b' => simpa [jsonEqual] using h
  | _ => simp [jsonEqual] at h

theorem value_of_jsonEqual {value : Value} {n : ℤ} (h : jsonEqual value (int n) = true) :
    ∃ x, value = .num x ∧ x.value? = some (n : ℚ) := by
  cases value with
  | num x =>
    refine ⟨x, rfl, ?_⟩
    rw [int, jsonEqual, Number.sameValue] at h
    rcases hx : x.value? with _ | q
    · rw [hx] at h
      cases h
    · rw [hx] at h
      simpa [Number.value?] using h
  | _ => simp [int, jsonEqual] at h

theorem value_of_hasInteger {value : Value} (h : hasType value (str "integer") = true) :
    ∃ x q, value = .num x ∧ x.value? = some q := by
  cases value with
  | num x =>
    cases x with
    | int n => exact ⟨_, _, rfl, rfl⟩
    | float x =>
      cases x with
      | finite x => exact ⟨_, _, rfl, rfl⟩
      | negZero => exact ⟨_, _, rfl, rfl⟩
      | _ => simp [hasType] at h
  | _ => simp [hasType] at h

/-- A value that validates, one call deeper. -/
def Validates (re : Str → Option (Str → Bool)) (byId : Documents) (root : Dict)
    (value schema : Value) : Prop :=
  ∃ limit path, Passes (validateAt re byId limit value schema root path) ()

theorem Validates.satisfies {value : Value} {fields : Fields}
    (h : Validates re byId root value (dict fields)) :
    ∃ limit, Satisfies re (validateAt re byId limit) root value fields.entries := by
  obtain ⟨limit, path, h⟩ := h
  exact satisfies_of_validateAt h

theorem Validates.const {value v : Value} (h : Validates re byId root value (Codegen.const v)) :
    jsonEqual value v = true := by
  obtain ⟨limit, h⟩ := h.satisfies
  exact h.const v (by simp [Json.lookup_cons_eq])

theorem Validates.integer {value : Value} {minimum maximum : Option ℤ}
    (h : Validates re byId root value (sInteger minimum maximum)) :
    ∃ x q, value = .num x ∧ x.value? = some q := by
  obtain ⟨limit, h⟩ := h.satisfies
  exact value_of_hasInteger (h.type (str "integer") (by simp [Json.lookup_cons_eq, string]))

theorem Validates.hash {value : Value} (h : Validates re byId root value hashField) :
    IsHash re value := by
  obtain ⟨limit, h⟩ := h.satisfies
  have htype := h.type (str "string") (by simp [Json.lookup_cons_eq, string])
  cases value with
  | str s =>
    obtain ⟨found, hre, hfound⟩ := h.pattern s rfl (str hashPattern)
      (by simp [Json.lookup_cons_eq, optional, string])
    exact ⟨s, found, rfl, hre, hfound⟩
  | num x =>
    cases x with
    | int n => simp [hasType] at htype
    | float x => cases x <;> simp [hasType] at htype
  | _ => simp [hasType] at htype

/-- An object schema's required property is there and validates. -/
theorem Validates.member {ms : Dict} {schema fields : Fields} {n : List String} {key : String}
    {child : Value} (h : Validates re byId root (.obj ms) (dict schema))
    (hprops : schema.lookup "properties" = some (dict fields))
    (hreq : schema.lookup "required" = some (strings n)) (hkey : key ∈ n)
    (hchild : fields.lookup key = some child) :
    ∃ v, ms.lookup (str key) = some v ∧ Validates re byId root v child := by
  obtain ⟨limit, h⟩ := h.satisfies
  have hmem := h.required ms rfl (n.map string) (by simp [hreq, strings]) (str key)
    (List.mem_map_of_mem hkey)
  rcases hv : ms.lookup (str key) with _ | v
  · exact absurd hmem (Json.lookup_eq_none.1 hv)
  · obtain ⟨path, hpass⟩ := h.properties ms rfl fields.entries (by simp [hprops, dict])
      (str key, v) (Json.mem_of_lookup hv) child (by simp [hchild])
    exact ⟨v, rfl, limit, path, hpass⟩

theorem Validates.branch {ms : Dict} {fields : Fields} {key : String} {child : Value}
    (h : Validates re byId root (.obj ms) (Codegen.branch fields))
    (hchild : fields.lookup key = some child) :
    ∃ v, ms.lookup (str key) = some v ∧ Validates re byId root v child :=
  h.member (n := fields.map Prod.fst) (by simp [Json.lookup_cons_eq])
    (by simp [Json.lookup_cons_eq]) (mem_keys_of_lookup hchild) hchild

/-- The transition an accepted document makes. -/
structure Transition (re : Str → Option (Str → Bool)) (document : Value)
    (fromState toState : TrafficState) : Prop where
  edge : (fromState, toState) ∈ TrafficState.edges
  from_state : member document "from_state" = some (string fromState.text)
  to_state : member document "to_state" = some (string toState.text)
  source_writes : member document "source_application_writes_enabled" =
    some (.bool (toState.authority = .source))
  target_writes : member document "target_application_writes_enabled" =
    some (.bool (toState.authority = .target))
  increment : numberAt document "application_authority_epoch_increment" =
    some (if fromState.authority ≠ toState.authority then 1 else 0)
  expected : ∃ q, numberAt document "expected_application_authority_epoch" = some q
  resulting : ∃ q, numberAt document "resulting_application_authority_epoch" = some q
  hash : ∀ key, (trafficEdgeProperties fromState toState).lookup key = some hashField →
    ∃ v, member document key = some v ∧ IsHash re v

theorem numberAt_of_num {ms : Dict} {key : String} {v : Value} {x : Number} {q : ℚ}
    (hv : ms.lookup (str key) = some v) (hx : v = .num x) (hq : x.value? = some q) :
    numberAt (.obj ms) key = some q := by
  rw [numberAt, Codegen.member, hv, hx]
  exact hq

theorem transition_of_validates {document : Value} {schema : Fields}
    (hs : trafficAuthorityStateMachineSchema = .ok schema)
    (h : Validates re byId root document (dict schema)) :
    ∃ f t, Transition re document f t := by
  obtain rfl := (Except.ok.inj hs).symm
  obtain ⟨limit, hsat⟩ := h.satisfies
  have htype := hsat.type (str "object") (by rw [lookup_entries]; rfl)
  obtain ⟨ms, rfl⟩ : ∃ ms, document = .obj ms := by
    cases document with
    | obj ms => exact ⟨ms, rfl⟩
    | num x =>
      cases x with
      | int n => simp [hasType] at htype
      | float x => cases x <;> simp [hasType] at htype
    | _ => simp [hasType] at htype
  obtain ⟨path, hall⟩ := hsat.allOf _ (by rw [lookup_entries]; rfl)
    (dict [("oneOf", .arr trafficEdgeConstraints)]) (by simp [trafficOptions])
  obtain ⟨limit', hone⟩ := Validates.satisfies ⟨limit, path, hall⟩
  obtain ⟨c, hc, path', hbranch⟩ := hone.oneOf trafficEdgeConstraints
    (by simp [Json.lookup_cons_eq])
  obtain ⟨⟨f, t⟩, hedge, rfl⟩ := List.mem_map.1 hc
  have hb : Validates re byId root (.obj ms) (Codegen.branch (trafficEdgeProperties f t)) :=
    ⟨limit', path', hbranch⟩
  have hconst : ∀ {key v}, EdgeConst f t key v →
      ∃ w, ms.lookup (str key) = some w ∧ jsonEqual w v = true := fun hkey =>
    let ⟨w, hw, hval⟩ := hb.branch hkey
    ⟨w, hw, hval.const⟩
  have hepoch : ∀ key ∈ ["expected_application_authority_epoch",
      "resulting_application_authority_epoch"], ∃ q, numberAt (.obj ms) key = some q := by
    intro key hkey
    obtain ⟨w, hw, hval⟩ := @Validates.member _ _ _ ms _
      (Fields.update [("schema_version", dict [("const", string schemaVersion)])]
        (stateMachineProperties "traffic_authority" TrafficState.all trafficOptions))
      ("schema_version" :: stateMachineRequired trafficOptions) key (sInteger (some 1) none) h
      (by rfl) (by rfl)
      (by rcases List.mem_pair.1 hkey with rfl | rfl <;> decide)
      (by rcases List.mem_pair.1 hkey with rfl | rfl <;> rfl)
    obtain ⟨x, q, hx, hq⟩ := hval.integer
    exact ⟨q, numberAt_of_num hw hx hq⟩
  obtain ⟨v₁, hv₁, h₁⟩ := hconst (edge_from_state f t)
  obtain ⟨v₂, hv₂, h₂⟩ := hconst (edge_to_state f t)
  obtain ⟨v₃, hv₃, h₃⟩ := hconst (edge_source_writes f t)
  obtain ⟨v₄, hv₄, h₄⟩ := hconst (edge_target_writes f t)
  obtain ⟨v₅, hv₅, h₅⟩ := hconst (edge_increment f t)
  obtain ⟨x, hx, hq⟩ := value_of_jsonEqual h₅
  refine ⟨f, t, hedge, ?_, ?_, ?_, ?_, ?_, hepoch _ (by simp), hepoch _ (by simp), ?_⟩
  · rw [Codegen.member, hv₁, eq_string_of_jsonEqual h₁]
  · rw [Codegen.member, hv₂, eq_string_of_jsonEqual h₂]
  · rw [Codegen.member, hv₃, eq_bool_of_jsonEqual h₃]
  · rw [Codegen.member, hv₄, eq_bool_of_jsonEqual h₄]
  · rw [numberAt_of_num hv₅ hx hq]
    split_ifs <;> simp
  · intro key hkey
    obtain ⟨w, hw, hval⟩ := hb.branch hkey
    exact ⟨w, hw, hval.hash⟩

end Accepts

/-! ## Runs -/

section Runs

variable (re : Str → Option (Str → Bool)) (byId : Documents) (schema : Fields)

/-- `next` takes up the state and the counters that `previous` left. -/
structure Follows (previous next : Value) : Prop where
  state : member next "from_state" = member previous "to_state"
  version : numberAt next "expected_version" = numberAt previous "resulting_version"
  authority_epoch : numberAt next "expected_application_authority_epoch" =
    numberAt previous "resulting_application_authority_epoch"
  cell_epoch : numberAt next "expected_cell_write_epoch" =
    numberAt previous "resulting_cell_write_epoch"

/-- The resulting value of a counter is the expected one and its increment. -/
def AddsUp (document : Value) (counter increment : String) : Prop :=
  numberAt document ("resulting_" ++ counter) =
    Option.map₂ (· + ·) (numberAt document ("expected_" ++ counter)) (numberAt document increment)

/-- A run of transitions from `source_primary`, as the contract tests require of one. -/
structure Run (documents : List Value) : Prop where
  accepted : ∀ d ∈ documents, ∃ limit,
    (validate re byId limit d (dict schema) ⟨false, false⟩).1 = .ok ()
  starts : ∀ d, documents[0]? = some d → member d "from_state" = some (string "source_primary")
  chained : ∀ i d e, documents[i]? = some d → documents[i + 1]? = some e → Follows d e
  version : ∀ d ∈ documents, AddsUp d "version" "version_increment"
  authority_epoch : ∀ d ∈ documents,
    AddsUp d "application_authority_epoch" "application_authority_epoch_increment"
  cell_epoch : ∀ d ∈ documents, AddsUp d "cell_write_epoch" "cell_write_epoch_increment"

def SourceWrites (document : Value) : Prop :=
  member document "source_application_writes_enabled" = some (.bool true)

def TargetWrites (document : Value) : Prop :=
  member document "target_application_writes_enabled" = some (.bool true)

def Enters (document : Value) (state : String) : Prop :=
  member document "to_state" = some (string state)

/-- The document carries a receipt hash in the member. -/
def HasReceipt (document : Value) (key : String) : Prop :=
  ∃ v, member document key = some v ∧ IsHash re v

/-- The later document leaves a greater application authority epoch. -/
def EpochAdvances (earlier later : Value) : Prop :=
  ∃ p q, numberAt earlier "resulting_application_authority_epoch" = some p ∧
    numberAt later "resulting_application_authority_epoch" = some q ∧ p < q

/-- What fencing promises of a run. -/
structure WritesFenced (documents : List Value) : Prop where
  not_both : ∀ d ∈ documents, ¬ (SourceWrites d ∧ TargetWrites d)
  source_then_target : ∀ (i j : ℕ) (d e : Value), documents[i]? = some d →
    documents[j]? = some e → i < j → SourceWrites d → TargetWrites e →
    EpochAdvances d e ∧ ∃ k c, i < k ∧ k < j ∧ documents[k]? = some c ∧
      Enters c "source_fenced_and_drained" ∧ HasReceipt re c "source_fence_receipt_hash"
  target_then_source : ∀ (i j : ℕ) (d e : Value), documents[i]? = some d →
    documents[j]? = some e → i < j → TargetWrites d → SourceWrites e →
    EpochAdvances d e ∧ ∃ k l c c', i < k ∧ k < l ∧ l < j ∧ documents[k]? = some c ∧
      documents[l]? = some c' ∧ Enters c "target_fenced_and_reverse_drained" ∧
      HasReceipt re c "target_fence_receipt_hash" ∧ Enters c' "source_resume_stream_armed" ∧
      HasReceipt re c' "source_resume_stream_receipt_hash" ∧
      HasReceipt re c' "source_parity_receipt_hash"

/-- The state a document enters. -/
def entered (document : Value) : TrafficState :=
  match member document "to_state" with
  | some (.str s) => (TrafficState.all.find? fun t => str t.text = s).getD .sourcePrimary
  | _ => .sourcePrimary

def epochAfter (document : Value) : ℚ :=
  (numberAt document "resulting_application_authority_epoch").getD 0

theorem find_text (t : TrafficState) :
    (TrafficState.all.find? fun t' => str t'.text = str t.text) = some t := by
  cases t <;> rfl

theorem text_injective {s t : TrafficState} (h : s.text = t.text) : s = t := by
  have hs := find_text s
  rw [h, find_text t] at hs
  exact (Option.some.inj hs).symm

variable {re byId schema}

theorem Transition.entered_eq {d : Value} {f t : TrafficState} (h : Transition re d f t) :
    entered d = t := by
  rw [entered, h.to_state, string]
  dsimp only
  rw [find_text]
  rfl

theorem Transition.source {d : Value} {f t : TrafficState} (h : Transition re d f t)
    (hw : SourceWrites d) : t.authority = .source := by
  have := h.source_writes.symm.trans hw
  simpa using this

theorem Transition.target {d : Value} {f t : TrafficState} (h : Transition re d f t)
    (hw : TargetWrites d) : t.authority = .target := by
  have := h.target_writes.symm.trans hw
  simpa using this

/-- The states a run stays in between source writes and the source's fence. -/
def beforeSourceFence : List TrafficState :=
  [.sourcePrimary, .sourceCompatibilityDeployed, .freezingSource, .sourceRestoreArming,
    .sourceResumeStreamArmed, .sourceCohortsActivating, .sourcePrimaryResynced,
    .reverifyForCutover, .authorityConflictFrozen, .incidentRecoveryDecision, .rollbackDraining,
    .targetFencedAndReverseDrained, .rebaselineRequired]

/-- The states a run stays in between target writes and the target's fence. -/
def beforeTargetFence : List TrafficState :=
  [.targetPrimaryReverseArmed, .targetCohortsActivating, .watchingTarget, .rollbackDraining,
    .targetPrimaryIrreversible, .sourceRetired, .authorityConflictFrozen,
    .incidentRecoveryDecision, .rebaselineRequired]

/-- The states a run stays in between the target's fence and the source's resume stream. -/
def beforeResumeStream : List TrafficState :=
  [.targetFencedAndReverseDrained, .authorityConflictFrozen, .incidentRecoveryDecision,
    .rollbackDraining, .rebaselineRequired]

theorem leaves_by_source_fence : ∀ a b, (a, b) ∈ TrafficState.edges → a ∈ beforeSourceFence →
    b ∈ beforeSourceFence ∨ b = .sourceFencedAndDrained := by
  have : ∀ e ∈ TrafficState.edges, e.1 ∈ beforeSourceFence →
      e.2 ∈ beforeSourceFence ∨ e.2 = .sourceFencedAndDrained := by decide
  exact fun a b h => this (a, b) h

theorem leaves_by_target_fence : ∀ a b, (a, b) ∈ TrafficState.edges → a ∈ beforeTargetFence →
    b ∈ beforeTargetFence ∨ b = .targetFencedAndReverseDrained := by
  have : ∀ e ∈ TrafficState.edges, e.1 ∈ beforeTargetFence →
      e.2 ∈ beforeTargetFence ∨ e.2 = .targetFencedAndReverseDrained := by decide
  exact fun a b h => this (a, b) h

theorem leaves_by_resume_stream : ∀ a b, (a, b) ∈ TrafficState.edges → a ∈ beforeResumeStream →
    b ∈ beforeResumeStream ∨ b = .sourceResumeStreamArmed := by
  have : ∀ e ∈ TrafficState.edges, e.1 ∈ beforeResumeStream →
      e.2 ∈ beforeResumeStream ∨ e.2 = .sourceResumeStreamArmed := by decide
  exact fun a b h => this (a, b) h

theorem mem_beforeSourceFence {t : TrafficState} (h : t.authority = .source) :
    t ∈ beforeSourceFence := by
  cases t <;> simp [TrafficState.authority, beforeSourceFence] at h ⊢

theorem mem_beforeTargetFence {t : TrafficState} (h : t.authority = .target) :
    t ∈ beforeTargetFence := by
  cases t <;> simp [TrafficState.authority, beforeTargetFence] at h ⊢

theorem not_mem_beforeSourceFence {t : TrafficState} (h : t.authority = .target) :
    t ∉ beforeSourceFence := by
  cases t <;> simp [TrafficState.authority, beforeSourceFence] at h ⊢

theorem not_mem_beforeTargetFence {t : TrafficState} (h : t.authority = .source) :
    t ∉ beforeTargetFence := by
  cases t <;> simp [TrafficState.authority, beforeTargetFence] at h ⊢

theorem not_mem_beforeResumeStream {t : TrafficState} (h : t.authority = .source) :
    t ∉ beforeResumeStream := by
  cases t <;> simp [TrafficState.authority, beforeResumeStream] at h ⊢

variable {documents : List Value} (hs : trafficAuthorityStateMachineSchema = .ok schema)
  (h : Run re byId schema documents)
include hs h

theorem Run.transition {d : Value} (hd : d ∈ documents) : ∃ f t, Transition re d f t := by
  obtain ⟨limit, hok⟩ := h.accepted d hd
  obtain ⟨-, hat⟩ := Passes.seq (u := validateSchemaDefinition re limit (dict schema) [])
    (n := validateAt re byId (limit + 1) d (dict schema) schema.entries []) ⟨_, hok⟩
  exact @transition_of_validates _ _ schema.entries _ _ hs ⟨_, _, hat⟩

/-- One step of a run: an edge, and the epoch advanced exactly if the authority changes. -/
theorem Run.step {i : ℕ} {d e : Value} (hd : documents[i]? = some d)
    (he : documents[i + 1]? = some e) : (entered d, entered e) ∈ TrafficState.edges ∧
      epochAfter e =
        epochAfter d + if (entered d).authority ≠ (entered e).authority then 1 else 0 := by
  have hmem := List.mem_of_getElem? he
  obtain ⟨f, t, ht⟩ := h.transition hs (List.mem_of_getElem? hd)
  obtain ⟨f', t', ht'⟩ := h.transition hs hmem
  have hfollows := h.chained i d e hd he
  obtain rfl : f' = t := by
    have := ht'.from_state.symm.trans (hfollows.state.trans ht.to_state)
    exact text_injective (by simpa [string] using this)
  rw [ht.entered_eq, ht'.entered_eq]
  refine ⟨ht'.edge, ?_⟩
  obtain ⟨q, hq⟩ := ht.resulting
  have hsum := h.authority_epoch e hmem
  unfold AddsUp at hsum
  rw [show "expected_" ++ "application_authority_epoch" = "expected_application_authority_epoch"
      from rfl, show "resulting_" ++ "application_authority_epoch" =
      "resulting_application_authority_epoch" from rfl, hfollows.authority_epoch, hq,
    ht'.increment] at hsum
  rw [epochAfter, epochAfter, hsum, hq]
  rfl

omit hs h in
theorem getD_eq {i : ℕ} {d : Value} (hd : documents[i]? = some d) : documents.getD i .null = d := by
  simp [List.getD, hd]

theorem Run.steps {j : ℕ} (hj : j < documents.length) (i : ℕ) :
    Runs.Steps (fun a b => (a, b) ∈ TrafficState.edges)
      (fun k => entered (documents.getD k .null)) i j := by
  intro k _ hk
  have hd := List.getElem?_eq_getElem (show k < documents.length by omega)
  have he := List.getElem?_eq_getElem (show k + 1 < documents.length by omega)
  dsimp only
  rw [getD_eq hd, getD_eq he]
  exact (h.step hs hd he).1

theorem Run.counts {j : ℕ} (hj : j < documents.length) (i : ℕ) :
    Runs.Counts TrafficState.authority (fun k => entered (documents.getD k .null))
      (fun k => epochAfter (documents.getD k .null)) i j := by
  intro k _ hk
  have hd := List.getElem?_eq_getElem (show k < documents.length by omega)
  have he := List.getElem?_eq_getElem (show k + 1 < documents.length by omega)
  dsimp only
  rw [getD_eq hd, getD_eq he, (h.step hs hd he).2]
  constructor
  · intro heq
    simp [heq]
  · intro hne
    rw [if_pos hne]

theorem Run.epochAdvances {i j : ℕ} {d e : Value} (hd : documents[i]? = some d)
    (he : documents[j]? = some e) (hij : i < j)
    (hne : (entered d).authority ≠ (entered e).authority) : EpochAdvances d e := by
  obtain ⟨_, _, ht⟩ := h.transition hs (List.mem_of_getElem? hd)
  obtain ⟨_, _, ht'⟩ := h.transition hs (List.mem_of_getElem? he)
  obtain ⟨p, hp⟩ := ht.resulting
  obtain ⟨q, hq⟩ := ht'.resulting
  have hlt := Runs.counter_lt_of_ne hij.le
    (h.counts hs (List.getElem?_eq_some_iff.1 he).1 i) (by rw [getD_eq hd, getD_eq he]; exact hne)
  rw [getD_eq hd, getD_eq he, epochAfter, epochAfter, hp, hq] at hlt
  exact ⟨p, q, hp, hq, hlt⟩

/-- Between a document in the region and a later one out of it some document enters the gate. -/
theorem Run.gate {region : List TrafficState} {gate : TrafficState}
    (hleaves : ∀ a b, (a, b) ∈ TrafficState.edges → a ∈ region → b ∈ region ∨ b = gate)
    {i j : ℕ} {d e : Value} (hd : documents[i]? = some d) (he : documents[j]? = some e)
    (hij : i < j) (hin : entered d ∈ region) (hout : entered e ∉ region)
    (hgate : gate.authority ≠ (entered e).authority) :
    ∃ k c f, i < k ∧ k < j ∧ documents[k]? = some c ∧ Transition re c f gate := by
  have hj := (List.getElem?_eq_some_iff.1 he).1
  rcases Runs.exists_gate hleaves hij.le (h.steps hs hj i) (by rwa [getD_eq hd]) with
    hmem | ⟨k, hik, hkj, hk⟩
  · rw [getD_eq he] at hmem
    exact absurd hmem hout
  · have hc := List.getElem?_eq_getElem (show k < documents.length by omega)
    rw [getD_eq hc] at hk
    have hne : k ≠ j := by
      rintro rfl
      rw [hc] at he
      obtain rfl := Option.some.inj he
      exact hgate (hk ▸ rfl)
    obtain ⟨f, t, ht⟩ := h.transition hs (List.mem_of_getElem? hc)
    obtain rfl : t = gate := ht.entered_eq.symm.trans hk
    exact ⟨k, _, f, hik, by omega, hc, ht⟩

theorem Run.not_both {d : Value} (hd : d ∈ documents) : ¬ (SourceWrites d ∧ TargetWrites d) := by
  obtain ⟨f, t, ht⟩ := h.transition hs hd
  rintro ⟨hsource, htarget⟩
  have := (ht.source hsource).symm.trans (ht.target htarget)
  cases this

theorem Run.source_then_target {i j : ℕ} {d e : Value} (hd : documents[i]? = some d)
    (he : documents[j]? = some e) (hij : i < j) (hsource : SourceWrites d)
    (htarget : TargetWrites e) :
    EpochAdvances d e ∧ ∃ k c, i < k ∧ k < j ∧ documents[k]? = some c ∧
      Enters c "source_fenced_and_drained" ∧ HasReceipt re c "source_fence_receipt_hash" := by
  obtain ⟨f, t, ht⟩ := h.transition hs (List.mem_of_getElem? hd)
  obtain ⟨f', t', ht'⟩ := h.transition hs (List.mem_of_getElem? he)
  have hin : (entered d).authority = .source := ht.entered_eq ▸ ht.source hsource
  have hout : (entered e).authority = .target := ht'.entered_eq ▸ ht'.target htarget
  refine ⟨h.epochAdvances hs hd he hij (by rw [hin, hout]; decide), ?_⟩
  obtain ⟨k, c, g, hik, hkj, hc, hg⟩ := h.gate hs leaves_by_source_fence hd he hij
    (mem_beforeSourceFence hin) (not_mem_beforeSourceFence hout) (by rw [hout]; decide)
  exact ⟨k, c, hik, hkj, hc, hg.to_state, hg.hash _ (edge_source_fence g)⟩

theorem Run.target_then_source {i j : ℕ} {d e : Value} (hd : documents[i]? = some d)
    (he : documents[j]? = some e) (hij : i < j) (htarget : TargetWrites d)
    (hsource : SourceWrites e) :
    EpochAdvances d e ∧ ∃ k l c c', i < k ∧ k < l ∧ l < j ∧ documents[k]? = some c ∧
      documents[l]? = some c' ∧ Enters c "target_fenced_and_reverse_drained" ∧
      HasReceipt re c "target_fence_receipt_hash" ∧ Enters c' "source_resume_stream_armed" ∧
      HasReceipt re c' "source_resume_stream_receipt_hash" ∧
      HasReceipt re c' "source_parity_receipt_hash" := by
  obtain ⟨f, t, ht⟩ := h.transition hs (List.mem_of_getElem? hd)
  obtain ⟨f', t', ht'⟩ := h.transition hs (List.mem_of_getElem? he)
  have hin : (entered d).authority = .target := ht.entered_eq ▸ ht.target htarget
  have hout : (entered e).authority = .source := ht'.entered_eq ▸ ht'.source hsource
  refine ⟨h.epochAdvances hs hd he hij (by rw [hin, hout]; decide), ?_⟩
  obtain ⟨k, c, g, hik, hkj, hc, hg⟩ := h.gate hs leaves_by_target_fence hd he hij
    (mem_beforeTargetFence hin) (not_mem_beforeTargetFence hout) (by rw [hout]; decide)
  obtain ⟨l, c', g', hkl, hlj, hc', hg'⟩ := h.gate hs leaves_by_resume_stream hc he hkj
    (by rw [hg.entered_eq]; decide) (not_mem_beforeResumeStream hout) (by rw [hout]; decide)
  exact ⟨k, l, c, c', hik, hkl, hlj, hc, hc', hg.to_state, hg.hash _ (edge_target_fence g),
    hg'.to_state, hg'.hash _ (edge_resume_stream g'), hg'.hash _ (edge_source_parity g')⟩

end Runs

/-! ## The definition of the schema -/

section Definition

variable {re : Str → Option (Str → Bool)} {limit : ℕ}

theorem mem_set {fields : Fields} {key : String} {value : Value} {p : String × Value}
    (h : p ∈ fields.set key value) : p ∈ fields ∨ p = (key, value) := by
  induction fields with
  | nil => exact .inr (List.mem_singleton.1 h)
  | cons f fields ih =>
    rw [Fields.set] at h
    split_ifs at h with hf
    · rcases List.mem_cons.1 h with rfl | h
      · exact .inr rfl
      · exact .inl (List.mem_cons_of_mem _ h)
    · rcases List.mem_cons.1 h with rfl | h
      · exact .inl List.mem_cons_self
      · exact (ih h).imp (List.mem_cons_of_mem _) id

theorem keys_set {fields : Fields} {key : String} {value : Value}
    (h : key ∈ fields.map Prod.fst) : (fields.set key value).map Prod.fst = fields.map Prod.fst := by
  induction fields with
  | nil => simp at h
  | cons f fields ih =>
    rw [Fields.set]
    split_ifs with hf
    · simp [hf]
    · rw [List.map_cons, List.map_cons, ih]
      simpa [Ne.symm hf] using h

/-- The schemas an edge holds a member to. -/
def Plain (schema : Value) : Prop :=
  (∃ v, schema = const v) ∨ schema = nullType ∨ schema = hashField

/-- The members an edge fixes. -/
def edgeKeys : List String :=
  ["from_state", "to_state", "from_application_authority", "to_application_authority",
    "application_authority_epoch_increment", "authority_epoch_transition",
    "source_application_writes_enabled", "target_application_writes_enabled",
    "attribution_status", "cohort_activation_receipt_root_hash", "reverse_health_root_hash",
    "source_fence_receipt_hash", "target_fence_receipt_hash", "source_denial_canary_root_hash",
    "target_denial_canary_root_hash", "source_resume_stream_receipt_hash",
    "source_parity_receipt_hash", "target_no_effect_receipt_hash", "smoke_root_hash",
    "rollback_window_closure_root_hash", "conflict_evidence_root_hash"]

structure PlainEdge (fields : Fields) : Prop where
  keys : fields.map Prod.fst = edgeKeys
  plain : ∀ p ∈ fields, Plain p.2

theorem PlainEdge.set {fields : Fields} (h : PlainEdge fields) {key : String} {value : Value}
    (hkey : key ∈ edgeKeys) (hvalue : Plain value) : PlainEdge (fields.set key value) where
  keys := (keys_set (h.keys ▸ hkey)).trans h.keys
  plain p hp := by
    rcases mem_set hp with hp | rfl
    · exact h.plain p hp
    · exact hvalue

theorem PlainEdge.update {fields others : Fields} (h : PlainEdge fields)
    (hkeys : ∀ p ∈ others, p.1 ∈ edgeKeys) (hplain : ∀ p ∈ others, Plain p.2) :
    PlainEdge (fields.update others) := by
  unfold Fields.update
  induction others generalizing fields with
  | nil => exact h
  | cons p others ih =>
    obtain ⟨hp, hkeys⟩ := List.forall_mem_cons.1 hkeys
    obtain ⟨hp', hplain⟩ := List.forall_mem_cons.1 hplain
    exact ih (h.set hp hp') hkeys hplain

theorem PlainEdge.hashWhen {fields : Fields} (h : PlainEdge fields) (test : Bool)
    {keys : List String} (hkeys : ∀ key ∈ keys, key ∈ edgeKeys) :
    PlainEdge (fields.hashWhen test keys) := by
  unfold Fields.hashWhen
  split_ifs
  · induction keys generalizing fields with
    | nil => exact h
    | cons key keys ih =>
      obtain ⟨hkey, hkeys⟩ := List.forall_mem_cons.1 hkeys
      exact ih (h.set hkey (.inr (.inr rfl))) hkeys
  · exact h

theorem plainEdge_trafficEdgeProperties (f t : TrafficState) :
    PlainEdge (trafficEdgeProperties f t) := by
  unfold trafficEdgeProperties
  dsimp only
  split_ifs
  all_goals
    try refine PlainEdge.update ?_ (by simp [edgeKeys]) (by simp [Plain])
    iterate 9 refine PlainEdge.hashWhen ?_ _ (by simp [edgeKeys])
    exact ⟨rfl, by simp [Plain]⟩

theorem keyword_entries (fields : Fields) (name : String) :
    keyword fields.entries name = fields.lookup name := lookup_entries fields name

theorem supported_entries {fields : Fields} (h : ∀ p ∈ fields, supported (str p.1) = true) :
    (Json.names fields.entries).filter (fun key => !supported key) = [] := by
  rw [names_entries, List.filter_eq_nil_iff]
  intro key hkey
  obtain ⟨p, hp, rfl⟩ := List.mem_map.1 hkey
  simp [h p hp]

theorem defined_const (v : Value) : Defined re (limit + 1) (const v) := by
  intro path t
  have hsupported : supported (str "const") = true := by decide +kernel
  rw [const, dict, validateSchemaDefinition, checkDict]
  simp [supported_entries, hsupported, checkKeyword, onKeyword, keyword_entries, checkBounds,
    Json.lookup_cons_eq, forEach, require, schemaMapKeywords, schemaListKeywords,
    schemaValueKeywords]
  rfl

theorem defined_nullType : Defined re (limit + 1) nullType := by
  intro path t
  have hsupported : supported (str "type") = true := by decide +kernel
  have hnull : isTypeDeclaration (string "null") = true := by decide +kernel
  rw [nullType, dict, validateSchemaDefinition, checkDict]
  simp [supported_entries, hsupported, hnull, checkKeyword, onKeyword, keyword_entries, checkBounds,
    Json.lookup_cons_eq, forEach, require, schemaMapKeywords, schemaListKeywords,
    schemaValueKeywords]
  rfl

theorem isStringSet_strings {ss : List String} (h : ss.Nodup) :
    isStringSet (strings ss) = true := by
  have hmap : strings? (ss.map string) = some (ss.map str) := by
    rw [← strings?_map, List.map_map]
    rfl
  rw [strings, isStringSet]
  simp [hmap, h.map (fun _ _ => Str.text.inj)]

theorem forEach_pure {α : Type} (xs : List α) : forEach (fun _ => pure ()) xs = pure () := by
  induction xs with
  | nil => rfl
  | cons x xs ih => exact ih

theorem defined_branch {fields : Fields} (hkeys : (fields.map Prod.fst).Nodup)
    (hplain : ∀ p ∈ fields, Plain p.2) (hhash : Defined re (limit + 1) hashField) :
    Defined re (limit + 2) (branch fields) := by
  refine defined_of_subschemas ?_ fun v hv => ?_
  · have hproperties : supported (str "properties") = true := by decide +kernel
    have hrequired : supported (str "required") = true := by decide +kernel
    have hkeys := isStringSet_strings hkeys
    rw [checkDict]
    simp [supported_entries, hproperties, hrequired, hkeys, checkKeyword, onKeyword,
      keyword_entries, checkBounds, Json.lookup_cons_eq, forEach, require, schemaMapKeywords,
      schemaListKeywords, schemaValueKeywords, dict, forEach_pure]
    rfl
  · simp only [Subschema, schemaMapKeywords, schemaListKeywords, schemaValueKeywords, keyword_entries,
      Json.lookup_cons_eq, dict] at hv
    obtain ⟨p, hp, rfl⟩ : ∃ p ∈ fields, p.2 = v := by simpa [Fields.entries] using hv
    rcases hplain p hp with ⟨v, hv⟩ | hv | hv <;> rw [hv]
    · exact defined_const v
    · exact defined_nullType
    · exact hhash

theorem defined_oneOf {xs : List Value} (hne : xs ≠ [])
    (h : ∀ x ∈ xs, Defined re (limit + 1) x) :
    Defined re (limit + 2) (dict [("oneOf", .arr xs)]) := by
  refine defined_of_subschemas ?_ fun v hv => ?_
  · have honeOf : supported (str "oneOf") = true := by decide +kernel
    rw [checkDict]
    simp [supported_entries, honeOf, hne, checkKeyword, onKeyword, keyword_entries, checkBounds,
      Json.lookup_cons_eq, forEach, require, schemaMapKeywords, schemaListKeywords,
      schemaValueKeywords, forEach_pure]
    rfl
  · simp only [Subschema, schemaMapKeywords, schemaListKeywords, schemaValueKeywords, keyword_entries,
      Json.lookup_cons_eq] at hv
    exact h v (by simpa using hv)

theorem subschema_document {path title : String} {properties : Fields} {required : List String}
    {o : SchemaOptions} {v : Value} (hdefs : o.definitions = [])
    (hv : Subschema (document path title properties required o).entries v) :
    v ∈ (Fields.update [("schema_version", dict [("const", string o.schemaVersion)])]
      properties).map Prod.snd ∨ v ∈ o.allOf ∨ v = .bool false := by
  simp only [Subschema, schemaMapKeywords, schemaListKeywords, schemaValueKeywords,
    keyword_entries, document, hdefs] at hv
  cases hall : o.allOf with
  | nil => simpa [hall, Json.lookup_cons_eq, dict, Fields.entries, eq_comm] using hv
  | cons x xs => simpa [hall, Json.lookup_cons_eq, dict, Fields.entries, or_assoc, eq_comm] using hv

/-- The schema is one, under expressions that all compile. -/
theorem defined_trafficAuthority {schema : Fields}
    (hs : trafficAuthorityStateMachineSchema = .ok schema) :
    Defined (fun _ => some fun _ => true) 10 (dict schema) := by
  obtain rfl := (Except.ok.inj hs).symm
  have hhash : Defined (fun _ => some fun _ => true) 7 hashField :=
    defined_of_isOk (by decide +kernel)
  refine defined_of_subschemas (by decide +kernel) fun v hv => ?_
  rcases subschema_document rfl hv with hv | hv | rfl
  · have hall : (Fields.update [("schema_version", dict [("const", string schemaVersion)])]
        (stateMachineProperties "traffic_authority" TrafficState.all trafficOptions)).all
          (fun p => (validateSchemaDefinition (fun _ => some fun _ => true) 9 p.2 []
            ⟨false, false⟩).1.isOk) = true := by decide +kernel
    obtain ⟨p, hp, rfl⟩ := List.mem_map.1 hv
    exact defined_of_isOk (List.all_eq_true.1 hall p hp)
  · simp only [trafficOptions, List.mem_cons, List.not_mem_nil, or_false] at hv
    rcases hv with rfl | rfl | rfl | rfl
    · refine defined_oneOf (by decide) fun x hx => ?_
      obtain ⟨e, -, rfl⟩ := List.mem_map.1 hx
      exact defined_branch (by simp) (by simp [Plain]) hhash
    · exact defined_of_isOk (by decide +kernel)
    · exact defined_of_isOk (by decide +kernel)
    · refine defined_oneOf (by decide) fun x hx => ?_
      obtain ⟨e, -, rfl⟩ := List.mem_map.1 hx
      have hedge := plainEdge_trafficEdgeProperties e.1 e.2
      exact defined_branch (hedge.keys ▸ by decide +kernel) hedge.plain hhash
  · exact fun _ _ => rfl

end Definition

/-! ## A run -/

section Example

/-- A transition document with its optional receipts left out of the way of the edge. -/
def sampleTransition (f t : TrafficState) (version epoch : ℤ) : Value :=
  let hash := string "00000000000000000000000000000000000000000000000000000000000000aa"
  let uuid := string "01890a5d-ac96-774b-bcce-b302099a8057"
  let increment : ℤ := if f.authority ≠ t.authority then 1 else 0
  let receipts := (trafficEdgeProperties f t).filterMap fun p =>
    match p.2 with
    | .obj ((key, value) :: _) =>
      if key = str "const" then some (p.1, value)
      else if key = str "type" then
        some (p.1, if jsonEqual value (string "null") then Json.null else hash)
      else none
    | _ => none
  dict (receipts ++
    [("schema_version", string "1.0.0"), ("workspace_id", uuid), ("migration_id", uuid),
      ("cell_id", uuid), ("cell_generation", int 1), ("causation_id", uuid),
      ("correlation_id", uuid), ("transition_id", uuid), ("machine", string "traffic_authority"),
      ("expected_version", int version), ("resulting_version", int (version + 1)),
      ("version_increment", int 1), ("idempotency_key_hash", hash),
      ("authorization_root_hash", hash), ("evidence_roots", .arr []),
      ("actor_type", string "system"), ("reason_code", string "cutover"),
      ("occurred_at", string "2026-07-17T00:00:00Z"),
      ("expected_application_authority_epoch", int epoch),
      ("resulting_application_authority_epoch", int (epoch + increment)),
      ("expected_cell_write_epoch", int 1), ("resulting_cell_write_epoch", int 1),
      ("cell_write_epoch_increment", int 0), ("cell_generation_changed", .bool false),
      ("cohort_grant_root_hash", hash)])

theorem eq_ok_of_isOk {r : Except Exc Unit} (h : r.isOk = true) : r = .ok () := by
  cases r with
  | error e => cases h
  | ok u => rfl

theorem firstStep_accepted {schema : Fields} (hs : trafficAuthorityStateMachineSchema = .ok schema) :
    (validate (fun _ => some fun _ => true) [] 10
      (sampleTransition .sourcePrimary .sourceCompatibilityDeployed 0 1) (dict schema)
      ⟨false, false⟩).1 = .ok () := by
  have hat : (validateAt (fun _ => some fun _ => true) [] 11
      (sampleTransition .sourcePrimary .sourceCompatibilityDeployed 0 1) (dict schema)
      schema.entries [] ⟨false, false⟩).1.isOk = true := by
    obtain rfl := (Except.ok.inj hs).symm
    decide +kernel
  refine (congrArg Prod.fst (bind_of_ok (defined_trafficAuthority hs [] _) _)).trans ?_
  exact eq_ok_of_isOk hat

end Example

end Codegen
