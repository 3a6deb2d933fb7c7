import Jumpship.Codegen.Model

/-!
# The traffic authority state machine

`_traffic_authority_state_machine_schema` of the core contracts: one document is one transition.
-/

namespace Codegen

open Py

/-! ## States and edges -/

inductive TrafficState where
  | sourcePrimary
  | sourceCompatibilityDeployed
  | freezingSource
  | sourceFencedAndDrained
  | targetPrimaryReverseArmed
  | targetCohortsActivating
  | watchingTarget
  | rollbackDraining
  | targetFencedAndReverseDrained
  | sourceRestoreArming
  | sourceResumeStreamArmed
  | sourceCohortsActivating
  | sourcePrimaryResynced
  | reverifyForCutover
  | targetPrimaryIrreversible
  | sourceRetired
  | authorityConflictFrozen
  | incidentRecoveryDecision
  | rebaselineRequired
deriving DecidableEq

namespace TrafficState

def text : TrafficState → String
  | sourcePrimary => "source_primary"
  | sourceCompatibilityDeployed => "source_compatibility_deployed"
  | freezingSource => "freezing_source"
  | sourceFencedAndDrained => "source_fenced_and_drained"
  | targetPrimaryReverseArmed => "target_primary_reverse_armed"
  | targetCohortsActivating => "target_cohorts_activating"
  | watchingTarget => "watching_target"
  | rollbackDraining => "rollback_draining"
  | targetFencedAndReverseDrained => "target_fenced_and_reverse_drained"
  | sourceRestoreArming => "source_restore_arming"
  | sourceResumeStreamArmed => "source_resume_stream_armed"
  | sourceCohortsActivating => "source_cohorts_activating"
  | sourcePrimaryResynced => "source_primary_resynced"
  | reverifyForCutover => "reverify_for_cutover"
  | targetPrimaryIrreversible => "target_primary_irreversible"
  | sourceRetired => "source_retired"
  | authorityConflictFrozen => "authority_conflict_frozen"
  | incidentRecoveryDecision => "incident_recovery_decision"
  | rebaselineRequired => "rebaseline_required"

/-- `_TRAFFIC_STATES` -/
def all : List TrafficState :=
  [sourcePrimary, sourceCompatibilityDeployed, freezingSource, sourceFencedAndDrained,
    targetPrimaryReverseArmed, targetCohortsActivating, watchingTarget, rollbackDraining,
    targetFencedAndReverseDrained, sourceRestoreArming, sourceResumeStreamArmed,
    sourceCohortsActivating, sourcePrimaryResynced, reverifyForCutover, targetPrimaryIrreversible,
    sourceRetired, authorityConflictFrozen, incidentRecoveryDecision, rebaselineRequired]

/-- `_TRAFFIC_EDGES` -/
def edges : List (TrafficState × TrafficState) :=
  [(sourcePrimary, sourceCompatibilityDeployed),
    (sourceCompatibilityDeployed, freezingSource),
    (freezingSource, sourceRestoreArming),
    (freezingSource, sourceFencedAndDrained),
    (sourceRestoreArming, sourceResumeStreamArmed),
    (sourceResumeStreamArmed, sourceCohortsActivating),
    (sourceCohortsActivating, sourcePrimaryResynced),
    (sourceFencedAndDrained, sourceRestoreArming),
    (sourceFencedAndDrained, targetPrimaryReverseArmed),
    (targetPrimaryReverseArmed, targetCohortsActivating),
    (targetPrimaryReverseArmed, rollbackDraining),
    (targetCohortsActivating, watchingTarget),
    (targetCohortsActivating, rollbackDraining),
    (watchingTarget, rollbackDraining),
    (watchingTarget, targetPrimaryIrreversible),
    (rollbackDraining, targetFencedAndReverseDrained),
    (targetFencedAndReverseDrained, sourceResumeStreamArmed),
    (targetPrimaryIrreversible, sourceRetired),
    (sourcePrimaryResynced, reverifyForCutover),
    (reverifyForCutover, freezingSource)] ++
  ([sourceFencedAndDrained, targetPrimaryReverseArmed, targetCohortsActivating, watchingTarget,
      rollbackDraining, targetFencedAndReverseDrained, sourceRestoreArming, sourceResumeStreamArmed,
      sourceCohortsActivating, targetPrimaryIrreversible].map fun state =>
    (state, authorityConflictFrozen)) ++
  [(authorityConflictFrozen, incidentRecoveryDecision),
    (incidentRecoveryDecision, rollbackDraining),
    (incidentRecoveryDecision, rebaselineRequired)]

end TrafficState

inductive Authority where
  | source
  | none
  | target
deriving DecidableEq

def Authority.text : Authority → String
  | .source => "source"
  | .none => "none"
  | .target => "target"

/-- `_TRAFFIC_AUTHORITY_BY_STATE` -/
def TrafficState.authority : TrafficState → Authority
  | sourcePrimary => .source
  | sourceCompatibilityDeployed => .source
  | freezingSource => .none
  | sourceFencedAndDrained => .none
  | targetPrimaryReverseArmed => .target
  | targetCohortsActivating => .target
  | watchingTarget => .target
  | rollbackDraining => .none
  | targetFencedAndReverseDrained => .none
  | sourceRestoreArming => .none
  | sourceResumeStreamArmed => .none
  | sourceCohortsActivating => .source
  | sourcePrimaryResynced => .source
  | reverifyForCutover => .source
  | targetPrimaryIrreversible => .target
  | sourceRetired => .target
  | authorityConflictFrozen => .none
  | incidentRecoveryDecision => .none
  | rebaselineRequired => .none

/-! ## Constraints of an edge -/

def const (value : Value) : Value := dict [("const", value)]

def nullType : Value := dict [("type", string "null")]

/-- One branch of a `oneOf` over edges. -/
def branch (properties : Fields) : Value :=
  dict [("properties", dict properties), ("required", strings (properties.map Prod.fst))]

/-- `_edge_constraints` of a machine without state dimensions. -/
def edgeConstraints (edges : List (TrafficState × TrafficState)) : List Value :=
  edges.map fun e =>
    branch [("from_state", const (string e.1.text)), ("to_state", const (string e.2.text))]

/-- `if test: properties[key] = hash_field()`, for each key. -/
def Fields.hashWhen (properties : Fields) (test : Bool) (keys : List String) : Fields :=
  if test then keys.foldl (fun fields key => fields.set key hashField) properties else properties

open TrafficState in
/-- The properties `_traffic_edge_constraints` gives one edge. -/
def trafficEdgeProperties (fromState toState : TrafficState) : Fields :=
  let changed : Bool := fromState.authority ≠ toState.authority
  let properties : Fields :=
    [("from_state", const (string fromState.text)),
      ("to_state", const (string toState.text)),
      ("from_application_authority", const (string fromState.authority.text)),
      ("to_application_authority", const (string toState.authority.text)),
      ("application_authority_epoch_increment", const (int (if changed then 1 else 0))),
      ("authority_epoch_transition",
        const (string (if changed then "advanced_once" else "unchanged"))),
      ("source_application_writes_enabled", const (.bool (toState.authority = .source))),
      ("target_application_writes_enabled", const (.bool (toState.authority = .target))),
      ("attribution_status", const (string "clear")),
      ("cohort_activation_receipt_root_hash", nullType),
      ("reverse_health_root_hash", nullType),
      ("source_fence_receipt_hash", nullType),
      ("target_fence_receipt_hash", nullType),
      ("source_denial_canary_root_hash", nullType),
      ("target_denial_canary_root_hash", nullType),
      ("source_resume_stream_receipt_hash", nullType),
      ("source_parity_receipt_hash", nullType),
      ("target_no_effect_receipt_hash", nullType),
      ("smoke_root_hash", nullType),
      ("rollback_window_closure_root_hash", nullType),
      ("conflict_evidence_root_hash", nullType)]
  let properties := properties.hashWhen
    (toState ∈ [freezingSource, sourceFencedAndDrained, targetPrimaryReverseArmed])
    ["source_fence_receipt_hash", "source_denial_canary_root_hash"]
  let properties := properties.hashWhen
    (toState ∈ [targetPrimaryReverseArmed, targetCohortsActivating, watchingTarget,
      rollbackDraining, targetFencedAndReverseDrained])
    ["reverse_health_root_hash"]
  let properties := properties.hashWhen (toState ∈ [targetCohortsActivating, watchingTarget])
    ["cohort_activation_receipt_root_hash", "smoke_root_hash"]
  let properties := properties.hashWhen
    (toState ∈ [rollbackDraining, targetFencedAndReverseDrained, sourceResumeStreamArmed,
      sourceCohortsActivating, sourcePrimaryResynced])
    ["target_fence_receipt_hash", "target_denial_canary_root_hash"]
  let properties := properties.hashWhen (toState = sourceRestoreArming)
    ["target_no_effect_receipt_hash"]
  let properties := properties.hashWhen
    (toState ∈ [sourceResumeStreamArmed, sourceCohortsActivating, sourcePrimaryResynced])
    ["source_resume_stream_receipt_hash", "source_parity_receipt_hash"]
  let properties := properties.hashWhen (toState ∈ [sourceCohortsActivating, sourcePrimaryResynced])
    ["cohort_activation_receipt_root_hash", "smoke_root_hash"]
  let properties := properties.hashWhen (toState ∈ [targetPrimaryIrreversible, sourceRetired])
    ["rollback_window_closure_root_hash"]
  let properties := properties.hashWhen
    (toState ∈ [authorityConflictFrozen, incidentRecoveryDecision, rebaselineRequired] ||
      fromState = incidentRecoveryDecision)
    ["conflict_evidence_root_hash"]
  if toState = authorityConflictFrozen then
    properties.update
      [("attribution_status", const (string "authority_conflict")),
        ("source_fence_receipt_hash", hashField),
        ("target_fence_receipt_hash", hashField),
        ("source_denial_canary_root_hash", hashField),
        ("target_denial_canary_root_hash", hashField)]
  else properties

/-- `_traffic_edge_constraints` -/
def trafficEdgeConstraints : List Value :=
  TrafficState.edges.map fun e => branch (trafficEdgeProperties e.1 e.2)

/-! ## The schema -/

def safeReasonPattern : String := "^[a-z][a-z0-9_.-]\x7b0,95\x7d$"

def nullableHash : Value := nullable hashField

/-- `_hashes` with at most `maxItems` items. -/
def hashes (maxItems : ℕ) : Value := sArray hashField { maxItems := maxItems, unique := true }

def identityRequired : List String :=
  ["workspace_id", "migration_id", "cell_id", "cell_generation", "causation_id", "correlation_id"]

structure MachineOptions where
  dataClass : String := "shared_migration"
  flowIds : List String := ["F03", "F06"]
  extraProperties : Fields := []
  extraRequired : List String := []
  extraAllOf : List Value := []

/-- The properties of `_state_machine_schema` without state dimensions. -/
def stateMachineProperties (machine : String) (states : List TrafficState) (o : MachineOptions) :
    Fields :=
  (commonIdentityProperties ++
    [("transition_id", sString { pattern := some uuidPattern }),
      ("machine", sString { const := some machine }),
      ("from_state", sString { enum := some (states.map TrafficState.text) }),
      ("to_state", sString { enum := some (states.map TrafficState.text) }),
      ("expected_version", sInteger (some 0) none),
      ("resulting_version", sInteger (some 1) none),
      ("version_increment", sInteger (some 1) (some 1)),
      ("idempotency_key_hash", hashField),
      ("authorization_root_hash", hashField),
      ("evidence_roots", hashes 64),
      ("actor_type", sString { enum := some ["human", "service", "provider", "system"] }),
      ("reason_code", sString { pattern := some safeReasonPattern, maxLength := some 96 }),
      ("occurred_at", timestampField)]).update o.extraProperties

def stateMachineRequired (o : MachineOptions) : List String :=
  identityRequired ++
    ["transition_id", "machine", "from_state", "to_state", "expected_version", "resulting_version",
      "version_increment", "idempotency_key_hash", "authorization_root_hash", "evidence_roots",
      "actor_type", "reason_code", "occurred_at"] ++ o.extraRequired

/-- `_state_machine_schema` without state dimensions. -/
def stateMachineSchema (path title machine : String) (states : List TrafficState)
    (edges : List (TrafficState × TrafficState)) (o : MachineOptions) :
    Except BuildError Fields :=
  schema path title (stateMachineProperties machine states o) (stateMachineRequired o)
    { dataClass := o.dataClass
      maxBytes := 131072
      flowIds := o.flowIds
      description := "Closed " ++ machine ++ " transition envelope. The schema enumerates every legal edge; unknown states, same-state rewrites, and unlisted edges are rejected."
      allOf := dict [("oneOf", .arr (edgeConstraints edges))] :: o.extraAllOf }

def trafficExtraProperties : Fields :=
  [("from_application_authority", sString { enum := some ["source", "none", "target"] }),
    ("to_application_authority", sString { enum := some ["source", "none", "target"] }),
    ("expected_application_authority_epoch", sInteger (some 1) none),
    ("resulting_application_authority_epoch", sInteger (some 1) none),
    ("application_authority_epoch_increment", sInteger (some 0) (some 1)),
    ("authority_epoch_transition", sString { enum := some ["unchanged", "advanced_once"] }),
    ("expected_cell_write_epoch", sInteger (some 1) none),
    ("resulting_cell_write_epoch", sInteger (some 1) none),
    ("cell_write_epoch_increment", sInteger (some 0) (some 1)),
    ("cell_generation_changed", sBoolean),
    ("cohort_grant_root_hash", hashField),
    ("cohort_activation_receipt_root_hash", nullableHash),
    ("source_application_writes_enabled", sBoolean),
    ("target_application_writes_enabled", sBoolean),
    ("reverse_health_root_hash", nullableHash),
    ("source_fence_receipt_hash", nullableHash),
    ("target_fence_receipt_hash", nullableHash),
    ("source_denial_canary_root_hash", nullableHash),
    ("target_denial_canary_root_hash", nullableHash),
    ("source_resume_stream_receipt_hash", nullableHash),
    ("source_parity_receipt_hash", nullableHash),
    ("target_no_effect_receipt_hash", nullableHash),
    ("smoke_root_hash", nullableHash),
    ("rollback_window_closure_root_hash", nullableHash),
    ("conflict_evidence_root_hash", nullableHash),
    ("attribution_status", sString { enum := some ["clear", "reverse_attribution_pending",
      "authority_conflict"] })]

def trafficExtraRequired : List String :=
  ["from_application_authority", "to_application_authority", "expected_application_authority_epoch",
    "resulting_application_authority_epoch", "application_authority_epoch_increment",
    "authority_epoch_transition", "expected_cell_write_epoch", "resulting_cell_write_epoch",
    "cell_write_epoch_increment", "cell_generation_changed", "cohort_grant_root_hash",
    "cohort_activation_receipt_root_hash", "source_application_writes_enabled",
    "target_application_writes_enabled", "reverse_health_root_hash", "source_fence_receipt_hash",
    "target_fence_receipt_hash", "source_denial_canary_root_hash",
    "target_denial_canary_root_hash", "source_resume_stream_receipt_hash",
    "source_parity_receipt_hash", "target_no_effect_receipt_hash", "smoke_root_hash",
    "rollback_window_closure_root_hash", "conflict_evidence_root_hash", "attribution_status"]

/-- The cell's write epoch advances with its generation. -/
def cellGeneration (changed : Bool) (increment : ℤ) : Value :=
  dict [("if", dict [("properties", dict [("cell_generation_changed", const (.bool changed))])]),
    ("then", dict [("properties", dict [("cell_write_epoch_increment", const (int increment))])])]

def trafficOptions : MachineOptions where
  extraProperties := trafficExtraProperties
  extraRequired := trafficExtraRequired
  extraAllOf := [cellGeneration false 0, cellGeneration true 1,
    dict [("oneOf", .arr trafficEdgeConstraints)]]

/-- `_traffic_authority_state_machine_schema` -/
def trafficAuthorityStateMachineSchema : Except BuildError Fields :=
  stateMachineSchema "workflow/traffic-authority-state-machine.schema.json"
    "Traffic Authority State Machine Transition" "traffic_authority" TrafficState.all
    TrafficState.edges trafficOptions

end Codegen
