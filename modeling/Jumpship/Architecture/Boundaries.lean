import Mathlib.Data.Prod.Lex
import Jumpship.Py.Order

/-!
# The trust-boundary report

`RULES`, `_shortest_paths` and `_boundary_violations` of the architecture checker. A set is the list
of its members as they were added, a `dict` that of its entries. A search is given the number of
paths it may take from its queue.
-/

namespace Architecture

open Py

/-! ## What a rule matches -/

section Rules

structure BoundaryRule where
  name : Str
  explanation : Str
  sourceMatches : Str → Bool
  targetMatches : Str → Bool

def slash : ℕ := '/'.toNat

def sourceRoots : List String := ["agent", "cmd", "contracts", "evals", "internal", "test", "web"]

def externalGoTargetPrefix : String := "external:"

def sanitizedTrajectoryContractPackage : String := "internal/contracts/quality/sanitizedtrajectory"

def modelProviderImportPrefixes : List String :=
  ["github.com/anthropics/anthropic-sdk-go",
    "github.com/google/generative-ai-go",
    "github.com/openai/openai-go",
    "github.com/sashabaranov/go-openai",
    "google.golang.org/genai"]

def modelProviderImportFamilyPrefixes : List String :=
  ["github.com/aws/aws-sdk-go-v2/service/bedrock",
    "github.com/aws/aws-sdk-go/service/bedrock"]

def awsProvisioningImportPrefixes : List String :=
  ["github.com/aws/aws-sdk-go-v2/service/autoscaling",
    "github.com/aws/aws-sdk-go-v2/service/cloudformation",
    "github.com/aws/aws-sdk-go-v2/service/ec2",
    "github.com/aws/aws-sdk-go-v2/service/ecs",
    "github.com/aws/aws-sdk-go-v2/service/iam",
    "github.com/aws/aws-sdk-go-v2/service/rds",
    "github.com/aws/aws-sdk-go/service/autoscaling",
    "github.com/aws/aws-sdk-go/service/cloudformation",
    "github.com/aws/aws-sdk-go/service/ec2",
    "github.com/aws/aws-sdk-go/service/ecs",
    "github.com/aws/aws-sdk-go/service/iam",
    "github.com/aws/aws-sdk-go/service/rds"]

def directDatabaseDriverImportPrefixes : List String :=
  ["github.com/go-sql-driver/mysql",
    "github.com/jackc/pgx",
    "github.com/lib/pq",
    "go.mongodb.org/mongo-driver"]

/-- `_has_prefix` -/
def hasPrefix (path : Str) (prefixes : List String) : Bool :=
  prefixes.any fun start => path = str start || (str (start ++ "/")).startsWith path

/-- `_external_import_path` -/
def externalImportPath (path : Str) : Option Str :=
  if (str externalGoTargetPrefix).startsWith path then
    some (.ofCodes (path.codes.drop externalGoTargetPrefix.length))
  else none

/-- `_matches_external_import` -/
def matchesExternalImport (path : Str) (prefixes familyPrefixes : List String) : Bool :=
  match externalImportPath path with
  | none => false
  | some imported =>
    hasPrefix imported prefixes || familyPrefixes.any fun start => (str start).startsWith imported

/-- `_is_repository_domain` -/
def isRepositoryDomain (path : Str) : Bool :=
  Str.ofCodes (path.codes.takeWhile (· ≠ slash)) ∈ sourceRoots.map str

/-- `_is_quality_forbidden_target` -/
def isQualityForbiddenTarget (path : Str) : Bool :=
  if (externalImportPath path).isSome then true
  else if !isRepositoryDomain path then false
  else if hasPrefix path ["internal/quality"] then false
  else path ≠ str sanitizedTrajectoryContractPackage

/-- `_is_direct_driver` -/
def isDirectDriver (path : Str) : Bool :=
  let parts := (splitOn slash path.codes).map Str.ofCodes
  if hasPrefix path ["internal/persistence/target"] then true
  else
    match parts with
    | first :: second :: _ :: fourth :: _ =>
      first = str "internal" && second = str "corridors" &&
        (fourth = str "source" || fourth = str "target")
    | _ => false

/-- `_is_implementation_from_contracts` -/
def isImplementationFromContracts (path : Str) : Bool :=
  (str "internal/").startsWith path && !hasPrefix path ["internal/contracts"]

def mothershipNarrowAuthority : BoundaryRule where
  name := str "mothership-narrow-authority"
  explanation := str ("mothership lifecycle code cannot reach harness, engine, decision, or " ++
    "evidence implementations")
  sourceMatches path := hasPrefix path ["cmd/mothership", "internal/mothership"]
  targetMatches path := hasPrefix path
    ["internal/harness", "internal/engine", "internal/decisions", "internal/evidence"]

def harnessNoProvisioningOrDrivers : BoundaryRule where
  name := str "harness-no-provisioning-or-drivers"
  explanation :=
    str "harness code cannot reach provisioning authority or direct source/target drivers"
  sourceMatches path := hasPrefix path ["cmd/cell-agent", "cmd/analysis-runner", "internal/harness"]
  targetMatches path :=
    hasPrefix path ["internal/mothership"] || hasPrefix path ["infra"] || isDirectDriver path ||
      matchesExternalImport path awsProvisioningImportPrefixes [] ||
      matchesExternalImport path directDatabaseDriverImportPrefixes []

def engineNoModelProvider : BoundaryRule where
  name := str "engine-no-model-provider"
  explanation := str "the deterministic engine cannot reach model or provider implementations"
  sourceMatches path := hasPrefix path ["cmd/engine", "internal/engine"]
  targetMatches path :=
    hasPrefix path ["internal/harness/provider", "internal/provider", "internal/providers"] ||
      matchesExternalImport path modelProviderImportPrefixes modelProviderImportFamilyPrefixes

def engineTypedDataPortsOnly : BoundaryRule where
  name := str "engine-typed-data-ports-only"
  explanation := str ("the deterministic engine must use typed ports and cannot reach provisioning " ++
    "or direct database drivers")
  sourceMatches path := hasPrefix path ["cmd/engine", "internal/engine"]
  targetMatches path :=
    hasPrefix path ["infra", "internal/mothership"] || isDirectDriver path ||
      matchesExternalImport path awsProvisioningImportPrefixes [] ||
      matchesExternalImport path directDatabaseDriverImportPrefixes []

def qualitySanitizedInputOnly : BoundaryRule where
  name := str "quality-sanitized-input-only"
  explanation := str ("internal quality code may import only its own packages and the explicit " ++
    "sanitized-trajectory contract")
  sourceMatches path := hasPrefix path ["internal/quality"]
  targetMatches := isQualityForbiddenTarget

def qualityCompositionNoRestrictedState : BoundaryRule where
  name := str "quality-composition-no-restricted-state"
  explanation := str ("quality composition code cannot reach cell artifacts, evidence stores, " ++
    "persistence, or corridor drivers")
  sourceMatches path :=
    hasPrefix path ["cmd/agent-quality", "cmd/agent-eval", "cmd/bundle-activator", "evals"]
  targetMatches path := hasPrefix path
    ["internal/cell", "internal/cellidentity", "internal/corridors", "internal/evidence",
      "internal/persistence/cell", "internal/persistence/target"]

def contractsNoImplementation : BoundaryRule where
  name := str "contracts-no-implementation"
  explanation := str "contract packages cannot import implementation packages"
  sourceMatches path := hasPrefix path ["contracts", "internal/contracts"]
  targetMatches := isImplementationFromContracts

/-- `RULES` -/
def rules : List BoundaryRule :=
  [mothershipNarrowAuthority, harnessNoProvisioningOrDrivers, engineNoModelProvider,
    engineTypedDataPortsOnly, qualitySanitizedInputOnly, qualityCompositionNoRestrictedState,
    contractsNoImplementation]

end Rules

/-! ## The import graph -/

section Graph

structure ImportSite where
  source : Str
  target : Str
  sourceFile : Str
  line : ℕ
  ecosystem : Str
deriving DecidableEq

abbrev Graph := List (Str × List Str)

/-- `members.add(member)` -/
def add (members : List Str) (member : Str) : List Str :=
  if member ∈ members then members else members ++ [member]

/-- `graph.setdefault(source, set()).add(target)` -/
def addEdge (source target : Str) : Graph → Graph
  | [] => [(source, [target])]
  | (node, targets) :: graph =>
    if node = source then (node, add targets target) :: graph
    else (node, targets) :: addEdge source target graph

def importGraph (sites : List ImportSite) : Graph :=
  sites.foldl (fun graph site => addEdge site.source site.target graph) []

/-- `graph.get(node, set())` -/
def targetsOf (graph : Graph) (node : Str) : List Str := (graph.lookup node).getD []

/-- `set(graph) | {target for targets in graph.values() for target in targets}` -/
def nodesOf (graph : Graph) : List Str :=
  (graph.map Prod.fst ++ graph.flatMap Prod.snd).foldl add []

/-- `site_by_edge` -/
def siteByEdge (sites : List ImportSite) : List ((Str × Str) × ImportSite) :=
  sites.foldl (fun byEdge site =>
    if (site.source, site.target) ∈ byEdge.map Prod.fst then byEdge
    else byEdge ++ [((site.source, site.target), site)]) []

end Graph

/-! ## Shortest paths -/

section Search

structure Search where
  queue : List (List Str)
  visited : List Str
  paths : List (Str × List Str)

/-- The loop over the targets of the end of `path`. -/
def expand (path : List Str) : List Str → Search → Search
  | [], search => search
  | target :: targets, search =>
    if target ∈ search.visited then expand path targets search
    else
      let candidate := path ++ [target]
      expand path targets
        ⟨search.queue ++ [candidate], search.visited ++ [target],
          search.paths ++ [(target, candidate)]⟩

/-- The loop over the queue. A path is never empty. -/
def searchFrom (graph : Graph) : ℕ → Search → Option (List (Str × List Str))
  | 0, _ => none
  | fuel + 1, search =>
    match search.queue with
    | [] => some search.paths
    | path :: queue =>
      let targets := sorted (path.getLast?.elim [] (targetsOf graph))
      searchFrom graph fuel (expand path targets { search with queue := queue })

/-- `_shortest_paths` -/
def shortestPaths (graph : Graph) (start : Str) : Option (List (Str × List Str)) :=
  searchFrom graph ((nodesOf graph).length + 2) ⟨[[start]], [start], []⟩

end Search

/-! ## Violations -/

section Violations

structure Edge where
  source : Str
  line : ℕ
  sourceFile : Str
  target : Str
deriving DecidableEq

structure Violation where
  direct : Bool
  edges : List Edge
  explanation : Str
  line : ℕ
  path : List Str
  rule : Str
  source : Str
  sourceFile : Str
  target : Str
deriving DecidableEq

/-- An edge as `_boundary_violations` lists it. -/
def ImportSite.edge (site : ImportSite) : Edge :=
  ⟨site.source, site.line, site.sourceFile, site.target⟩

def violation (byEdge : List ((Str × Str) × ImportSite)) (rule : BoundaryRule) (source target : Str)
    (path : List Str) : Option Violation := do
  let pathSites ← (path.zip path.tail).mapM fun ends => byEdge.lookup ends
  let firstSite ← pathSites.head?
  pure ⟨path.length = 2, pathSites.map ImportSite.edge, rule.explanation, firstSite.line, path,
    rule.name, source, firstSite.sourceFile, target⟩

def violationsFrom (graph : Graph) (byEdge : List ((Str × Str) × ImportSite)) (rule : BoundaryRule)
    (source : Str) : Option (List Violation) := do
  let paths ← shortestPaths graph source
  ((sortedBy toLex paths).filter fun item => rule.targetMatches item.1).mapM fun item =>
    violation byEdge rule source item.1 item.2

def ruleViolations (graph : Graph) (byEdge : List ((Str × Str) × ImportSite))
    (rule : BoundaryRule) : Option (List Violation) := do
  let found ← ((sorted (nodesOf graph)).filter rule.sourceMatches).mapM
    (violationsFrom graph byEdge rule)
  pure found.flatten

def Violation.key (v : Violation) : Str ×ₗ Str ×ₗ Str ×ₗ List Str :=
  toLex (v.rule, toLex (v.source, toLex (v.target, v.path)))

/-- `_boundary_violations` -/
def boundaryViolations (sites : List ImportSite) : Option (List Violation) := do
  let graph := importGraph sites
  let found ← rules.mapM (ruleViolations graph (siteByEdge sites))
  pure (sortedBy Violation.key found.flatten)

end Violations

end Architecture
