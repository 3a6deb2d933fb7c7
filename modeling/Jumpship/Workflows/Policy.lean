import Jumpship.Py.Json
import Jumpship.Py.Text

/-!
# The workflow policy

`validate_common_workflow` and what it calls. A check answers the problems it adds to the list of
errors. `str` of a value that is not a string, the letters and digits outside of ASCII that `re`
and `int` take for such, are the runtime's.
-/

namespace Workflows

open Py

/-! ## The policy -/

def checkoutSha : String := "11bd71901bbe5b1630ceea73d27597364c9af683"

def cacheSha : String := "5a3ec84eff668545956fd18022155c47e93e2684"

def uploadSha : String := "ea165f8d65b6e75b540449e92b4886f43607fa02"

/-- The code points of a text. -/
def codes (s : String) : List ℕ := s.toList.map Char.toNat

def pinnedActions : List (List ℕ × List ℕ) :=
  [(codes "actions/checkout", codes checkoutSha),
    (codes "actions/cache", codes cacheSha),
    (codes "actions/upload-artifact", codes uploadSha)]

def setupAction : String := "./.github/actions/setup-repository"

def checkoutAction : String := "actions/checkout@11bd71901bbe5b1630ceea73d27597364c9af683"

def uploadAction : String := "actions/upload-artifact@ea165f8d65b6e75b540449e92b4886f43607fa02"

structure Policy where
  triggers : List String
  retention : List ℤ
  targets : List String

def expectedWorkflows : List (String × Policy) :=
  [("ci-pr.yml", ⟨["pull_request", "workflow_dispatch"], [7],
      ["doctor", "docs-check", "capability-check", "command-check", "packet-graph-check",
        "gen-check", "fmt", "lint", "architecture-check", "test-unit", "test-contracts",
        "test-security", "tofu-fmt-check", "tofu-validate", "tofu-policy-test"]⟩),
    ("ci-merge.yml", ⟨["push", "schedule", "workflow_dispatch"], [14], ["verify"]⟩),
    ("ci-images.yml", ⟨["pull_request", "push", "workflow_dispatch"], [30],
      ["build-images", "image-scan", "sbom", "image-verify-signature", "supply-chain-verify"]⟩),
    ("ci-infra.yml", ⟨["workflow_dispatch"], [1],
      ["deployment-profile-validate", "tofu-fmt-check", "tofu-validate", "tofu-policy-test",
        "tofu-plan"]⟩),
    ("quality-evals.yml", ⟨["push", "schedule", "workflow_dispatch"], [14],
      ["eval-validate", "eval-unit", "eval-sanitize", "eval-run"]⟩),
    ("test-browser.yml", ⟨["pull_request", "push", "workflow_dispatch"], [7],
      ["web-test-e2e", "web-test-a11y", "web-test-visual"]⟩),
    ("test-chaos.yml", ⟨["schedule", "workflow_dispatch"], [14], ["test-chaos"]⟩),
    ("release-qualify.yml", ⟨["workflow_dispatch"], [30], ["release-qualify"]⟩)]

def forbiddenWorkflowText : List String :=
  ["pull_request_target", "AWS_ACCESS_KEY_ID", "AWS_SECRET_ACCESS_KEY", "AWS_SESSION_TOKEN",
    "AWS_SHARED_CREDENTIALS_FILE", "secrets.", "tofu-apply", "deploy-production",
    "smoke-production", "aws-actions/configure-aws-credentials", "curl ", "wget "]

/-! ## Problems -/

inductive Location where
  | workflow
  | topLevel
  | job (name : Str)
  | step (job : Str) (index : ℕ)
  | artifact (job : Str) (name : Value)

inductive Reason where
  | usesNotString
  | localAction (uses : Str)
  | notPinned (uses : Str)
  | notApproved (action : List ℕ)
  | unexpectedSha (action sha expected : List ℕ)
  | noPermissions
  | permissionKeys (unexpected : List Str)
  | contents
  | idToken
  | notAlways
  | noInputs
  | artifactName
  | artifactPath
  | hiddenFiles
  | missingFiles
  | retentionDays
  | noUpload
  | retention (observed expected : List ℤ)
  | noName
  | noTriggers
  | triggers (found expected : List Str)
  | noConcurrency
  | group
  | cancel
  | noJobs
  | jobNotMapping
  | runner
  | timeout
  | noSteps
  | stepNotMapping
  | credentials
  | noSummary
  | noSetup
  | controlPlane
  | noGateRunner
  | noTarget (target : List ℕ)
  | forbidden (text : String)

structure Problem where
  location : Location
  reason : Reason

abbrev Problems := List Problem

/-- `if test: errors.append(...)` -/
def problem (test : Bool) (location : Location) (reason : Reason) : Problems :=
  if test then [⟨location, reason⟩] else []

/-- What is raised and not caught. -/
inductive Exc where
  | attribute
  | overflow
deriving DecidableEq

/-! ## Values -/

/-- `d.get(key)` -/
def get (d : Dict) (key : String) : Value := (d.lookup (str key)).getD .null

/-- `key in d` -/
def has (d : Dict) (key : String) : Bool := (d.lookup (str key)).isSome

/-- `v == s` -/
def isText (s : String) : Value → Bool
  | .str t => t = str s
  | _ => false

/-- `part in s` -/
def contains (part s : List ℕ) : Bool := s.tails.any part.isPrefixOf

structure Runtime where
  repr : Value → List ℕ
  isWord : ℕ → Bool
  decimal : ℕ → Option ℕ

section Runtime

variable (rt : Runtime)

/-- `str(v)` -/
def Runtime.text : Value → List ℕ
  | .str s => s.codes
  | v => rt.repr v

def Runtime.digit? (c : ℕ) : Option ℕ :=
  if 0x30 ≤ c ∧ c ≤ 0x39 then some (c - 0x30) else if c < 0x80 then none else rt.decimal c

/-- The digits of an integer, one underscore between two of them at most. -/
def Runtime.digits? (s : List ℕ) : Option (List ℕ) :=
  let parts := Py.splitOn 0x5F s
  if parts.contains [] then none else parts.flatten.mapM rt.digit?

def Runtime.intOfText (s : List ℕ) : Option ℤ :=
  let value (ds : List ℕ) : ℤ := ds.foldl (fun n d => 10 * n + d) (0 : ℕ)
  match Py.strip s with
  | 0x2B :: t => (rt.digits? t).map value
  | 0x2D :: t => (rt.digits? t).map fun ds => -value ds
  | t => (rt.digits? t).map value

/-- `int(v)`, none where it raises a `TypeError` or a `ValueError`. -/
def Runtime.int : Value → Except Exc (Option ℤ)
  | .bool b => .ok (some b.toNat)
  | .num (.int n) => .ok (some n)
  | .num (.float (.finite x)) => .ok (some (if 0 ≤ x.value then ⌊x.value⌋ else ⌈x.value⌉))
  | .num (.float .negZero) => .ok (some 0)
  | .num (.float (.inf _)) => .error .overflow
  | .str s => .ok (rt.intOfText s.codes)
  | _ => .ok none

/-! ## Steps -/

def stepsOf (job : Str × Value) : List (Str × Dict) :=
  match job.2 with
  | .obj ms =>
    match (ms.lookup (str "steps")).getD (.arr []) with
    | .arr steps => steps.filterMap fun step =>
      match step with
      | .obj s => some (job.1, s)
      | _ => none
    | _ => []
  | _ => []

/-- `iter_steps` -/
def iterSteps (document : Dict) : List (Str × Dict) :=
  match (document.lookup (str "jobs")).getD (.obj []) with
  | .obj jobs => jobs.flatMap stepsOf
  | _ => []

/-- `str(step.get("run", ""))` -/
def Runtime.run (step : Dict) : List ℕ := rt.text ((step.lookup (str "run")).getD (.str (str "")))

def Runtime.runText (document : Dict) : List ℕ :=
  Py.join 0x0A (((iterSteps document).filter fun s => has s.2 "run").map fun s => rt.run s.2)

/-! ## Actions and permissions -/

def isHex (c : ℕ) : Bool := (0x30 ≤ c && c ≤ 0x39) || (0x61 ≤ c && c ≤ 0x66)

/-- `EXTERNAL_ACTION_RE.fullmatch(uses)`: the two groups. -/
def externalAction? (uses : List ℕ) : Option (List ℕ × List ℕ) :=
  let (action, _, sha) := partition 0x40 uses
  let (owner, _, repository) := partition 0x2F action
  if owner ≠ [] ∧ repository ≠ [] ∧ 0x2F ∉ repository ∧ sha.length = 40 ∧ sha.all isHex = true then
    some (action, sha)
  else none

def validateActionReference (uses : Value) (location : Location) : Problems :=
  match uses with
  | .str s =>
    if s = str setupAction then []
    else if (str "./.github/actions/").startsWith s then [⟨location, .localAction s⟩]
    else
      match externalAction? s.codes with
      | none => [⟨location, .notPinned s⟩]
      | some (action, sha) =>
        match pinnedActions.lookup action with
        | none => [⟨location, .notApproved action⟩]
        | some expected => problem (sha ≠ expected) location (.unexpectedSha action sha expected)
  | _ => [⟨location, .usesNotString⟩]

def sortedNames (names : List Str) : List Str :=
  Json.names (Json.sortByName Layout.KeyLE (names.map fun name => (name, ())))

def validatePermissions (permissions : Value) (location : Location) (allowIdToken : Bool) :
    Problems :=
  match permissions with
  | .obj ms =>
    let allowed := str "contents" :: if allowIdToken then [str "id-token"] else []
    let unexpected := sortedNames ((Json.names ms).filter fun name => !allowed.contains name)
    problem (unexpected ≠ []) location (.permissionKeys unexpected) ++
      problem (!isText "read" (get ms "contents")) location .contents ++
      problem (has ms "id-token" && !isText "write" (get ms "id-token")) location .idToken
  | _ => [⟨location, .noPermissions⟩]

/-! ## Artifacts -/

structure Uploads where
  found : ℕ
  observed : List ℤ
  problems : Problems

def Uploads.add (u v : Uploads) : Uploads :=
  ⟨u.found + v.found, u.observed ++ v.observed, u.problems ++ v.problems⟩

/-- The body of the loop of `validate_artifacts`. -/
def Runtime.checkUpload (job : Str) (step : Dict) : Except Exc Uploads :=
  if !isText uploadAction (get step "uses") then .ok ⟨0, [], []⟩
  else
    let location := .artifact job ((step.lookup (str "name")).getD (.str (str "artifact")))
    let always := problem (!isText "${{ always() }}" (get step "if")) location .notAlways
    match get step "with" with
    | .obj inputs => do
      let name := rt.text ((inputs.lookup (str "name")).getD (.str (str "")))
      let path := rt.text ((inputs.lookup (str "path")).getD (.str (str "")))
      let problems := always ++
        problem (!contains (codes "${{ github.run_id }}") name ||
          !contains (codes "${{ github.run_attempt }}") name) location .artifactName ++
        problem (!(codes ".ci-artifacts/").isPrefixOf path) location .artifactPath ++
        problem (!isText "true" (get inputs "include-hidden-files")) location .hiddenFiles ++
        problem (!isText "error" (get inputs "if-no-files-found")) location .missingFiles
      match ← rt.int (get inputs "retention-days") with
      | none => .ok ⟨1, [], problems ++ [⟨location, .retentionDays⟩]⟩
      | some days => .ok ⟨1, [days], problems⟩
    | _ => .ok ⟨1, [], always ++ [⟨location, .noInputs⟩]⟩

def Runtime.validateArtifacts (document : Dict) (expected : List ℤ) : Except Exc Problems := do
  let uploads ← (iterSteps document).mapM fun s => rt.checkUpload s.1 s.2
  let total := uploads.foldl Uploads.add ⟨0, [], []⟩
  pure (total.problems ++ problem (total.found = 0) .workflow .noUpload ++
    problem (!(total.observed.all expected.contains && expected.all total.observed.contains))
      .workflow (.retention (total.observed.dedup.insertionSort (· ≤ ·)) expected))

/-! ## `FORBIDDEN_CONTROL_PLANE_RUN_RE` -/

/-- A letter of the pattern, whatever its case. -/
def sameLetter (letter c : ℕ) : Bool :=
  c = letter || c + 0x20 = letter ||
    (letter = 0x69 && (c = 0x130 || c = 0x131)) || (letter = 0x6B && c = 0x212A) ||
    (letter = 0x73 && c = 0x17F)

/-- What is left behind a word of the pattern. -/
def afterWord : List ℕ → List ℕ → Option (List ℕ)
  | [], s => some s
  | letter :: word, c :: s => if sameLetter letter c then afterWord word s else none
  | _ :: _, [] => none

/-- `\s+` -/
def afterSpace (s : List ℕ) : Option (List ℕ) :=
  if s.head?.any isSpaceCode then some (s.dropWhile isSpaceCode) else none

/-- `(?:aws|gcloud|kubectl)\s+` -/
def isCloudCommand (s : List ℕ) : Bool :=
  ["aws", "gcloud", "kubectl"].any fun word => ((afterWord (codes word) s).bind afterSpace).isSome

def Runtime.isWordCode (c : ℕ) : Bool :=
  (0x30 ≤ c && c ≤ 0x39) || (0x41 ≤ c && c ≤ 0x5A) || (0x61 ≤ c && c ≤ 0x7A) || c = 0x5F ||
    (0x80 ≤ c && rt.isWord c)

/-- `first\s+second\b` -/
def Runtime.isCommand (first second : String) (s : List ℕ) : Bool :=
  (((afterWord (codes first) s).bind afterSpace).bind (afterWord (codes second))).any fun rest =>
    !rest.head?.any rt.isWordCode

/-- A match from a place on, or from a later one; the code before it is none at the start. -/
def Runtime.controlPlaneFrom : Option ℕ → List ℕ → Bool
  | _, [] => false
  | before, c :: s =>
    (before.all (· = 0x0A) && isCloudCommand (c :: s)) ||
      ((c = 0x3B || c = 0x26 || c = 0x7C) && isCloudCommand (s.dropWhile isSpaceCode)) ||
      (!before.any rt.isWordCode && (rt.isCommand "terraform" "apply" (c :: s) ||
        rt.isCommand "tofu" "apply" (c :: s) || rt.isCommand "docker" "login" (c :: s))) ||
      Runtime.controlPlaneFrom (some c) s

def Runtime.controlPlane (s : List ℕ) : Bool := rt.controlPlaneFrom none s

/-! ## `validate_common_workflow` -/

/-- What the loop over the jobs has seen. -/
structure Scan where
  problems : Problems
  summaryFound : Bool
  setupFound : Bool

def Scan.add (u v : Scan) : Scan :=
  ⟨u.problems ++ v.problems, u.summaryFound || v.summaryFound, u.setupFound || v.setupFound⟩

/-- The inputs of the checkout action. -/
def checkCredentials (uses : Value) (step : Dict) (location : Location) : Except Exc Problems :=
  if isText checkoutAction uses then
    match (step.lookup (str "with")).getD (.obj []) with
    | .obj inputs =>
      .ok (problem (!isText "false" (get inputs "persist-credentials")) location .credentials)
    | _ => .error .attribute
  else .ok []

def Runtime.checkStep (job : Str) (index : ℕ) (step : Value) : Except Exc Scan :=
  match step with
  | .obj s => do
    let location := .step job index
    let summary := contains (codes "GITHUB_STEP_SUMMARY") (rt.run s)
    match s.lookup (str "uses") with
    | none => .ok ⟨[], summary, false⟩
    | some uses => do
      let reference := validateActionReference uses location
      let credentials ← checkCredentials uses s location
      .ok ⟨reference ++ credentials, summary, isText setupAction uses⟩
  | _ => .ok ⟨[⟨.step job index, .stepNotMapping⟩], false, false⟩

/-- `isinstance(timeout, int) and 1 <= timeout <= 180` -/
def isTimeout : Value → Bool
  | .bool b => b
  | .num (.int n) => 1 ≤ n && n ≤ 180
  | _ => false

def Runtime.checkJob (workflow : String) (name : Str) (job : Value) : Except Exc Scan :=
  match job with
  | .obj ms => do
    let location := .job name
    let allowIdToken := workflow = "ci-infra.yml" && name = str "plan"
    let problems :=
      problem (!isText "ubuntu-24.04" (get ms "runs-on")) location .runner ++
        problem (!isTimeout (get ms "timeout-minutes")) location .timeout ++
        match ms.lookup (str "permissions") with
        | some permissions => validatePermissions permissions location allowIdToken
        | none => []
    match get ms "steps" with
    | .arr (step :: steps) => do
      let scans ← (step :: steps).zipIdx.mapM fun p => rt.checkStep name p.2 p.1
      .ok (scans.foldl Scan.add ⟨problems, false, false⟩)
    | _ => .ok ⟨problems ++ [⟨location, .noSteps⟩], false, false⟩
  | _ => .ok ⟨[⟨.job name, .jobNotMapping⟩], false, false⟩

/-- The checks before the jobs are looked at. -/
def checkHead (document : Dict) (policy : Policy) : Problems :=
  (match get document "name" with
    | .str name => problem (Py.strip name.codes = []) .workflow .noName
    | _ => [⟨.workflow, .noName⟩]) ++
  (match get document "on" with
    | .obj triggers =>
      let expected := policy.triggers.map str
      problem (!((Json.names triggers).all expected.contains &&
        expected.all (Json.names triggers).contains)) .workflow
        (.triggers (sortedNames (Json.names triggers)) (sortedNames expected))
    | _ => [⟨.workflow, .noTriggers⟩]) ++
  validatePermissions (get document "permissions") .topLevel false ++
  match get document "concurrency" with
  | .obj concurrency =>
    (match get concurrency "group" with
      | .str group => problem (!contains (codes "$\x7b\x7b") group.codes) .workflow .group
      | _ => [⟨.workflow, .group⟩]) ++
    match get concurrency "cancel-in-progress" with
    | .bool _ | .str _ => []
    | _ => [⟨.workflow, .cancel⟩]
  | _ => [⟨.workflow, .noConcurrency⟩]

/-- `json.dumps(document, sort_keys=True)` -/
def rawText (document : Dict) : List Char :=
  dumps ⟨none, [',', ' '], [':', ' '], true⟩ (.obj document)

/-- The checks of the texts of the whole workflow. -/
def Runtime.checkTexts (document : Dict) (policy : Policy) : Except Exc Problems := do
  let combinedRun := rt.runText document
  let artifacts ← rt.validateArtifacts document policy.retention
  let raw := rawText document
  .ok (problem (rt.controlPlane combinedRun) .workflow .controlPlane ++
    problem (!contains (codes "scripts/ci/run_gate.py") combinedRun) .workflow .noGateRunner ++
    ((policy.targets.map codes).insertionSort (· ≤ ·)).flatMap (fun target =>
      problem (!contains (codes "--target " ++ target) combinedRun) .workflow
        (.noTarget target)) ++
    artifacts ++
    forbiddenWorkflowText.flatMap fun forbidden =>
      problem (raw.tails.any forbidden.toList.isPrefixOf) .workflow (.forbidden forbidden))

def Runtime.validateCommonWorkflow (name : String) (document : Dict) (policy : Policy) :
    Except Exc Problems :=
  match get document "jobs" with
  | .obj (job :: jobs) => do
    let scans ← (job :: jobs).mapM fun j => rt.checkJob name j.1 j.2
    let total := scans.foldl Scan.add ⟨[], false, false⟩
    let texts ← rt.checkTexts document policy
    .ok (checkHead document policy ++ total.problems ++
      problem (!total.summaryFound) .workflow .noSummary ++
      problem (!total.setupFound && name ≠ "ci-merge.yml") .workflow .noSetup ++ texts)
  | _ => .ok (checkHead document policy ++ [⟨.workflow, .noJobs⟩])

end Runtime

end Workflows
