import Jumpship.Lib.Expressions
import Jumpship.Lib.Shell
import Jumpship.Workflows.Policy

/-!
# What a workflow means

The steps a workflow runs, the permissions it grants, the expressions the runner evaluates and the
words its run texts pass. A workflow is sound (`Sound`) where these stay within the policy: nothing
here is the policy's code but the table of the pinned actions.
-/

namespace Workflows

open Expressions Py Shell

/-! ## Jobs and steps -/

def IsJob (document : Dict) (name : Str) (job : Dict) : Prop :=
  ∃ jobs, get document "jobs" = .obj jobs ∧ (name, .obj job) ∈ jobs

def IsStep (document step : Dict) : Prop :=
  ∃ name job steps, IsJob document name job ∧ get job "steps" = .arr steps ∧ .obj step ∈ steps

/-- The local action, or an action of the table at its commit. -/
def Allowed (uses : Value) : Prop :=
  uses = .str (str setupAction) ∨
    ∃ s action sha, uses = .str s ∧ (action, sha) ∈ pinnedActions ∧ s.codes = action ++ 0x40 :: sha

/-- The case of an action's letters does not matter. -/
def IsCheckout (uses : Value) : Prop :=
  ∃ s, uses = .str s ∧ codes "actions/checkout@" <+: s.codes.map lower

/-! ## Permissions -/

/-- What is no mapping, or is not there, may grant anything. -/
def Grants (permissions : Value) (scope : Str) (access : Value) : Prop :=
  ∀ ms, permissions = .obj ms → ms.lookup scope = some access

/-! ## Expressions -/

mutual
/-- The strings of a value, the names of members too. -/
def strings : Value → List Str
  | .null | .bool _ | .num _ => []
  | .str s => [s]
  | .arr xs => stringsList xs
  | .obj ms => stringsMembers ms
def stringsList : List Value → List Str
  | [] => []
  | x :: xs => strings x ++ stringsList xs
def stringsMembers : List (Str × Value) → List Str
  | [] => []
  | (k, x) :: ms => k :: (strings x ++ stringsMembers ms)
end

/-- An expression in a string, or the condition of a job or a step: it is one as it stands. -/
inductive IsExpression (document : Dict) : List ℕ → Prop
  | embedded {s : Str} {e : List ℕ} (hs : s ∈ strings (.obj document)) (he : e ∈ embedded s.codes) :
    IsExpression document e
  | job {name : Str} {job : Dict} {s : Str} (hjob : IsJob document name job)
    (hs : get job "if" = .str s) : IsExpression document s.codes
  | step {step : Dict} {s : Str} (hstep : IsStep document step) (hs : get step "if" = .str s) :
    IsExpression document s.codes

/-! ## Arguments -/

/-- The text passes the word as the value of `--target`, which is the next word or stands behind an
equals sign. -/
def Passes (run target : List ℕ) : Prop :=
  HasWords run [codes "--target", target] ∨ HasWords run [codes "--target=" ++ target]

/-! ## Soundness -/

/-- A workflow that stays within the policy. -/
structure Sound (name : String) (document : Dict) (policy : Policy) : Prop where
  uses : ∀ step uses, IsStep document step → step.lookup (str "uses") = some uses → Allowed uses
  credentials : ∀ step uses, IsStep document step → step.lookup (str "uses") = some uses →
    IsCheckout uses →
      ∃ inputs, get step "with" = .obj inputs ∧ get inputs "persist-credentials" = .str (str "false")
  permissions : ∀ scope access, Grants (get document "permissions") scope access →
    scope = str "contents" ∧ access = .str (str "read")
  jobPermissions : ∀ job ms permissions scope access, IsJob document job ms →
    ms.lookup (str "permissions") = some permissions → Grants permissions scope access →
      (scope = str "contents" ∧ access = .str (str "read")) ∨
        (name = "ci-infra.yml" ∧ job = str "plan" ∧ scope = str "id-token")
  secrets : ∀ e, IsExpression document e → ¬ Reads e (codes "secrets")
  targets : ∀ target ∈ policy.targets, ∃ step s, IsStep document step ∧ get step "run" = .str s ∧
    Passes s.codes (codes target)

/-! ## Where the tests of texts see what they are for -/

/-- The name of the context as the forbidden text has it, before a dot. -/
def IsDotted (m : List ℕ × List ℕ) : Prop := m.1 = codes "secrets" ∧ m.2.head? = some 0x2E

/-- The text the test looks for stands between words and up to the end of one. -/
def Whole (run target : List ℕ) : Prop :=
  ∃ a c, run = a ++ (codes "--target " ++ target ++ c) ∧ after .between a = .between ∧ EndsWord c

/-- Another text for the argument: with an equals sign, quotes or backslashes, other blanks. -/
def Respelled (run target : List ℕ) : Prop :=
  ∃ a b c, run = a ++ (b ++ c) ∧ b ≠ codes "--target " ++ target ∧ after .between a = .between ∧
    (Spells b [codes "--target"] target ∨ Spells b [] (codes "--target=" ++ target)) ∧ EndsWord c

/-- The context of the secrets has its name before a dot wherever it is read, and the argument of a
target is a whole one or has another text. -/
structure Legible (document : Dict) (policy : Policy) : Prop where
  secrets : ∀ e, IsExpression document e → ∀ m ∈ contexts e, m.1.map lower = codes "secrets" →
    IsDotted m
  targets : ∀ target ∈ policy.targets, ∃ step s, IsStep document step ∧ get step "run" = .str s ∧
    (Whole s.codes (codes target) ∨ Respelled s.codes (codes target))

end Workflows
