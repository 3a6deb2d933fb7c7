import Jumpship.DependencyLocks.Integrity
import Jumpship.DependencyLocks.Journal
import Jumpship.Lib.Calendar
import Jumpship.Py.Equality
import Jumpship.Py.Order

/-!
# The checks of a dependency request

`request_errors` on the document it has read. `urlparse` of a string is left open, none where it raises
`ValueError`, and so are the text of a value that is not a string and the frames that the interpreter
has left.
-/

namespace DependencyLocks

open Py Pattern

/-- The exceptions that leave `request_errors`. -/
inductive RequestExc where
  | type
  | attribute
  | value
  | recursion
deriving DecidableEq

inductive RequestError where
  | unreadable
  | unexpectedProperty (key : Str)
  | missingProperty (key : Str)
  | text (message : String)
  | dependency (index : ℕ) (message : String)
  | secretFields (locations : List Codes)
deriving DecidableEq

/-- The parts of a URL that `_is_https` looks at. -/
structure ParsedUrl where
  scheme : Str
  hostname : Option Str
  username : Option Str
  password : Option Str
  query : Str
  fragment : Str

/-! ## Values -/

def strs (texts : List String) : List Str := texts.map str

/-- `d.get(key, default)` -/
def getOr (d : Dict) (key : String) (default : Value) : Value := (d.lookup (str key)).getD default

/-- `d.get(key)` -/
def getField (d : Dict) (key : String) : Value := getOr d key .null

/-- `key in d` -/
def hasField (d : Dict) (key : String) : Bool := (d.lookup (str key)).isSome

/-- `set(d) == keys` -/
def hasExactly (d : Dict) (keys : List String) : Bool :=
  d.all (fun m => m.1 ∈ strs keys) && keys.all (hasField d)

/-- The value is one of the strings. -/
def isOneOf (value : Value) (options : List Str) : Bool :=
  match value with
  | .str s => s ∈ options
  | _ => false

/-- `value in options`, a set of strings. -/
def memberOf (value : Value) (options : List Str) : Except RequestExc Bool :=
  if hashable value then pure (isOneOf value options) else throw .type

def isNonEmptyStr : Value → Bool
  | .str s => s.codes ≠ []
  | _ => false

/-- `isinstance(value, str) and value.strip()` -/
def isVisibleStr : Value → Bool
  | .str s => strip s.codes ≠ []
  | _ => false

def isBool : Value → Bool
  | .bool _ => true
  | _ => false

/-- `len(values) == len(set(values))` -/
def allDistinct {α : Type} (equal : α → α → Bool) : List α → Bool
  | [] => true
  | x :: xs => !xs.any (equal x) && allDistinct equal xs

def check (holds : Bool) (message : String) : List RequestError :=
  if holds then [] else [.text message]

/-! ## Strings -/

/-- `EXACT_VERSION_RE`: `v?[0-9]+(?:\.[0-9A-Za-z-]+)+(?:\+[0-9A-Za-z.-]+)?` -/
def exactVersionRe : RegularExpression ℕ :=
  let part := oneOf (codes "0123456789ABCDEFGHIJKLMNOPQRSTUVWXYZabcdefghijklmnopqrstuvwxyz-")
  let build := oneOf (codes "0123456789ABCDEFGHIJKLMNOPQRSTUVWXYZabcdefghijklmnopqrstuvwxyz.-")
  let dotted := literal "." * part * part.star
  (1 + literal "v") * digitClass * digitClass.star * dotted * dotted.star
    * (1 + literal "+" * build * build.star)

/-- `_exact_version` -/
def exactVersion : Value → Bool
  | .str s =>
    exactVersionRe.rmatch s.codes &&
      !(s.codes.map fun c => if 65 ≤ c ∧ c ≤ 90 then c + 32 else c).tails.any
        (codes "latest").isPrefixOf
  | _ => false

/-- `RFC3339_UTC_RE` -/
def timestampRe : RegularExpression ℕ :=
  digitClass ^ 4 * literal "-" * digitClass ^ 2 * literal "-" * digitClass ^ 2 * literal "T"
    * digitClass ^ 2 * literal ":" * digitClass ^ 2 * literal ":" * digitClass ^ 2 * literal "Z"

/-- `_utc_timestamp`, as the seconds since 1970. -/
def utcTimestamp : Value → Option ℤ
  | .str s =>
    if !timestampRe.rmatch s.codes then none
    else
      let field (start count : ℕ) : ℕ :=
        ((s.codes.drop start).take count).foldl (fun n c => 10 * n + (c - 48)) 0
      let year := field 0 4
      let month := field 5 2
      let day := field 8 2
      let hour := field 11 2
      let minute := field 14 2
      let second := field 17 2
      if year < 1 || month < 1 || 12 < month || day < 1 || Calendar.daysIn month year < day ||
          23 < hour || 59 < minute || 59 < second then
        none
      else some (((Calendar.dayNumber year month day * 24 + hour) * 60 + minute) * 60 + second)
  | _ => none

/-- `_integrity_value_valid` -/
def integrityValid (algorithm value : Value) : Bool :=
  match algorithm, value with
  | .str algorithm, .str value => integrityValueValid algorithm.codes value.codes
  | _, _ => false

/-- Letters of both cases are one under `(?i)`. -/
def foldCase (c : ℕ) : ℕ :=
  if 65 ≤ c ∧ c ≤ 90 then c + 32
  else if c = 0x130 ∨ c = 0x131 then 105
  else if c = 0x17F then 115
  else if c = 0x212A then 107
  else c

/-- `re.search(r"(?i)(password|private[_-]?key|secret|token|credential)", key)` -/
def namesSecret (key : Str) : Bool :=
  ["password", "privatekey", "private_key", "private-key", "secret", "token", "credential"].any
    fun w => (key.codes.map foldCase).tails.any (codes w).isPrefixOf

/-! ## _keys_containing_secrets -/

/-- Each call takes one of the frames left. -/
def keysContainingSecrets : ℕ → Codes → Value → Except RequestExc (List Codes)
  | 0, _, _ => throw .recursion
  | frames + 1, location, value =>
    match value with
    | .obj ms => do
      let findings ← ms.mapM fun (key, child) => do
        let inner ← keysContainingSecrets frames (location ++ 46 :: key.codes) child
        pure ((if namesSecret key then [location ++ 46 :: key.codes] else []) ++ inner)
      pure findings.flatten
    | .arr xs => do
      let findings ← xs.zipIdx.mapM fun (child, index) =>
        keysContainingSecrets frames (location ++ codes ("[" ++ toString index ++ "]")) child
      pure findings.flatten
    | _ => pure []

/-! ## request_errors -/

def requestLicenseAllowlist : List Str :=
  strs ["0BSD", "Apache-2.0", "BSD-2-Clause", "BSD-3-Clause", "CC-BY-4.0", "ISC", "LGPL-3.0-or-later",
    "MIT", "GPL-3.0-only", "LGPL-2.1-or-later", "MPL-2.0", "PostgreSQL", "BlueOak-1.0.0", "GPL-2.0-only",
    "GPL-2.0-or-later", "GPL-3.0-or-later", "LGPL-2.1-only", "LGPL-3.0-only", "Unicode-3.0"]

def requiredTop : List String :=
  ["schema_version", "request_id", "packet_id", "status", "created_at", "requested_by", "dependencies",
    "affected_lockfiles", "affected_builds", "risk", "validation_requirements"]

def allowedTop : List String := requiredTop ++ ["approval", "rejection_reason"]

section RequestErrors

variable (urlparse : Str → Option ParsedUrl)

/-- `_is_https`: a false value that is no string is parsed as the empty one, and any other has no
`decode`. -/
def isHttps : Value → Except RequestExc Bool
  | .str s =>
    match urlparse s with
    | some parsed =>
      pure (parsed.scheme = str "https" && parsed.hostname.any (·.codes ≠ []) &&
        parsed.username.all (·.codes = []) && parsed.password.all (·.codes = []) &&
        parsed.query.codes = [] && parsed.fragment.codes = [])
    | none => throw .value
  | value => if truthy value then throw .attribute else pure false

/-- The checks up to `created_at`. -/
def headErrors (text : Value → Str) (name : Str) (request : Dict) : List RequestError :=
  let packetId := getField request "packet_id"
  let requestId := getField request "request_id"
  let packetText :=
    match packetId with
    | .str s => s
    | value => text value
  ((sorted (request.map Prod.fst)).filter (· ∉ strs allowedTop)).map .unexpectedProperty
    ++ ((sorted (strs requiredTop)).filter fun key => (request.lookup key).isNone).map .missingProperty
    ++ check (fullmatch packetRe packetId) "packet_id must be P02..P28"
    ++ check (match requestId, packetId with
        | .str s, .str p => requestIdRe.rmatch s.codes && s.codes.take 3 = p.codes
        | _, _ => false) "request_id must be namespaced to packet_id"
    ++ check (name.codes = packetText.codes ++ codes ".yaml") "request filename must equal <packet_id>.yaml"
    ++ check (equal (getField request "schema_version") (int 1)) "schema_version must be 1"
    ++ check (isVisibleStr (getField request "requested_by")) "requested_by must be a non-empty string"
    ++ check (utcTimestamp (getField request "created_at")).isSome
        "created_at must be a real UTC RFC3339 timestamp with second precision"

def approvalErrors (createdAt : Option ℤ) : Value → List RequestError
  | .obj approval =>
    check (hasExactly approval ["decision_id", "approved_by", "approver_role", "approved_at"])
        "approval has missing or extra fields"
      ++ check (isOneOf (getField approval "approver_role") (strs ["p01-root-lock-steward"]))
        "approval role must be p01-root-lock-steward"
      ++ ["decision_id", "approved_by", "approved_at"].flatMap (fun key =>
        check (isNonEmptyStr (getField approval key)) ("approval " ++ key ++ " is required"))
      ++ match utcTimestamp (getField approval "approved_at") with
        | none => [.text "approval approved_at must be a real UTC RFC3339 timestamp"]
        | some approvedAt =>
          check (createdAt.all (· ≤ approvedAt)) "approval approved_at cannot precede created_at"
  | _ => [.text "accepted/applied request requires a real approval record"]

def statusErrors (request : Dict) : Except RequestExc (List RequestError) := do
  let status := getField request "status"
  let known ← memberOf status (strs ["proposed", "accepted", "rejected", "applied"])
  pure (check known "status is outside the closed lifecycle"
    ++ (if isOneOf status (strs ["proposed"]) then
        check (!hasField request "approval") "proposed request must not contain approval"
          ++ check (!hasField request "rejection_reason") "proposed request must not contain rejection_reason"
      else [])
    ++ (if isOneOf status (strs ["accepted", "applied"]) then
        approvalErrors (utcTimestamp (getField request "created_at")) (getField request "approval")
          ++ check (!hasField request "rejection_reason")
            "accepted/applied request must not contain rejection_reason"
      else [])
    ++ (if isOneOf status (strs ["rejected"]) then
        check (isVisibleStr (getField request "rejection_reason"))
            "rejected request requires a non-empty string rejection_reason"
          ++ check (!hasField request "approval") "rejected request must not contain approval"
      else []))

/-- The error of a dependency under its index. -/
def checkAt (index : ℕ) (holds : Bool) (message : String) : List RequestError :=
  if holds then [] else [.dependency index message]

def integrityErrors (index : ℕ) : Value → Except RequestExc (List RequestError)
  | .obj integrity =>
    if !hasExactly integrity ["algorithm", "value", "source_url"] then
      pure [.dependency index "integrity must contain exactly algorithm/value/source_url"]
    else do
      let supported ← memberOf (getField integrity "algorithm")
        (strs ["sha256", "sha512", "npm-sri", "go-sum", "oci-digest"])
      let https ← isHttps urlparse (getOr integrity "source_url" (.str (str "")))
      pure (checkAt index supported "integrity algorithm is unsupported"
        ++ checkAt index (integrityValid (getField integrity "algorithm") (getField integrity "value"))
          "integrity value does not match its algorithm"
        ++ checkAt index https "integrity source_url must be credential-free HTTPS")
  | _ => pure [.dependency index "integrity must contain exactly algorithm/value/source_url"]

/-- One round of the loop over the dependencies: its errors, and the identity it adds. -/
def dependencyErrors (index : ℕ) :
    Value → Except RequestExc (List RequestError × List (Value × Value))
  | .obj dependency => do
    let ecosystem ← memberOf (getField dependency "ecosystem") (strs ["go", "pnpm", "tool"])
    let license ← memberOf (getField dependency "license") requestLicenseAllowlist
    let https ← isHttps urlparse (getOr dependency "source_url" (.str (str "")))
    let integrity ← integrityErrors urlparse index (getField dependency "integrity")
    let purpose :=
      match getField dependency "purpose" with
      | .str s => decide (8 ≤ s.length)
      | _ => false
    pure (checkAt index (hasExactly dependency ["ecosystem", "name", "version", "license", "purpose",
          "source_url", "integrity", "direct_runtime_dependency"]) "has missing or extra fields"
        ++ checkAt index ecosystem "has unknown ecosystem"
        ++ checkAt index (isNonEmptyStr (getField dependency "name")) "name is required"
        ++ checkAt index (exactVersion (getField dependency "version"))
          "version must be exact and non-floating"
        ++ checkAt index license "license is not a reviewed SPDX identifier"
        ++ checkAt index purpose "purpose is required"
        ++ checkAt index https "source_url must be credential-free HTTPS"
        ++ checkAt index (isBool (getField dependency "direct_runtime_dependency"))
          "direct_runtime_dependency must be boolean"
        ++ integrity,
      [(getField dependency "ecosystem", getField dependency "name")])
  | _ => pure ([.dependency index "must be an object"], [])

def dependenciesErrors : Value → Except RequestExc (List RequestError)
  | .arr (dependency :: dependencies) => do
    let found ← (dependency :: dependencies).zipIdx.mapM fun (d, index) =>
      dependencyErrors urlparse index d
    let identities := found.flatMap Prod.snd
    if identities.any fun identity => !hashable identity.1 || !hashable identity.2 then throw .type
    else
      pure (found.flatMap Prod.fst
        ++ check (allDistinct (fun x y => same x.1 y.1 && same x.2 y.2) identities)
          "dependency ecosystem/name identities must be unique")
  | _ => pure [.text "dependencies must be a non-empty array"]

def lockfilesErrors : Value → Except RequestExc (List RequestError)
  | .arr (path :: paths) =>
    if (path :: paths).any fun item => !hashable item then throw .type
    else if !(path :: paths).all fun item => isOneOf item lockPaths then
      pure [.text "affected_lockfiles must be a non-empty subset of root lock paths"]
    else pure (check (allDistinct same (path :: paths)) "affected_lockfiles must be unique")
  | _ => pure [.text "affected_lockfiles must be a non-empty subset of root lock paths"]

def buildsErrors : Value → List RequestError
  | .arr (build :: builds) =>
    if !(build :: builds).all isVisibleStr then [.text "affected_builds must contain non-empty strings"]
    else check (allDistinct same (build :: builds)) "affected_builds must be unique"
  | _ => [.text "affected_builds must contain non-empty strings"]

def requirementsErrors : Value → Except RequestExc (List RequestError)
  | .arr [x, y, z] =>
    let options := strs ["license", "vulnerability", "clean-clone"]
    if [x, y, z].any fun item => !hashable item then throw .type
    else
      pure (check ([x, y, z].all (isOneOf · options) &&
          options.all fun option => [x, y, z].any (isOneOf · [option]))
        "validation_requirements must contain license, vulnerability, and clean-clone")
  | _ => pure [.text "validation_requirements must contain license, vulnerability, and clean-clone"]

def riskErrors : Value → Except RequestExc (List RequestError)
  | .obj risk =>
    if !hasExactly risk ["security_sensitive", "data_boundary_impact", "justification"] then
      pure [.text "risk must contain exactly security_sensitive/data_boundary_impact/justification"]
    else do
      let impact ← memberOf (getField risk "data_boundary_impact") (strs ["none", "review-required"])
      let justified :=
        match getField risk "justification" with
        | .str s => decide (8 ≤ (strip s.codes).length)
        | _ => false
      pure (check (isBool (getField risk "security_sensitive")) "risk security_sensitive must be boolean"
        ++ check impact "risk data_boundary_impact is invalid"
        ++ check justified "risk justification must contain at least 8 characters")
  | _ => pure [.text "risk must contain exactly security_sensitive/data_boundary_impact/justification"]

def secretErrors (frames : ℕ) (request : Dict) : Except RequestExc (List RequestError) := do
  let secretKeys ← keysContainingSecrets frames (codes "$") (.obj request)
  pure (if secretKeys = [] then [] else [.secretFields secretKeys])

/-- `request_errors` of a file of this name, none standing for one that cannot be read or parsed. -/
def documentErrors (frames : ℕ) (text : Value → Str) (name : Str) :
    Option Value → Except RequestExc (List RequestError)
  | none => pure [.unreadable]
  | some (.obj request) => do
    let status ← statusErrors request
    let dependencies ← dependenciesErrors urlparse (getField request "dependencies")
    let lockfiles ← lockfilesErrors (getField request "affected_lockfiles")
    let requirements ← requirementsErrors (getField request "validation_requirements")
    let risk ← riskErrors (getField request "risk")
    let secrets ← secretErrors frames request
    pure (headErrors text name request ++ status ++ dependencies ++ lockfiles
      ++ buildsErrors (getField request "affected_builds") ++ requirements ++ risk ++ secrets)
  | some _ => pure [.text "request must be an object"]

end RequestErrors

end DependencyLocks
