import Jumpship.Lib.Processes
import Jumpship.Lib.Pattern
import Jumpship.Lib.Sha256
import Jumpship.Lib.Hex
import Jumpship.Py.Json
import Jumpship.Py.Text

/-!
# The journal of apply-request

`apply_request` and what it calls, as a process over the files it shares with other executions. A
path is its components. An operation stands for one system call or one run of another program; what
it answers beyond the files modelled is left open, and each can raise. The texts of errors are left
out.
-/

namespace DependencyLocks

open Py Processes Pattern

abbrev Bytes := List UInt8

abbrev Path := List Str

/-! ## Files -/

inductive Node where
  | file (content : Bytes) (links : ℕ)
  | directory
  | symlink

inductive Exc where
  | lock
  | toolLock
  | fileExists
  | fileNotFound
  | os
  | value
  | key
  | type
deriving DecidableEq

/-- The subclasses of `OSError`. -/
def Exc.isOs (e : Exc) : Bool := e = .fileExists || e = .fileNotFound || e = .os

inductive Op where
  | lstat (path : Path)
  | isSymlink (path : Path)
  | isFile (path : Path)
  | exists (path : Path)
  | resolve (path : Path)
  | readBytes (path : Path)
  | assertSafeMutablePaths (paths : List Path)
  | mkdir (path : Path)
  | openDirectory (path : Path)
  | createExclusive (path : Path)
  | fstat
  | write (data : Bytes)
  | fsync
  | close
  | replace (source target : Path)
  | unlink (path : Path)
  | git (args : List Str)
  | gitShow (commit path : Str)
  | toolLock
  | toolUnlock
  | flock
  | funlock
  | utcnow
  | receiptValidationErrors (request : Value)
  | runDependencyValidations (commit : Str) (request : Value)

/-- `git` answers its return code and standard output, `write` how much of the data it has
written. -/
def Answer : Op → Type
  | .lstat _ | .fstat => Node
  | .isSymlink _ | .isFile _ | .exists _ => Bool
  | .resolve _ => Path
  | .readBytes _ => Bytes
  | .write _ => ℕ
  | .git _ => ℤ × Str
  | .gitShow _ _ => Option Bytes
  | .utcnow => Str
  | .receiptValidationErrors _ => List Str
  | .runDependencyValidations _ _ => Value
  | _ => Unit

def signature : Signature := ⟨Op, Answer⟩

abbrev Proc (α : Type) := Process signature Exc α

def sys (op : Op) : Proc (Answer op) := .perform (S := signature) op

def isSymlink (path : Path) : Proc Bool := sys (.isSymlink path)

def isFile (path : Path) : Proc Bool := sys (.isFile path)

def exists_ (path : Path) : Proc Bool := sys (.exists path)

def raise {α : Type} (e : Exc) : Proc α := .raise e

def require (condition : Bool) : Proc Unit := if condition then pure () else raise .lock

/-- `for x in xs: body(x)` -/
def forEach {α : Type} (body : α → Proc Unit) : List α → Proc Unit
  | [] => pure ()
  | x :: xs => do
    body x
    forEach body xs

/-! ## Values -/

def text (s : String) : Value := .str (str s)

/-- `request.get(key)` -/
def get (value : Value) (key : String) : Proc Value :=
  match value with
  | .obj d => pure ((d.lookup (str key)).getD .null)
  | _ => raise .type

/-- `request[key]` -/
def item (value : Value) (key : String) : Proc Value :=
  match value with
  | .obj d =>
    match d.lookup (str key) with
    | some v => pure v
    | none => raise .key
  | _ => raise .type

/-- `request[key]` as a part of a path. -/
def itemStr (value : Value) (key : String) : Proc Str := do
  match ← item value key with
  | .str s => pure s
  | _ => raise .type

/-- Whether a value is equal to this string. -/
def isStr (s : String) : Value → Bool
  | .str t => t = str s
  | _ => false

def canonicalBytes (value : Value) : Bytes := Unicode.utf8 (dumps .pretty value ++ ['\n'])

def digestBytes (value : Bytes) : Str :=
  str (String.ofList (Hex.encodeToString (Sha256.sha256 value)))

/-- The value of a file. `read_text` turns a carriage return into a newline; JSON has both as
whitespace alone. -/
def loadBytes (bytes : Bytes) : Option Value := (Unicode.utf8Decode bytes).bind loads

/-! ## Paths -/

def parent (path : Path) : Path := path.dropLast

def name (path : Path) : Str := path.getLastD (str "")

def withName (path : Path) (name : Str) : Path := path.dropLast ++ [name]

/-- `f"{left}{right}"` -/
def append (left right : Str) : Str := .ofCodes (left.codes ++ right.codes)

/-- `path.relative_to(root)` -/
def relativeTo (root path : Path) : Option Path :=
  if root.isPrefixOf path then some (path.drop root.length) else none

def asPosix (path : Path) : Str := .ofCodes (join '/'.toNat (path.map Str.codes))

/-- `root / relative` for a relative path written with slashes. -/
def joinPath (root : Path) (relative : Str) : Path :=
  root ++ (splitOn '/'.toNat relative.codes).map .ofCodes

def canonicalReceiptPath (root : Path) (request : Value) : Proc Path := do
  let packet ← itemStr request "packet_id"
  let id ← itemStr request "request_id"
  pure (root ++ ["delivery", "mvp", "evidence"].map str ++ [packet, str "dependency-locks",
    append id (str ".json")])

def toolsRoot (root : Path) : Path := root ++ ["build", "tools"].map str

def manifestPath (root : Path) : Path := root ++ ["tools", "manifest.yaml"].map str

/-! ## Reading -/

def digestFile (path : Path) : Proc Str := do
  let bytes ← sys (.readBytes path)
  pure (digestBytes bytes)

def loadJsonYaml (path : Path) : Proc Value := do
  let bytes ← (sys (.readBytes path)).except_ fun e => raise (if e.isOs then .lock else e)
  match loadBytes bytes with
  | some value => pure value
  | none => raise .lock

def safeApplyPaths (paths : List Path) : Proc Unit :=
  (sys (.assertSafeMutablePaths paths)).except_ fun e =>
    raise (if e = .toolLock then .lock else e)

def isPrivateRegular : Node → Bool
  | .file _ links => links = 1
  | _ => false

def privateRegularFile (path : Path) : Proc Unit := do
  let node ← (sys (.lstat path)).except_ fun e => raise (if e.isOs then .lock else e)
  require (isPrivateRegular node)

def preflightApplyJournalPaths (requestPath : Path) (receiptPath : Option Path) : Proc Unit := do
  let receiptPaths := receiptPath.toList.flatMap fun path => [parent path, path]
  safeApplyPaths ([parent requestPath, requestPath] ++ receiptPaths)
  privateRegularFile requestPath

/-! ## Requests -/

section Requests

def digitClass : RegularExpression ℕ := oneOf ("0123456789".toList.map Char.toNat)

def lowerClass : RegularExpression ℕ :=
  oneOf ("abcdefghijklmnopqrstuvwxyz0123456789".toList.map Char.toNat)

def literal (s : String) : RegularExpression ℕ := word (s.toList.map Char.toNat)

/-- `PACKET_RE`: `P(?:0[2-9]|1[0-9]|2[0-8])` -/
def packetRe : RegularExpression ℕ :=
  literal "P" * (literal "0" * oneOf ("23456789".toList.map Char.toNat) + literal "1" * digitClass
    + literal "2" * oneOf ("012345678".toList.map Char.toNat))

/-- `REQUEST_ID_RE`: `(P[0-9]{2})-dep-[a-z0-9]+(?:-[a-z0-9]+)*` -/
def requestIdRe : RegularExpression ℕ :=
  literal "P" * digitClass * digitClass * literal "-dep-" * lowerClass * lowerClass.star
    * (literal "-" * lowerClass * lowerClass.star).star

/-- Whether the value is a string the whole of which matches. -/
def fullmatch (re : RegularExpression ℕ) : Value → Bool
  | .str s => re.rmatch s.codes
  | _ => false

-- What `request_errors` finds in a request of this file name.
variable (fieldErrors : Str → Value → List Str)

/-- `request_errors` -/
def requestErrors (path : Path) : Proc (List Str) :=
  (do
    let request ← loadJsonYaml path
    pure (fieldErrors (name path) request)).except_ fun e =>
      if e = Exc.lock then pure [str "cannot parse"] else raise e

def pathPresent (path : Path) : Proc Bool := do
  if ← exists_ path then pure true else isSymlink path

/-- `_request_lifecycle_errors`; a list of one stands for its one message. -/
def requestLifecycleErrors (root : Path) (request : Value) : Proc (List Str) := do
  let packet ← get request "packet_id"
  let id ← get request "request_id"
  if !fullmatch packetRe packet || !fullmatch requestIdRe id then pure []
  else do
    let receiptPath ← canonicalReceiptPath root request
    let receiptExists ← pathPresent receiptPath
    let status ← get request "status"
    if isStr "accepted" status && receiptExists then pure [str "incomplete"]
    else if !hashable status then raise .type
    else if (isStr "proposed" status || isStr "rejected" status) && receiptExists then
      pure [str "unexpected"]
    else if isStr "applied" status then
      if !receiptExists then pure [str "missing"]
      else sys (.receiptValidationErrors request)
    else pure []

def validateRequest (root path : Path) : Proc Value := do
  let symlink ← isSymlink path
  require !symlink
  let resolved ← sys (.resolve path)
  let resolvedRoot ← sys (.resolve root)
  match relativeTo resolvedRoot resolved with
  | none => raise .lock
  | some relative => do
    require (parent relative = ["dependency", "requests"].map str)
    let errors ← requestErrors fieldErrors path
    let request ← loadJsonYaml path
    let lifecycle ← if errors = [] then requestLifecycleErrors root request else pure []
    require (errors = [] && lifecycle = [])
    pure request

end Requests

/-! ## git -/

section Git

/-- `_git` -/
def git (args : List String) : Proc Str := do
  let result ← sys (.git (args.map str))
  if result.1 ≠ 0 then raise .lock else pure result.2

def stripped (args : List String) : Proc Str := do
  let output ← git args
  pure (.ofCodes (strip output.codes))

/-- `_parse_status_z` -/
def parseStatusZ (output : Str) : Proc (List Str) :=
  let entries := (splitOn 0 output.codes).filter fun entry => entry ≠ []
  let refused := fun entry : List ℕ => 'R'.toNat ∈ entry.take 2 || 'C'.toNat ∈ entry.take 2
  if entries.any refused then raise .lock
  else pure (entries.map fun entry => .ofCodes (entry.drop 3))

def statusPaths : Proc (List Str) := do
  let output ← git ["status", "--porcelain=v1", "--untracked-files=all", "-z"]
  parseStatusZ output

def commitBytes (commit path : Str) : Proc (Option Bytes) := sys (.gitShow commit path)

/-- `_parse_diff_name_status_z`: the changed paths and the letters of their changes. -/
def parseDiffNameStatusZ : List (List ℕ) → List (Str × ℕ) → Proc (List (Str × ℕ))
  | [], changes => pure changes
  | [] :: entries, changes => parseDiffNameStatusZ entries changes
  | (_ :: _) :: [], _ => raise .lock
  | (code :: _) :: path :: entries, changes =>
    if path = [] then raise .lock
    else if code ≠ 'A'.toNat ∧ code ≠ 'M'.toNat ∧ code ≠ 'D'.toNat then raise .lock
    else if Str.ofCodes path ∈ changes.map Prod.fst then raise .lock
    else parseDiffNameStatusZ entries (changes ++ [(.ofCodes path, code)])

def candidateChanges (baseCommit candidateCommit : Str) : Proc (List (Str × ℕ)) := do
  let result ← sys (.git (["rev-list", "--parents", "-n", "1"].map str ++ [candidateCommit]))
  if result.1 ≠ 0 then raise .lock
  else
    match splitSpace result.2.codes with
    | [_, parent] => do
      require (Str.ofCodes parent = baseCommit)
      let diff ← sys (.git (["diff", "--name-status", "--no-renames", "-z"].map str
        ++ [baseCommit, candidateCommit]))
      if diff.1 ≠ 0 then raise .lock else parseDiffNameStatusZ (splitOn 0 diff.2.codes) []
    | _ => raise .lock

end Git

/-! ## Writing -/

section Writing

/-- `BufferedWriter.write` and `flush`: what a system call leaves unwritten is written by the
next. -/
def writeAll : ℕ → Bytes → Proc Unit
  | 0, _ => pure ()
  | _ + 1, [] => pure ()
  | fuel + 1, data => do
    let count ← sys (.write data)
    writeAll fuel (data.drop count)

/-- `os.mkdir` of a directory that may be there. -/
def makeDirectory (path : Path) : Proc Unit :=
  (sys (.mkdir path)).except_ fun e => if e = .fileExists then pure () else raise e

def isDirectory : Node → Bool
  | .directory => true
  | _ => false

/-- `_ensure_safe_repository_directory` -/
def ensureSafeRepositoryDirectory (root path : Path) : Proc Unit := do
  safeApplyPaths [path]
  match relativeTo root path with
  | none => raise .lock
  | some relative => do
    let metadata ← sys (.lstat root)
    require (isDirectory metadata)
    forEach (fun current => do
      makeDirectory current
      let metadata ← sys (.lstat current)
      require (isDirectory metadata)) (relative.inits.tail.map (root ++ ·))

/-- The body of `with os.fdopen(descriptor, "wb")`. -/
def writeHandle (value : Value) : Proc Unit :=
  (do
    let metadata ← sys .fstat
    require (isPrivateRegular metadata)
    writeAll (canonicalBytes value).length (canonicalBytes value)
    sys .fsync).finally_ (sys .close)

def writeExclusive (root path : Path) (value : Value) : Proc Unit := do
  ensureSafeRepositoryDirectory root (parent path)
  safeApplyPaths [path]
  sys (.openDirectory (parent path))
  sys (.createExclusive path)
  writeHandle value
  sys .fsync

def temporaryPath (path : Path) (pid : ℕ) : Path :=
  withName path (append (append (str ".") (name path)) (str s!".tmp-{pid}"))

def unlinkIfPresent (path : Path) : Proc Unit :=
  (sys (.unlink path)).except_ fun e => if e = .fileNotFound then pure () else raise e

def atomicReplace (pid : ℕ) (path : Path) (value : Value) : Proc Unit := do
  preflightApplyJournalPaths path none
  let temporary := temporaryPath path pid
  safeApplyPaths [temporary]
  sys (.openDirectory (parent path))
  sys (.createExclusive temporary)
  (do
    writeHandle value
    sys (.replace temporary path)
    sys .fsync).finally_ (unlinkIfPresent temporary)

end Writing

/-! ## apply_request -/

section Apply

def ensureReceiptAbsent (path : Path) : Proc Unit := do
  let present ← pathPresent path
  require !present

/-- Whether two lists have the same members. -/
def sameSet (xs ys : List Str) : Bool := xs.all (· ∈ ys) && ys.all (· ∈ xs)

/-- A file that is no symlink and has these bytes. -/
def requireDigest (path : Path) (sha256 : Str) : Proc Unit := do
  let symlink ← isSymlink path
  require !symlink
  let file ← isFile path
  require file
  let digest ← digestFile path
  require (digest = sha256)

def finalApplyCas (root requestPath : Path) (acceptedSha256 candidateCommit : Str)
    (changedLocks : List Str) (receiptPath : Path) (expectedStatusPaths : List Str)
    (expectedReceiptSha256 : Option Str) : Proc Unit := do
  preflightApplyJournalPaths requestPath (some receiptPath)
  let branch ← stripped ["branch", "--show-current"]
  require (branch = str "main")
  let head ← stripped ["rev-parse", "HEAD"]
  require (head = candidateCommit)
  let observedStatus ← statusPaths
  require (sameSet observedStatus expectedStatusPaths)
  requireDigest requestPath acceptedSha256
  match relativeTo root requestPath with
  | none => raise .value
  | some relative => do
    let committedRequest ← commitBytes candidateCommit (asPosix relative)
    require (committedRequest.map digestBytes = some acceptedSha256)
    forEach (fun relative => do
      let committed ← commitBytes candidateCommit relative
      match committed with
      | none => raise .lock
      | some committed => requireDigest (joinPath root relative) (digestBytes committed))
      changedLocks
    match expectedReceiptSha256 with
    | none => ensureReceiptAbsent receiptPath
    | some sha256 => requireDigest receiptPath sha256

/-- `_apply_lock`. The lock file is opened and checked with the lock taken. -/
def withApplyLock (root : Path) (body : Proc Unit) : Proc Unit := do
  forEach (fun path => do
    let symlink ← isSymlink path
    require !symlink) [root, root ++ [str "build"], toolsRoot root]
  makeDirectory (root ++ [str "build"])
  makeDirectory (toolsRoot root)
  forEach (fun path => do
    let metadata ← sys (.lstat path)
    require (isDirectory metadata)) [root ++ [str "build"], toolsRoot root]
  sys .flock
  body.finally_ (sys .funlock)

/-- `tool_operation_lock(exclusive=True)` -/
def withToolOperationLock (body : Proc Unit) : Proc Unit := do
  sys .toolLock
  body.finally_ (sys .toolUnlock)

def lockPaths : List Str :=
  [".tool-versions", "go.mod", "go.sum", "mise.toml", "package.json", "pnpm-lock.yaml",
    "tools/manifest.yaml", "web/package.json"].map str

/-- `_applied_request` -/
def applied : Value → Value
  | .obj d => .obj (setItem d (str "status") (text "applied"))
  | value => value

def appliedRequest (request : Value) : Proc Value := do
  let status ← get request "status"
  require (isStr "accepted" status)
  match loads (dumps .plain request) with
  | some copy => pure (applied copy)
  | none => raise .value

theorem appliedRequest_of_loads {request copy : Value}
    (hget : get request "status" = pure (text "accepted"))
    (hloads : loads (dumps .plain request) = some copy) :
    appliedRequest request = pure (applied copy) := by
  rw [appliedRequest, hget, hloads]
  rfl

structure Args where
  pid : ℕ
  baseCommit : Str
  expectedRequestSha256 : Str
  confirm : Str

def isCommitId (s : Str) : Bool :=
  s.length = 40 && s.codes.all (· ∈ "0123456789abcdef".toList.map Char.toNat)

def digestValue (bytes : Option Bytes) : Value := bytes.elim .null fun b => .str (digestBytes b)

/-- One entry of `root_lock_changes`. -/
def lockDigest (baseCommit candidateCommit relative : Str) : Proc Value := do
  let before ← commitBytes baseCommit relative
  let after ← commitBytes candidateCommit relative
  require after.isSome
  pure (.obj [(str "path", .str relative), (str "before_sha256", digestValue before),
    (str "after_sha256", digestValue after)])

def mapEach {α β : Type} (f : α → Proc β) : List α → Proc (List β)
  | [] => pure []
  | x :: xs => do
    let y ← f x
    let ys ← mapEach f xs
    pure (y :: ys)

/-- The changed root locks of a candidate that changes them and its request alone. -/
def checkedLocks (changes : List (Str × ℕ)) (requestRelative : Str) (declared : List Value) :
    Proc (List Str) := do
  let paths := changes.map Prod.fst
  require (paths.all fun path => path ∈ lockPaths || path = requestRelative)
  require (changes.all fun change => change.2 ≠ 'D'.toNat)
  let changedLocks := (paths.filter (· ∈ lockPaths)).insertionSort Layout.KeyLE
  require (changedLocks ≠ [])
  require (changedLocks.all fun path => declared.any fun v =>
    match v with
    | .str s => s = path
    | _ => false)
  match changes.lookup requestRelative with
  | none => raise .lock
  | some code => do
    require (code = 'A'.toNat || code = 'M'.toNat)
    pure changedLocks

/-- What `apply_request` does under its locks, from the request read before them. -/
def applyLocked (root requestPath : Path) (args : Args) (request : Value) (acceptedSha256 : Str) :
    Proc Unit := do
  let branch ← stripped ["branch", "--show-current"]
  require (branch = str "main")
  let candidateCommit ← stripped ["rev-parse", "HEAD"]
  let status ← get request "status"
  require (isStr "accepted" status)
  require (isCommitId args.baseCommit)
  let resolved ← sys (.git [str "rev-parse", str "--verify",
    append args.baseCommit (str "^\x7bcommit\x7d")])
  require (resolved.1 = 0 && strip resolved.2.codes = args.baseCommit.codes)
  let changedWorktree ← statusPaths
  require (changedWorktree = [])
  match relativeTo root requestPath with
  | none => raise .value
  | some relative => do
    let requestRelative := asPosix relative
    let headRequest ← commitBytes candidateCommit requestRelative
    require (headRequest.map digestBytes = some acceptedSha256)
    let changes ← candidateChanges args.baseCommit candidateCommit
    let affected ← item request "affected_lockfiles"
    let declared ← (items? affected).elim (raise .type) pure
    let changedLocks ← checkedLocks changes requestRelative declared
    let receiptPath ← canonicalReceiptPath root request
    preflightApplyJournalPaths requestPath (some receiptPath)
    ensureReceiptAbsent receiptPath
    let validations ← sys (.runDependencyValidations candidateCommit request)
    let applied ← appliedRequest request
    let appliedSha256 := digestBytes (canonicalBytes applied)
    let lockDigests ← mapEach (lockDigest args.baseCommit candidateCommit) changedLocks
    let requestId ← item request "request_id"
    let packetId ← item request "packet_id"
    let completedAt ← sys .utcnow
    let manifestSha256 ← digestFile (manifestPath root)
    let approval ← item request "approval"
    let receipt : Value := .obj [(str "schema_version", int 1),
      (str "receipt_kind", text "jumpship-serialized-dependency-lock-update"),
      (str "status", text "complete"), (str "request_id", requestId),
      (str "packet_id", packetId), (str "request_path", .str requestRelative),
      (str "accepted_request_sha256", .str acceptedSha256),
      (str "applied_request_sha256", .str appliedSha256),
      (str "base_commit", .str args.baseCommit), (str "candidate_commit", .str candidateCommit),
      (str "completed_at", .str completedAt), (str "root_lock_changes", .arr lockDigests),
      (str "tool_manifest_sha256", .str manifestSha256), (str "validations", validations),
      (str "approval", approval)]
    match relativeTo root receiptPath with
    | none => raise .value
    | some receiptRelative => do
      finalApplyCas root requestPath acceptedSha256 candidateCommit changedLocks receiptPath [] none
      writeExclusive root receiptPath receipt
      finalApplyCas root requestPath acceptedSha256 candidateCommit changedLocks receiptPath
        [asPosix receiptRelative] (some (digestBytes (canonicalBytes receipt)))
      atomicReplace args.pid requestPath applied

variable (fieldErrors : Str → Value → List Str) in
def applyRequest (root requestPath : Path) (args : Args) : Proc Unit := do
  preflightApplyJournalPaths requestPath none
  let request ← validateRequest fieldErrors root requestPath
  let acceptedSha256 ← digestFile requestPath
  require (args.expectedRequestSha256 = acceptedSha256)
  let requestId ← item request "request_id"
  require (match requestId with
    | .str s => args.confirm = s
    | _ => false)
  withToolOperationLock (withApplyLock root
    (applyLocked root requestPath args request acceptedSha256))

end Apply

/-! ## The file system -/

section World

/-- The files, the file each execution has open for writing, and the holder of the apply lock.
`creator` records which execution created a file. -/
structure World where
  files : Path → Option Node
  handle : ℕ → Option Path
  creator : Path → Option ℕ
  lock : Option ℕ

/-- What is left open of an operation: whether it raises, how much a `write` writes, and what it
answers of anything else. -/
structure Choice where
  raises : Option Exc
  count : ℕ
  answer : (op : Op) → Answer op

def World.setFile (w : World) (path : Path) (node : Option Node) : World :=
  { w with files := Function.update w.files path node }

def World.setHandle (w : World) (e : ℕ) (path : Option Path) : World :=
  { w with handle := Function.update w.handle e path }

def World.setCreator (w : World) (path : Path) (e : ℕ) : World :=
  { w with creator := Function.update w.creator path (some e) }

/-- `write(2)` of an execution: at least one byte of the data, if there is any. -/
def World.write (w : World) (e : ℕ) (data : Bytes) (count : ℕ) : World :=
  match w.handle e with
  | none => w
  | some path =>
    match w.files path with
    | some (.file content links) => w.setFile path (some (.file (content ++ data.take count) links))
    | _ => w

/-- An operation that does not raise unasked. -/
def perform (e : ℕ) (c : Choice) (w : World) : (op : Op) → Except Exc (Answer op) × World
  | .lstat path =>
    match w.files path with
    | some node => (.ok node, w)
    | none => (.error .fileNotFound, w)
  | .isSymlink path => (.ok (w.files path matches some .symlink), w)
  | .isFile path =>
    match w.files path with
    | some (.file _ _) => (.ok true, w)
    | some .symlink => (.ok (c.answer (.isFile path)), w)
    | _ => (.ok false, w)
  | .exists path =>
    match w.files path with
    | some .symlink => (.ok (c.answer (.exists path)), w)
    | some _ => (.ok true, w)
    | none => (.ok false, w)
  | .readBytes path =>
    match w.files path with
    | some (.file content _) => (.ok content, w)
    | some .symlink => (.ok (c.answer (.readBytes path)), w)
    | _ => (.error .os, w)
  | .mkdir path =>
    match w.files path with
    | some _ => (.error .fileExists, w)
    | none => (.ok (), w.setFile path (some .directory))
  | .createExclusive path =>
    match w.files path with
    | some _ => (.error .fileExists, w)
    | none =>
      (.ok (), ((w.setFile path (some (.file [] 1))).setHandle e (some path)).setCreator path e)
  | .fstat =>
    match (w.handle e).bind w.files with
    | some node => (.ok node, w)
    | none => (.error .os, w)
  | .write data =>
    let count := min (c.count + 1) data.length
    (.ok count, w.write e data count)
  | .close => (.ok (), w.setHandle e none)
  | .replace source target =>
    match w.files source, w.files target with
    | none, _ => (.error .fileNotFound, w)
    | some _, some .directory => (.error .os, w)
    | some node, _ => (.ok (), (w.setFile target (some node)).setFile source none)
  | .unlink path =>
    match w.files path with
    | none => (.error .fileNotFound, w)
    | some .directory => (.error .os, w)
    | some _ => (.ok (), w.setFile path none)
  | .flock =>
    match w.lock with
    | none => (.ok (), { w with lock := some e })
    | some _ => (.error .os, w)
  | .funlock => (.ok (), if w.lock = some e then { w with lock := none } else w)
  | op => (.ok (c.answer op), w)

/-- One operation of an execution, which can raise before it does anything. -/
def act (e : ℕ) (op : Op) (c : Choice) (w : World) : Except Exc (Answer op) × World :=
  match c.raises with
  | some exc => (.error exc, w)
  | none => perform e c w op

/-- The files of an execution that is gone are closed and its lock is released. -/
def leave (e : ℕ) (w : World) : World :=
  let w := w.setHandle e none
  if w.lock = some e then { w with lock := none } else w

/-- The request, its receipt, and the temporaries the request is replaced from. -/
def isJournal (requestPath receiptPath path : Path) : Bool :=
  path = requestPath || path = receiptPath ||
    parent path = parent requestPath &&
      (append (append (str ".") (name requestPath)) (str ".tmp-")).startsWith (name path)

/-- Executions on one request. Other programs write any file that is not the journal's. -/
def machine (requestPath receiptPath : Path) : Machine signature Exc World where
  Choice := Choice
  act := act
  leave := leave
  Outside := Path × Option Node
  outside := fun o w =>
    if isJournal requestPath receiptPath o.1 then w else w.setFile o.1 o.2

end World

end DependencyLocks
