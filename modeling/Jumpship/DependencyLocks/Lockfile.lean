import Jumpship.DependencyLocks.Integrity
import Jumpship.Py.Text

/-!
# The readers of pnpm-lock.yaml

`_pnpm_lock_integrity` and `_pnpm_supported_lock_records`, on the code points of the file. What `\w`
is stays open.
-/

namespace DependencyLocks

open Py

/-! ## Lines -/

/-- `text.splitlines()` -/
def splitlines : Codes → List Codes
  | [] => []
  | 13 :: 10 :: s => [] :: splitlines s
  | c :: s =>
    if c ∈ [10, 11, 12, 13, 0x1C, 0x1D, 0x1E, 0x85, 0x2028, 0x2029] then [] :: splitlines s
    else
      match splitlines s with
      | [] => [[c]]
      | line :: lines => (c :: line) :: lines

/-- `text.strip(chars)` -/
def stripChars (chars s : Codes) : Codes :=
  ((s.dropWhile (· ∈ chars)).reverse.dropWhile (· ∈ chars)).reverse

/-- The quotes `'` and `"` of a key or a value. -/
def stripQuotes (s : Codes) : Codes := stripChars [39, 34] s

def packagesLine : Codes := codes "packages:"

/-- `line and not line.startswith(" ")` -/
def endsSection (line : Codes) : Bool := line ≠ [] && line.head? ≠ some 32

/-- `re.fullmatch(r"  ([^ ].*):", line)`: the key, its quotes stripped. -/
def keyMatch : Codes → Option Codes
  | 32 :: 32 :: c :: rest =>
    if c ≠ 32 && rest.getLast? = some 58 && 10 ∉ rest.dropLast then
      some (stripQuotes (c :: rest.dropLast))
    else none
  | _ => none

/-- `[^, }]` -/
def isValueCode (c : ℕ) : Bool := c ≠ 44 && c ≠ 32 && c ≠ 125

/-- `\s*([^, }]+)` at the start: the whitespace is given back as far as the group needs it. -/
def valueGroup (s : Codes) : Option Codes :=
  (List.range ((s.takeWhile isSpaceCode).length + 1)).reverse.findSome? fun count =>
    let value := (s.drop count).takeWhile isValueCode
    if value = [] then none else some value

section Scanners

variable (word : ℕ → Bool)

/-- `re.search(r"\bintegrity:\s*([^, }]+)", line)` from a place, given the code before it. -/
def integritySearch (before : Option ℕ) : Codes → Option Codes
  | [] => none
  | c :: s =>
    let here :=
      if !before.any word && (codes "integrity:").isPrefixOf (c :: s) then valueGroup (s.drop 9) else none
    here.or (integritySearch (some c) s)

def integrityMatch (line : Codes) : Option Codes := integritySearch word none line

/-! ## _pnpm_lock_integrity -/

/-- The loop, in and out of the packages section and under a key. -/
def scanIntegrity (expected : Codes) (inPackages : Bool) (current : Option Codes) :
    List Codes → Option Codes
  | [] => none
  | line :: lines =>
    if line = packagesLine then scanIntegrity expected true current lines
    else if inPackages && endsSection line then none
    else
      match keyMatch line with
      | some key => scanIntegrity expected inPackages (some key) lines
      | none =>
        if current = some expected then
          (integrityMatch word line).or (scanIntegrity expected inPackages current lines)
        else scanIntegrity expected inPackages current lines

def pnpmLockIntegrity (text name version : Codes) : Option Codes :=
  scanIntegrity word (name ++ 64 :: version) false none (splitlines text)

/-! ## _pnpm_supported_lock_records -/

/-- The values of each dimension. An absent one is empty. -/
structure Constraints where
  os : List Codes := []
  cpu : List Codes := []
  libc : List Codes := []
deriving DecidableEq

/-- `value.strip().strip("'\"") for value in body.split(",") if value.strip()` -/
def constraintValues (body : Codes) : List Codes :=
  (splitOn 44 body).filterMap fun value =>
    if strip value = [] then none else some (stripQuotes (strip value))

/-- The body of `    name: [body]`. -/
def constraintBody (name : String) (line : Codes) : Option Codes :=
  let head := codes ("    " ++ name ++ ": [")
  let rest := line.drop head.length
  if head.isPrefixOf line && rest.getLast? = some 93 && 93 ∉ rest.dropLast then some rest.dropLast
  else none

/-- `re.fullmatch(r"    (os|cpu|libc): \[([^]]*)\]", line)` -/
def Constraints.read (c : Constraints) (line : Codes) : Constraints :=
  match constraintBody "os" line, constraintBody "cpu" line, constraintBody "libc" line with
  | some body, _, _ => { c with os := constraintValues body }
  | none, some body, _ => { c with cpu := constraintValues body }
  | none, none, some body => { c with libc := constraintValues body }
  | none, none, none => c

structure Record where
  key : Codes
  constraints : Constraints
  integrity : Option Codes
deriving DecidableEq

structure Scan where
  records : List Record := []
  inPackages : Bool := false
  key : Option Codes := none
  constraints : Constraints := {}
  integrity : Option Codes := none

/-- `finish()` -/
def Scan.finish (s : Scan) : Scan :=
  { s with
    records :=
      match s.key with
      | some key => s.records ++ [⟨key, s.constraints, s.integrity⟩]
      | none => s.records
    key := none
    constraints := {}
    integrity := none }

def Scan.run (s : Scan) : List Codes → List Record
  | [] => s.finish.records
  | line :: lines =>
    if line = packagesLine then ({ s with inPackages := true } : Scan).run lines
    else if s.inPackages && endsSection line then s.finish.records
    else if !s.inPackages then s.run lines
    else
      match keyMatch line with
      | some key => ({ s.finish with key := some key } : Scan).run lines
      | none =>
        ({ s with
          constraints := s.constraints.read line
          integrity := (integrityMatch word line).or s.integrity } : Scan).run lines

def allows (values : List Codes) (observed : Option Codes) : Bool :=
  if values = [] then true
  else
    match observed with
    | none => false
    | some observed =>
      if 33 :: observed ∈ values then false
      else
        let positives := values.filter fun value => value.head? ≠ some 33
        positives = [] || observed ∈ positives

/-- The targets an entry is for: the operating system, the processor and the C library. -/
def targets : List (Codes × Codes × Option Codes) :=
  [(codes "darwin", codes "arm64", none), (codes "darwin", codes "x64", none),
    (codes "linux", codes "arm64", some (codes "glibc")), (codes "linux", codes "x64", some (codes "glibc"))]

def Constraints.supported (c : Constraints) : Bool :=
  targets.any fun (os, cpu, libc) =>
    allows c.os (some os) && allows c.cpu (some cpu) && allows c.libc libc

/-- `key.rfind("@")` -/
def rfind (c : ℕ) : Codes → Option ℕ
  | [] => none
  | d :: s =>
    match rfind c s with
    | some i => some (i + 1)
    | none => if d = c then some 0 else none

/-- `d[key] = value` -/
def assign {κ α : Type} [DecidableEq κ] (d : List (κ × α)) (key : κ) (value : α) : List (κ × α) :=
  match d with
  | [] => [(key, value)]
  | (k, v) :: d => if k = key then (k, value) :: d else (k, v) :: assign d key value

/-- The name and the version of a key. -/
def splitKey (key : Codes) : Option (Codes × Codes) := do
  let separator ← rfind 64 key
  if separator = 0 then none else some (key.take separator, key.drop (separator + 1))

/-- One round of the loop over the records. -/
def requireRecord (required : List ((Codes × Codes) × Codes)) (record : Record) :
    Option (List ((Codes × Codes) × Codes)) :=
  if !record.constraints.supported then some required
  else do
    let package ← splitKey record.key
    let integrity ← record.integrity
    if integrityValueValid (codes "npm-sri") integrity then some (assign required package integrity)
    else none

/-- None stands for a `LockError`. -/
def pnpmSupportedLockRecords (text : Codes) : Option (List ((Codes × Codes) × Codes)) := do
  let required ← (Scan.run word {} (splitlines text)).foldlM requireRecord []
  if required = [] then none else some required

end Scanners

end DependencyLocks
