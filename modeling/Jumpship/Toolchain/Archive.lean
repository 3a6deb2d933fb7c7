import Mathlib
import Jumpship.Lib.PosixTree

/-!
# Tool archives

`_safe_archive_name` and `_safe_tar` of the tool bootstrap, and what `tarfile.extractall` does without
a filter. Owners and times, which extraction also sets, are left out.
-/

namespace Toolchain

open Posix

abbrev Str := List Char

/-! ## Path names -/

def components (text : Str) : List Name := (text.splitOn '/').filter (· ≠ [])

def pathName (text : Str) : PathName := ⟨text.head? = some '/', components text⟩

/-- `posixpath.dirname`, by components. -/
def dirname (text : Str) : List Name := ((text.splitOn '/').dropLast).filter (· ≠ [])

/-- The loop of `posixpath.normpath`, over what it has kept so far. -/
def normNames (absolute : Bool) : List Name → List Name → List Name
  | kept, [] => kept
  | kept, name :: names =>
    if name = ['.'] then normNames absolute kept names
    else if name ≠ ['.', '.'] || (!absolute && kept = []) || kept.getLast? = some ['.', '.'] then
      normNames absolute (kept ++ [name]) names
    else normNames absolute kept.dropLast names

def normpath (path : PathName) : PathName := ⟨path.absolute, normNames path.absolute [] path.names⟩

inductive ToolchainError where
  | unsafePath (name : Str)
  | specialFile (name : Str)
  | absoluteSymlink (name : Str)

/-- `_safe_archive_name`, of a name given by its components -/
def safeArchiveName (name : Str) (path : PathName) : Except ToolchainError Unit :=
  if path.absolute || path.names.contains ['.', '.'] then .error (.unsafePath name) else .ok ()

/-! ## Members -/

inductive MemberType where
  | regular
  | directory
  | symlink
  | hardlink
  | special
deriving DecidableEq

structure TarInfo where
  name : Str
  type : MemberType
  linkname : Str
  mode : ℕ
  content : List UInt8
deriving DecidableEq

def TarInfo.names (member : TarInfo) : List Name := components member.name

def TarInfo.target (member : TarInfo) : PathName := pathName member.linkname

/-- `posixpath.join(posixpath.dirname(member.name), member.linkname)` -/
def TarInfo.joined (member : TarInfo) : PathName :=
  ⟨(pathName member.name).absolute, dirname member.name ++ member.target.names⟩

/-- The body of the loop of `_safe_tar`. -/
def safeMember (member : TarInfo) : Except ToolchainError Unit := do
  safeArchiveName member.name (pathName member.name)
  match member.type with
  | .special => .error (.specialFile member.name)
  | .symlink =>
    if member.target.absolute then .error (.absoluteSymlink member.name)
    else safeArchiveName member.name (normpath member.joined)
  | .hardlink => safeArchiveName member.name (normpath member.target)
  | _ => .ok ()

def safeTar : List TarInfo → Except ToolchainError Unit
  | [] => .ok ()
  | member :: members => do
    safeMember member
    safeTar members

/-! ## Extraction -/

/-- `_find_link_target` of a hard link: the last member before it of that name, and those before. -/
def findLinkTarget (before : List TarInfo) (member : TarInfo) : Option (List TarInfo × TarInfo) :=
  let found (i : ℕ) : Option (List TarInfo × TarInfo) :=
    before[i]?.bind fun other =>
      if normpath (pathName other.name) = normpath member.target then some (before.take i, other)
      else none
  (List.range before.length).reverse.findSome? found

section Extract

variable (limit : ℕ) (dest : Path)

/-- Make the directories above a member's path. -/
def makeUpper (names : List Name) : Op Unit := do
  if !(← exists? limit dest true names.dropLast) then makedirs limit dest names.dropLast.reverse

def makedir (names : List Name) : Op Unit :=
  tryCatch (mkdir limit dest names 0o700) fun e => if e = .exist then pure () else throw e

def makeSymlink (target : PathName) (names : List Name) : Op Unit := do
  if ← exists? limit dest false names then unlink limit dest names
  symlink limit dest target names

/-- A failure to set a mode is only logged. -/
def setMode (names : List Name) (mode : ℕ) : Op Unit :=
  tryCatch (chmod limit dest names mode) fun _ => pure ()

/-- `_extract_member`: a member to a path. A hard link to what is not there is extracted as the member
it names, from among those before it. -/
def extractMember : ℕ → List TarInfo → TarInfo → List Name → (setAttrs : Bool) → Op Unit
  | 0, _, _, _, _ => throw .loop
  | depth + 1, before, member, names, setAttrs => do
    makeUpper limit dest names
    match member.type with
    | .regular => openWrite limit dest names member.content
    | .directory => makedir limit dest names
    | .symlink => makeSymlink limit dest member.target names
    | .hardlink =>
      if ← exists? limit dest true member.target.names then
        link limit dest member.target.names names
      else
        match findLinkTarget before member with
        | none => throw .noent
        | some (earlier, target) => extractMember depth earlier target names true
    | .special => throw .perm
    if setAttrs && member.type ≠ .symlink then setMode limit dest names member.mode

/-- `extract`, with a directory's own mode left for later -/
def extract (before : List TarInfo) (member : TarInfo) : Op Unit :=
  extractMember limit dest (before.length + 1) before
    (if member.type = .directory then { member with mode := 0o700 } else member) member.names
    (member.type ≠ .directory)

def extractMembers : List TarInfo → List TarInfo → Op Unit
  | _, [] => pure ()
  | before, member :: members => do
    extract limit dest before member
    extractMembers (before ++ [member]) members

def setModes : List TarInfo → Op Unit
  | [] => pure ()
  | member :: members => do
    setMode limit dest member.names member.mode
    setModes members

/-- `extractall` -/
def extractAll (members : List TarInfo) : Op Unit := do
  extractMembers limit dest [] members
  setModes limit dest ((members.filter (·.type = .directory)).insertionSort
    fun left right => right.name ≤ left.name)

end Extract

end Toolchain
