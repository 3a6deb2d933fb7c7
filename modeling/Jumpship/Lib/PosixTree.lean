import Mathlib.Data.List.Infix
import Mathlib.Data.Nat.Notation

/-!
# A tree of files

Directories, files and symbolic links by their physical paths, and the resolution of path names
through the links. A path of the tree is the list of its names from the root; what a path name is
resolved to may not be there yet. An operation that fails keeps what it has done so far.
-/

namespace Posix

abbrev Name := List Char

abbrev Path := List Name

/-- A path name, its empty components left out. -/
structure PathName where
  absolute : Bool
  names : List Name
deriving DecidableEq

inductive Node where
  | dir (mode : ℕ)
  | file (inode : ℕ)
  | symlink (target : PathName)
deriving DecidableEq

structure File where
  content : List UInt8
  mode : ℕ
deriving DecidableEq

/-- The inodes of a tree are below `next`. -/
structure Tree where
  nodes : Path → Option Node
  files : ℕ → File
  next : ℕ
  fresh : ∀ p i, nodes p = some (.file i) → i < next

inductive Errno where
  | noent
  | exist
  | notdir
  | isdir
  | loop
  | perm
deriving DecidableEq

/-! ## Updates -/

namespace Tree

variable (t : Tree) (p : Path)

/-- Another node at a path, no file of its own. -/
def put (node : Option Node) (h : ∀ i, node = some (.file i) → i < t.next) : Tree where
  nodes q := if q = p then node else t.nodes q
  files := t.files
  next := t.next
  fresh q i hq := by
    split_ifs at hq
    · exact h i hq
    · exact t.fresh q i hq

def putDir (mode : ℕ) : Tree := t.put p (some (.dir mode)) fun _ h => (by cases h)

def putSymlink (target : PathName) : Tree := t.put p (some (.symlink target)) fun _ h => (by cases h)

def remove : Tree := t.put p none fun _ h => (by cases h)

/-- One more name of a file. -/
def putLink (inode : ℕ) : Tree :=
  if h : inode < t.next then
    t.put p (some (.file inode)) fun _ hi => Node.file.inj (Option.some.inj hi) ▸ h
  else t

/-- A new file. -/
def putFile (file : File) : Tree where
  nodes q := if q = p then some (.file t.next) else t.nodes q
  files i := if i = t.next then file else t.files i
  next := t.next + 1
  fresh q i hq := by
    split_ifs at hq
    · obtain rfl := Node.file.inj (Option.some.inj hq)
      exact Nat.lt_succ_self _
    · exact Nat.lt_succ_of_lt (t.fresh q i hq)

def writeFile (inode : ℕ) (file : File) : Tree where
  nodes := t.nodes
  files i := if i = inode then file else t.files i
  next := t.next
  fresh := t.fresh

end Tree

/-! ## Resolution -/

/-- What a path name is resolved to. -/
inductive Place where
  | found (p : Path) (node : Node)
  | missing (p : Path)

def Place.path : Place → Path
  | .found p _ => p
  | .missing p => p

/-- Resolution from a directory, in so many steps; a link in the last place is followed or not. -/
def resolve (t : Tree) (follow : Bool) : ℕ → Path → List Name → Except Errno Place
  | _, cur, [] =>
    match t.nodes cur with
    | some node => .ok (.found cur node)
    | none => .error .noent
  | 0, _, _ :: _ => .error .loop
  | limit + 1, cur, name :: rest =>
    if name = ['.'] then resolve t follow limit cur rest
    else if name = ['.', '.'] then resolve t follow limit cur.dropLast rest
    else
      match t.nodes (cur ++ [name]) with
      | none => if rest = [] then .ok (.missing (cur ++ [name])) else .error .noent
      | some (.dir _) => resolve t follow limit (cur ++ [name]) rest
      | some (.file inode) =>
        if rest = [] then .ok (.found (cur ++ [name]) (.file inode)) else .error .notdir
      | some (.symlink target) =>
        if rest = [] && !follow then .ok (.found (cur ++ [name]) (.symlink target))
        else resolve t follow limit (if target.absolute then [] else cur) (target.names ++ rest)

/-- Something is where the path name leads. -/
def isThere (t : Tree) (follow : Bool) (limit : ℕ) (cur : Path) (path : List Name) : Bool :=
  match resolve t follow limit cur path with
  | .ok (.found _ _) => true
  | _ => false

/-- A symbolic link is where the path name leads. -/
def isLink (t : Tree) (limit : ℕ) (cur : Path) (path : List Name) : Bool :=
  match resolve t false limit cur path with
  | .ok (.found _ (.symlink _)) => true
  | _ => false

/-! ## Operations -/

abbrev Op := ExceptT Errno (StateM Tree)

def Op.exec {α : Type} (x : Op α) (t : Tree) : Except Errno α × Tree := x.run.run t

section Calls

variable (limit : ℕ) (cur : Path)

/-- Resolution leaves the tree as it is. -/
def place (follow : Bool) (path : List Name) : Op Place := do
  let t ← getThe Tree
  match resolve t follow limit cur path with
  | .ok p => pure p
  | .error e => throw e

/-- `os.path.exists` and `os.path.lexists` -/
def exists? (follow : Bool) (path : List Name) : Op Bool := do
  let t ← getThe Tree
  match resolve t follow limit cur path with
  | .ok (.found _ _) => pure true
  | _ => pure false

def mkdir (path : List Name) (mode : ℕ) : Op Unit := do
  match ← place limit cur false path with
  | .missing p => modifyThe Tree (·.putDir p mode)
  | .found _ _ => throw .exist

/-- Open a file for writing, new or not, and write it. -/
def openWrite (path : List Name) (content : List UInt8) : Op Unit := do
  match ← place limit cur true path with
  | .missing p => modifyThe Tree (·.putFile p ⟨content, 0o644⟩)
  | .found _ (.file inode) =>
    modifyThe Tree fun t => t.writeFile inode ⟨content, (t.files inode).mode⟩
  | .found _ (.dir _) => throw .isdir
  | .found _ (.symlink _) => throw .loop

def unlink (path : List Name) : Op Unit := do
  match ← place limit cur false path with
  | .missing _ => throw .noent
  | .found _ (.dir _) => throw .isdir
  | .found p _ => modifyThe Tree (·.remove p)

def symlink (target : PathName) (path : List Name) : Op Unit := do
  match ← place limit cur false path with
  | .missing p => modifyThe Tree (·.putSymlink p target)
  | .found _ _ => throw .exist

/-- A hard link, to a link itself where the source is one. -/
def link (source : List Name) (path : List Name) : Op Unit := do
  match ← place limit cur false source with
  | .missing _ => throw .noent
  | .found _ (.dir _) => throw .perm
  | .found _ (.symlink target) => symlink limit cur target path
  | .found _ (.file inode) =>
    match ← place limit cur false path with
    | .found _ _ => throw .exist
    | .missing q => modifyThe Tree (·.putLink q inode)

def chmod (path : List Name) (mode : ℕ) : Op Unit := do
  match ← place limit cur true path with
  | .missing _ => throw .noent
  | .found p (.dir _) => modifyThe Tree (·.putDir p mode)
  | .found _ (.file inode) =>
    modifyThe Tree fun t => t.writeFile inode ⟨(t.files inode).content, mode⟩
  | .found _ (.symlink _) => throw .loop

/-- `os.makedirs`, of the directory whose names are given last first. -/
def makedirs : List Name → Op Unit
  | [] => throw .exist
  | tail :: head => do
    if !(← exists? limit cur true head.reverse) then
      tryCatch (makedirs head) fun e => if e = .exist then pure () else throw e
      if tail ≠ ['.'] then mkdir limit cur (head.reverse ++ [tail]) 0o777
    else mkdir limit cur (head.reverse ++ [tail]) 0o777

end Calls

end Posix
