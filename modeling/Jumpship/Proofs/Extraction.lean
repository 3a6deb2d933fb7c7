import Jumpship.Lib.Confinement
import Jumpship.Toolchain.Archive

/-!
# Where archives are extracted

An archive that `_safe_tar` accepts stays below its destination if every `..` of its link targets is
applied to a directory that is there, and its hard links are made to files only.
-/

namespace Toolchain

open Posix

section Extraction

variable {limit : ℕ} {dest : Path} {t t' : Tree} {before : List TarInfo} {member : TarInfo}

/-! ## Safe names -/

theorem not_mem_of_safe {name : Str} {path : PathName} (h : safeArchiveName name path = .ok ()) :
    path.absolute = false ∧ ['.', '.'] ∉ path.names := by
  unfold safeArchiveName at h
  split_ifs at h with hunsafe
  simpa using hunsafe

theorem safeMember_name (h : safeMember member = .ok ()) : ['.', '.'] ∉ member.names := by
  unfold safeMember at h
  cases hname : safeArchiveName member.name (pathName member.name) with
  | error e =>
    rw [hname] at h
    cases h
  | ok u => exact (not_mem_of_safe hname).2

theorem safeMember_symlink (h : safeMember member = .ok ()) (htype : member.type = .symlink) :
    member.target.absolute = false := by
  unfold safeMember at h
  cases hname : safeArchiveName member.name (pathName member.name) with
  | error e =>
    rw [hname] at h
    cases h
  | ok u =>
    rw [hname, htype] at h
    by_contra habsolute
    rw [Bool.not_eq_false] at habsolute
    replace h : (if member.target.absolute = true then
      (.error (.absoluteSymlink member.name) : Except ToolchainError Unit)
      else _) = .ok () := h
    rw [if_pos habsolute] at h
    cases h

theorem safeTar_eq_ok : ∀ {members : List TarInfo}, safeTar members = .ok () →
    ∀ member ∈ members, safeMember member = .ok ()
  | [], _ => by simp
  | member :: members, h => by
    rw [safeTar] at h
    cases hmember : safeMember member with
    | error e =>
      rw [hmember] at h
      cases h
    | ok u =>
      rw [hmember] at h
      exact List.forall_mem_cons.2 ⟨hmember, safeTar_eq_ok h⟩

/-! ## One member -/

/-- What stands where a link is to be made has been taken away: the place is the same. -/
theorem resolve_remove {q : Path} {node : Node} (hq : t.nodes q = some node)
    (hdir : ∀ mode, node ≠ .dir mode) {follow : Bool} : ∀ {limit : ℕ} {cur : Path}
    {names : List Name} {r : Path}, resolve (t.remove q) follow limit cur names = .ok (.missing r) →
      r = q ∨ resolve t follow limit cur names = .ok (.missing r)
  | limit, cur, [], r, h => by
    rw [resolve] at h
    split at h <;> cases h
  | 0, _, _ :: _, _, h => by
    rw [resolve] at h
    cases h
  | limit + 1, cur, name :: rest, r, h => by
    have hnodes : ∀ p, (t.remove q).nodes p = if p = q then none else t.nodes p := fun _ => rfl
    rw [resolve] at h ⊢
    by_cases hdot : name = ['.']
    · rw [if_pos hdot] at h ⊢
      exact resolve_remove hq hdir h
    rw [if_neg hdot] at h ⊢
    by_cases hparent : name = ['.', '.']
    · rw [if_pos hparent] at h ⊢
      exact resolve_remove hq hdir h
    rw [if_neg hparent] at h ⊢
    by_cases hhere : cur ++ [name] = q
    · rw [hnodes, if_pos hhere] at h
      dsimp only at h
      split_ifs at h
      exact .inl (Place.missing.inj (Except.ok.inj h) ▸ hhere)
    · rw [hnodes, if_neg hhere] at h
      cases hnode : t.nodes (cur ++ [name]) with
      | none =>
        rw [hnode] at h
        exact .inr h
      | some node =>
        rw [hnode] at h
        cases node with
        | dir mode => exact resolve_remove hq hdir h
        | file inode => exact .inr h
        | symlink target =>
          dsimp only at h ⊢
          by_cases hlast : (decide (rest = []) && !follow) = true
          · rw [if_pos hlast] at h ⊢
            exact .inr h
          · rw [if_neg hlast] at h ⊢
            exact resolve_remove hq hdir h

/-- A member keeps below the destination: a symbolic link is settled where it is placed; the source of
a hard link is settled and no symbolic link, and where nothing is there the member before it of that
name is no link. -/
def keepable (limit : ℕ) (dest : Path) (before : List TarInfo) (member : TarInfo) (t : Tree) : Bool :=
  match member.type with
  | .symlink =>
    match resolve t false limit dest member.names with
    | .ok p => settled t dest p.path.dropLast member.target.names
    | .error _ => true
  | .hardlink =>
    settled t dest dest member.target.names && !isLink t limit dest member.target.names &&
      (isThere t true limit dest member.target.names ||
        (findLinkTarget before member).all fun found =>
          found.2.type ≠ .symlink && found.2.type ≠ .hardlink)
  | _ => true

theorem keeps_makeUpper {names : List Name} (hnames : ['.', '.'] ∉ names) :
    Keeps dest (makeUpper limit dest names) t := by
  refine keeps_exists ?_
  split_ifs
  · exact keeps_makedirs List.prefix_rfl fun h =>
      hnames (List.mem_of_mem_dropLast (List.mem_reverse.1 h))
  · exact keeps_pure _

theorem keeps_setMode {names : List Name} (hnames : ['.', '.'] ∉ names) {mode : ℕ} :
    Keeps dest (setMode limit dest names mode) t :=
  (keeps_chmod List.prefix_rfl (settled_of_no_parent hnames)).tryCatch fun _ _ _ => keeps_pure _

theorem keeps_makedir {names : List Name} (hnames : ['.', '.'] ∉ names) :
    Keeps dest (makedir limit dest names) t := by
  refine (keeps_mkdir List.prefix_rfl (settled_of_no_parent hnames)).tryCatch fun e t' _ => ?_
  split_ifs
  · exact keeps_pure _
  · exact keeps_throw _

theorem exec_unlink {names : List Name} {u : Unit}
    (h : Op.exec (unlink limit dest names) t = (.ok u, t')) :
    ∃ q node, resolve t false limit dest names = .ok (.found q node) ∧ (∀ mode, node ≠ .dir mode) ∧
      t' = t.remove q := by
  rw [unlink, exec_bind, exec_place] at h
  cases hres : resolve t false limit dest names with
  | error e =>
    rw [hres] at h
    cases h
  | ok p =>
    rw [hres] at h
    cases p with
    | missing q => cases h
    | found q node =>
      cases node with
      | dir mode => cases h
      | file inode => exact ⟨q, _, rfl, fun _ => by simp, ((Prod.mk.inj h).2).symm⟩
      | symlink target => exact ⟨q, _, rfl, fun _ => by simp, ((Prod.mk.inj h).2).symm⟩

theorem keeps_makeSymlink {target : PathName} {names : List Name} (hnames : ['.', '.'] ∉ names)
    (habsolute : target.absolute = false)
    (hset : ∀ p, resolve t false limit dest names = .ok p →
      settled t dest p.path.dropLast target.names = true) :
    Keeps dest (makeSymlink limit dest target names) t := by
  have hsettled : ∀ {t : Tree}, settled t dest dest names = true := settled_of_no_parent hnames
  refine keeps_exists ?_
  split_ifs
  · refine Keeps.bind (keeps_unlink List.prefix_rfl hsettled) fun _ t' hrun => ?_
    obtain ⟨q, node, hfound, hdir, rfl⟩ := exec_unlink hrun
    have hq := nodes_of_resolve hfound
    refine keeps_symlink List.prefix_rfl hsettled habsolute fun r hr => ?_
    rcases resolve_remove hq hdir hr with rfl | hr
    · -- no directory has been taken away
      refine settled_mono (fun p hp => ?_) (hset _ hfound)
      rw [isDir_eq_true] at hp ⊢
      obtain ⟨mode, hmode⟩ := hp
      refine ⟨mode, (if_neg fun heq : p = r => ?_).trans hmode⟩
      exact hdir mode (Option.some.inj ((heq ▸ hq).symm.trans hmode))
    · cases hfound.symm.trans hr
  · exact keeps_symlink List.prefix_rfl hsettled habsolute fun r hr => hset _ hr

theorem keeps_attrs {names : List Name} (hnames : ['.', '.'] ∉ names) {set : Bool} {mode : ℕ} :
    Keeps dest (if set = true then setMode limit dest names mode else pure ()) t := by
  split_ifs
  · exact keeps_setMode hnames
  · exact keeps_pure _

/-- A member that is no link, to a path below. -/
theorem keeps_plain {depth : ℕ} {names : List Name} {setAttrs : Bool} (hnames : ['.', '.'] ∉ names)
    (hsymlink : member.type ≠ .symlink) (hhardlink : member.type ≠ .hardlink) :
    Keeps dest (extractMember limit dest depth before member names setAttrs) t := by
  cases depth with
  | zero => exact keeps_throw _
  | succ depth =>
    have hsettled : ∀ {t : Tree}, settled t dest dest names = true := settled_of_no_parent hnames
    rw [extractMember]
    refine (keeps_makeUpper hnames).bind fun _ t' _ => ?_
    cases htype : member.type with
    | regular => exact (keeps_openWrite List.prefix_rfl hsettled).bind fun _ _ _ => keeps_attrs hnames
    | directory => exact (keeps_makedir hnames).bind fun _ _ _ => keeps_attrs hnames
    | symlink => exact absurd htype hsymlink
    | hardlink => exact absurd htype hhardlink
    | special => exact (keeps_throw _).bind fun _ _ _ => keeps_attrs hnames

/-- A link keeps below the destination where it is so once the directories above it are there. -/
theorem keeps_extractMember {depth : ℕ} {setAttrs : Bool} (hsafe : safeMember member = .ok ())
    (hkeepable : keepable limit dest before member
      (Op.exec (makeUpper limit dest member.names) t).2 = true) :
    Keeps dest (extractMember limit dest (depth + 1) before member member.names setAttrs) t := by
  have hnames := safeMember_name hsafe
  have hsettled : ∀ {t : Tree}, settled t dest dest member.names = true := settled_of_no_parent hnames
  by_cases hsymlink : member.type = .symlink
  · rw [extractMember]
    refine (keeps_makeUpper hnames).bind fun _ t' hupper => ?_
    rw [hupper, keepable, hsymlink] at hkeepable
    rw [hsymlink]
    refine (keeps_makeSymlink hnames (safeMember_symlink hsafe hsymlink) fun p hp => ?_).bind
      fun _ _ _ => keeps_attrs hnames
    dsimp only at hkeepable
    rwa [hp] at hkeepable
  by_cases hhardlink : member.type = .hardlink
  · rw [extractMember]
    refine (keeps_makeUpper hnames).bind fun _ t' hupper => ?_
    rw [hupper, keepable, hhardlink] at hkeepable
    simp only [Bool.and_eq_true, Bool.or_eq_true, Bool.not_eq_true'] at hkeepable
    obtain ⟨⟨hsource, hfile⟩, hother⟩ := hkeepable
    rw [hhardlink]
    refine keeps_exists ?_
    cases hthere : isThere t' true limit dest member.target.names with
    | true =>
      exact (keeps_link List.prefix_rfl hsettled hsource hfile).bind fun _ _ _ => keeps_attrs hnames
    | false =>
      simp only [Bool.false_eq_true, ↓reduceIte]
      cases hfound : findLinkTarget before member with
      | none => exact (keeps_throw _).bind fun _ _ _ => keeps_attrs hnames
      | some found =>
        rw [hthere, hfound] at hother
        simp only [Bool.false_eq_true, false_or, Option.all_some, Bool.and_eq_true,
          decide_eq_true_eq] at hother
        exact (keeps_plain hnames hother.1 hother.2).bind fun _ _ _ => keeps_attrs hnames
  · exact keeps_plain hnames hsymlink hhardlink

/-! ## A whole archive -/

/-- Every member keeps below the destination where it is placed. -/
def allKeepable (limit : ℕ) (dest : Path) : List TarInfo → List TarInfo → Tree → Bool
  | _, [], _ => true
  | before, member :: members, t =>
    keepable limit dest before member (Op.exec (makeUpper limit dest member.names) t).2 &&
      allKeepable limit dest (before ++ [member]) members
        (Op.exec (extract limit dest before member) t).2

theorem keeps_extract (hsafe : safeMember member = .ok ())
    (hkeepable : keepable limit dest before member
      (Op.exec (makeUpper limit dest member.names) t).2 = true) :
    Keeps dest (extract limit dest before member) t := by
  rw [extract]
  split_ifs with htype
  · exact keeps_plain (safeMember_name hsafe) (by simp [htype]) (by simp [htype])
  · exact keeps_extractMember hsafe hkeepable

theorem keeps_extractMembers {members : List TarInfo}
    (hsafe : ∀ member ∈ members, safeMember member = .ok ())
    (hall : allKeepable limit dest before members t = true) :
    Keeps dest (extractMembers limit dest before members) t := by
  induction members generalizing before t with
  | nil => exact keeps_pure _
  | cons member members ih =>
    obtain ⟨hmember, hsafe⟩ := List.forall_mem_cons.1 hsafe
    rw [allKeepable, Bool.and_eq_true] at hall
    rw [extractMembers]
    refine (keeps_extract hmember hall.1).bind fun u t' hrun => ih hsafe ?_
    have hrest := hall.2
    rw [hrun] at hrest
    exact hrest

theorem keeps_setModes {members : List TarInfo}
    (hsafe : ∀ member ∈ members, safeMember member = .ok ()) :
    Keeps dest (setModes limit dest members) t := by
  induction members generalizing t with
  | nil => exact keeps_pure _
  | cons member members ih =>
    obtain ⟨hmember, hsafe⟩ := List.forall_mem_cons.1 hsafe
    rw [setModes]
    exact (keeps_setMode (safeMember_name hmember)).bind fun _ _ _ => ih hsafe

theorem keeps_extractAll {members : List TarInfo} (hsafe : safeTar members = .ok ())
    (hall : allKeepable limit dest [] members t = true) : Keeps dest (extractAll limit dest members) t := by
  have hmembers := safeTar_eq_ok hsafe
  refine (keeps_extractMembers hmembers hall).bind fun _ _ _ => keeps_setModes fun member hmem => ?_
  rw [List.mem_insertionSort, List.mem_filter] at hmem
  exact hmembers member hmem.1

/-! ## Nothing outside -/

/-- Nothing outside of `dest` is there that was not, is gone or has another content or mode, and no
link below is one to what is outside. -/
structure StaysBelow (dest : Path) (t t' : Tree) : Prop where
  nodes : ∀ q, ¬ Inside dest q → t'.nodes q = t.nodes q
  files : ∀ q i, ¬ Inside dest q → t.nodes q = some (.file i) → t'.files i = t.files i
  hardlinks : ∀ p q i, Inside dest p → ¬ Inside dest q → t'.nodes p = some (.file i) →
    t'.nodes q ≠ some (.file i)
  symlinks : ∀ p target follow limit place, Inside dest p → t'.nodes p = some (.symlink target) →
    resolve t' follow limit (if target.absolute then [] else p.dropLast) target.names = .ok place →
      Inside dest place.path

theorem staysBelow_of_confined (h : Confined dest t') (hframe : Frame dest t t') :
    StaysBelow dest t t' := by
  refine ⟨hframe.nodes, hframe.files, h.files, fun p target follow limit place hp hnode hres => ?_⟩
  obtain ⟨habsolute, hsettled⟩ := h.links p target hp hnode
  rw [habsolute] at hres
  refine resolve_inside h ?_ hsettled hres
  -- the destination is no link itself
  obtain ⟨rest, rfl⟩ := hp
  rcases List.eq_nil_or_concat rest with rfl | ⟨rest, name, rfl⟩
  · obtain ⟨mode, hmode⟩ := isDir_eq_true.1 h.root
    rw [List.append_nil, hmode] at hnode
    cases hnode
  · rw [List.concat_eq_append, ← List.append_assoc, List.dropLast_concat]
    exact inside_append rest

theorem confined_of_empty (hdest : isDir t dest = true)
    (hempty : ∀ p, Inside dest p → p ≠ dest → t.nodes p = none) : Confined dest t := by
  have hnode : ∀ p node, Inside dest p → t.nodes p = some node → isDir t p = true := by
    intro p node hp hnode
    by_cases heq : p = dest
    · exact heq ▸ hdest
    · rw [hempty p hp heq] at hnode
      cases hnode
  refine ⟨hdest, fun p target hp hlink => ?_, fun p q i hp _ hfile => ?_⟩
  · obtain ⟨mode, hmode⟩ := isDir_eq_true.1 (hnode p _ hp hlink)
    cases hlink.symm.trans hmode
  · obtain ⟨mode, hmode⟩ := isDir_eq_true.1 (hnode p _ hp hfile)
    cases hfile.symm.trans hmode

theorem allKeepable_append {members rest : List TarInfo} :
    allKeepable limit dest before (members ++ rest) t = true →
      allKeepable limit dest before members t = true := by
  induction members generalizing before t with
  | nil => exact fun _ => rfl
  | cons member members ih =>
    intro h
    rw [List.cons_append, allKeepable, Bool.and_eq_true] at h
    rw [allKeepable, Bool.and_eq_true]
    exact ⟨h.1, ih h.2⟩

/-! ### An archive that stays below, and one that does not -/

def stage : Path := ["tmp".toList, "stage".toList]

/-- The directories above the empty stage. -/
def emptyStage : Tree where
  nodes p := if p <+: stage then some (.dir 0o755) else none
  files _ := ⟨[], 0⟩
  next := 0
  fresh p i h := by
    split_ifs at h
    cases h

def directory (name : String) : TarInfo := ⟨name.toList, .directory, [], 0o755, []⟩

def regular (name : String) : TarInfo := ⟨name.toList, .regular, [], 0o644, [0x21]⟩

def symlinkTo (target name : String) : TarInfo := ⟨name.toList, .symlink, target.toList, 0o777, []⟩

def hardlinkTo (target name : String) : TarInfo := ⟨name.toList, .hardlink, target.toList, 0o644, []⟩

def toolArchive : List TarInfo :=
  [directory "bin", directory "lib", regular "lib/tool", symlinkTo "../lib/tool" "bin/tool",
    hardlinkTo "lib/tool" "bin/run"]

theorem emptyStage_empty (p : Path) (hp : Inside stage p) (hne : p ≠ stage) :
    emptyStage.nodes p = none :=
  if_neg fun h => hne (h.eq_of_length_le hp.length_le)

/-- The second link is placed through the first one, and leads above the stage. -/
def climbingArchive : List TarInfo :=
  [symlinkTo ".." "a/s", symlinkTo ".." "a/s/up", regular "up/outside"]

end Extraction

end Toolchain
