import Jumpship.Lib.PosixTree
import Mathlib.Tactic.Cases
import Mathlib.Tactic.SplitIfs

/-!
# What stays below a directory

A path name is settled when every `..` in it is applied to a directory that is there, so that nothing
placed later can turn it elsewhere. Where all links below a directory are settled, resolution from
there stays there, and an operation that keeps this so changes nothing elsewhere.
-/

namespace Posix

variable {dest : Path} {t t' t'' : Tree}

/-! ## Settled path names -/

section Settled

def Inside (dest p : Path) : Prop := dest <+: p

instance decidableInside (dest p : Path) : Decidable (Inside dest p) :=
  inferInstanceAs (Decidable (dest <+: p))

def isDir (t : Tree) (p : Path) : Bool :=
  match t.nodes p with
  | some (.dir _) => true
  | _ => false

/-- From a directory below `dest`, every `..` leads from a directory that is there to one that is
below `dest` too. -/
def settled (t : Tree) (dest : Path) : Path → List Name → Bool
  | _, [] => true
  | cur, name :: rest =>
    if name = ['.'] then settled t dest cur rest
    else if name = ['.', '.'] then decide (Inside dest cur.dropLast) && settled t dest cur.dropLast rest
    else if isDir t (cur ++ [name]) then settled t dest (cur ++ [name]) rest
    else !rest.contains ['.', '.']

theorem inside_append (p : Path) : Inside dest (dest ++ p) := List.prefix_append _ _

theorem Inside.append {p : Path} (h : Inside dest p) (q : Path) : Inside dest (p ++ q) :=
  h.trans (List.prefix_append _ _)

theorem not_contains_iff {names : List Name} {name : Name} :
    (!names.contains name) = true ↔ name ∉ names := by
  simp

theorem settled_of_no_parent : ∀ {names : List Name} {cur : Path}, ['.', '.'] ∉ names →
    settled t dest cur names = true
  | [], _, _ => rfl
  | name :: rest, cur, h => by
    rw [List.mem_cons, not_or] at h
    rw [settled, if_neg (Ne.symm h.1)]
    split_ifs
    · exact settled_of_no_parent h.2
    · exact settled_of_no_parent h.2
    · exact not_contains_iff.2 h.2

theorem settled_append {names rest : List Name} (hrest : ['.', '.'] ∉ rest) : ∀ {cur : Path},
    settled t dest cur names = true → settled t dest cur (names ++ rest) = true := by
  induction names with
  | nil => exact fun _ => settled_of_no_parent hrest
  | cons name names ih =>
    intro cur h
    rw [settled] at h
    rw [List.cons_append, settled]
    split_ifs at h ⊢ with hdot hparent hdir
    · exact ih h
    · rw [Bool.and_eq_true] at h ⊢
      exact ⟨h.1, ih h.2⟩
    · exact ih h
    · refine not_contains_iff.2 fun hmem => ?_
      rcases List.mem_append.1 hmem with hmem | hmem
      · exact not_contains_iff.1 h hmem
      · exact hrest hmem

/-- What is settled stays so while directories stay. -/
theorem settled_mono (hdirs : ∀ p, isDir t p = true → isDir t' p = true) :
    ∀ {names : List Name} {cur : Path}, settled t dest cur names = true →
      settled t' dest cur names = true
  | [], _, _ => rfl
  | name :: rest, cur, h => by
    rw [settled] at h ⊢
    by_cases hdot : name = ['.']
    · rw [if_pos hdot] at h ⊢
      exact settled_mono hdirs h
    rw [if_neg hdot] at h ⊢
    by_cases hparent : name = ['.', '.']
    · rw [if_pos hparent, Bool.and_eq_true] at h ⊢
      exact ⟨h.1, settled_mono hdirs h.2⟩
    rw [if_neg hparent] at h ⊢
    by_cases hdir : isDir t (cur ++ [name]) = true
    · rw [if_pos hdir] at h
      rw [if_pos (hdirs _ hdir)]
      exact settled_mono hdirs h
    · rw [if_neg hdir] at h
      split_ifs
      · exact settled_of_no_parent (not_contains_iff.1 h)
      · exact h

end Settled

/-! ## Confined trees -/

section Confined

/-- All links below `dest` are settled from their own directories, and no file below is one
elsewhere. -/
structure Confined (dest : Path) (t : Tree) : Prop where
  root : isDir t dest = true
  links : ∀ p target, Inside dest p → t.nodes p = some (.symlink target) →
    target.absolute = false ∧ settled t dest p.dropLast target.names = true
  files : ∀ p q i, Inside dest p → ¬ Inside dest q → t.nodes p = some (.file i) →
    t.nodes q ≠ some (.file i)

/-- Nothing outside has changed, and directories are directories still. -/
structure Frame (dest : Path) (t t' : Tree) : Prop where
  nodes : ∀ q, ¬ Inside dest q → t'.nodes q = t.nodes q
  files : ∀ q i, ¬ Inside dest q → t.nodes q = some (.file i) → t'.files i = t.files i
  dirs : ∀ p, isDir t p = true → isDir t' p = true

theorem Frame.refl (dest : Path) (t : Tree) : Frame dest t t :=
  ⟨fun _ _ => rfl, fun _ _ _ _ => rfl, fun _ h => h⟩

theorem Frame.trans (h : Frame dest t t') (h' : Frame dest t' t'') : Frame dest t t'' where
  nodes q hq := (h'.nodes q hq).trans (h.nodes q hq)
  files q i hq hi := (h'.files q i hq ((h.nodes q hq).trans hi)).trans (h.files q i hq hi)
  dirs p hp := h'.dirs p (h.dirs p hp)

theorem isDir_eq_true {p : Path} : isDir t p = true ↔ ∃ mode, t.nodes p = some (.dir mode) := by
  unfold isDir
  cases t.nodes p with
  | none => simp
  | some node => cases node <;> simp

/-- Resolution of a settled name in a confined tree stays below `dest`. -/
theorem resolve_inside (h : Confined dest t) {follow : Bool} : ∀ {limit : ℕ} {cur : Path}
    {names : List Name} {p : Place}, Inside dest cur → settled t dest cur names = true →
      resolve t follow limit cur names = .ok p → Inside dest p.path
  | limit, cur, [], p, hcur, _, hres => by
    rw [resolve] at hres
    split at hres
    · obtain rfl := Except.ok.inj hres
      exact hcur
    · cases hres
  | 0, _, _ :: _, _, _, _, hres => by
    rw [resolve] at hres
    cases hres
  | limit + 1, cur, name :: rest, p, hcur, hset, hres => by
    rw [resolve] at hres
    rw [settled] at hset
    by_cases hdot : name = ['.']
    · rw [if_pos hdot] at hres hset
      exact resolve_inside h hcur hset hres
    rw [if_neg hdot] at hres hset
    by_cases hparent : name = ['.', '.']
    · rw [if_pos hparent, Bool.and_eq_true] at hset
      rw [if_pos hparent] at hres
      exact resolve_inside h (of_decide_eq_true hset.1) hset.2 hres
    rw [if_neg hparent] at hres hset
    have hnext : Inside dest (cur ++ [name]) := hcur.append [name]
    cases hnode : t.nodes (cur ++ [name]) with
    | none =>
      rw [hnode] at hres
      dsimp only at hres
      split_ifs at hres
      obtain rfl := Except.ok.inj hres
      exact hnext
    | some node =>
      rw [hnode] at hres
      cases node with
      | dir mode =>
        rw [if_pos (isDir_eq_true.2 ⟨mode, hnode⟩)] at hset
        exact resolve_inside h hnext hset hres
      | file inode =>
        dsimp only at hres
        split_ifs at hres
        obtain rfl := Except.ok.inj hres
        exact hnext
      | symlink target =>
        have hrest : ['.', '.'] ∉ rest := by
          have hdir : ¬ isDir t (cur ++ [name]) = true := by
            rw [isDir_eq_true, hnode]
            rintro ⟨mode, hmode⟩
            cases hmode
          rw [if_neg hdir] at hset
          exact not_contains_iff.1 hset
        dsimp only at hres
        by_cases hlast : (decide (rest = []) && !follow) = true
        · rw [if_pos hlast] at hres
          obtain rfl := Except.ok.inj hres
          exact hnext
        · obtain ⟨habsolute, hlink⟩ := h.links _ target hnext hnode
          rw [List.dropLast_concat] at hlink
          rw [if_neg hlast, habsolute] at hres
          exact resolve_inside h hcur (settled_append hrest hlink) hres

end Confined

/-! ## Updates below `dest` -/

section Updates

/-- A node below `dest` that is no directory gives way to another. -/
theorem Confined.put (h : Confined dest t) {p : Path} {node : Option Node}
    {hfresh : ∀ i, node = some (.file i) → i < t.next} (hp : Inside dest p)
    (hdir : isDir t p = true → ∃ mode, node = some (.dir mode))
    (hlink : ∀ target, node = some (.symlink target) →
      target.absolute = false ∧ settled t dest p.dropLast target.names = true)
    (hfile : ∀ i, node = some (.file i) → ∀ q, ¬ Inside dest q → t.nodes q ≠ some (.file i)) :
    Confined dest (t.put p node hfresh) ∧ Frame dest t (t.put p node hfresh) := by
  have hnodes : ∀ q, (t.put p node hfresh).nodes q = if q = p then node else t.nodes q :=
    fun _ => rfl
  have hdirs : ∀ q, isDir t q = true → isDir (t.put p node hfresh) q = true := by
    intro q hq
    by_cases heq : q = p
    · subst heq
      rw [isDir_eq_true, hnodes, if_pos rfl]
      exact hdir hq
    · rw [isDir_eq_true] at hq ⊢
      rw [hnodes, if_neg heq]
      exact hq
  have houtside : ∀ q, ¬ Inside dest q → (t.put p node hfresh).nodes q = t.nodes q := by
    intro q hq
    rw [hnodes, if_neg fun heq : q = p => hq (heq ▸ hp)]
  refine ⟨⟨hdirs _ h.root, fun q target hq htarget => ?_, fun q r i hq hr hi => ?_⟩,
    houtside, fun _ _ _ _ => rfl, hdirs⟩
  · rw [hnodes] at htarget
    by_cases heq : q = p
    · rw [if_pos heq] at htarget
      obtain ⟨habsolute, hsettled⟩ := hlink target htarget
      exact ⟨habsolute, heq ▸ settled_mono hdirs hsettled⟩
    · rw [if_neg heq] at htarget
      obtain ⟨habsolute, hsettled⟩ := h.links q target hq htarget
      exact ⟨habsolute, settled_mono hdirs hsettled⟩
  · rw [houtside r hr]
    rw [hnodes] at hi
    by_cases heq : q = p
    · rw [if_pos heq] at hi
      exact hfile i hi r hr
    · rw [if_neg heq] at hi
      exact h.files q r i hq hr hi

theorem not_isDir_of_none {p : Path} (h : t.nodes p = none) : ¬ isDir t p = true := by
  rw [isDir_eq_true, h]
  rintro ⟨mode, hmode⟩
  cases hmode

theorem Confined.putDir (h : Confined dest t) {p : Path} (hp : Inside dest p) (mode : ℕ) :
    Confined dest (t.putDir p mode) ∧ Frame dest t (t.putDir p mode) :=
  h.put hp (fun _ => ⟨mode, rfl⟩) (fun _ hlink => by cases hlink) fun _ hfile => by cases hfile

theorem Confined.remove (h : Confined dest t) {p : Path} (hp : Inside dest p)
    (hdir : ¬ isDir t p = true) : Confined dest (t.remove p) ∧ Frame dest t (t.remove p) :=
  h.put hp (fun hd => absurd hd hdir) (fun _ hlink => by cases hlink) fun _ hfile => by cases hfile

theorem Confined.putSymlink (h : Confined dest t) {p : Path} (hp : Inside dest p)
    (hnone : t.nodes p = none) {target : PathName} (habsolute : target.absolute = false)
    (hsettled : settled t dest p.dropLast target.names = true) :
    Confined dest (t.putSymlink p target) ∧ Frame dest t (t.putSymlink p target) := by
  refine h.put hp (fun hd => absurd hd (not_isDir_of_none hnone)) (fun target' hlink => ?_)
    fun _ hfile => by cases hfile
  obtain rfl := Node.symlink.inj (Option.some.inj hlink)
  exact ⟨habsolute, hsettled⟩

theorem Confined.putLink (h : Confined dest t) {p q : Path} {inode : ℕ} (hp : Inside dest p)
    (hnone : t.nodes p = none) (hq : Inside dest q) (hfile : t.nodes q = some (.file inode)) :
    Confined dest (t.putLink p inode) ∧ Frame dest t (t.putLink p inode) := by
  rw [Tree.putLink, dif_pos (t.fresh q inode hfile)]
  refine h.put hp (fun hd => absurd hd (not_isDir_of_none hnone)) (fun _ hlink => by cases hlink)
    fun i hi r hr => ?_
  obtain rfl := Node.file.inj (Option.some.inj hi)
  exact h.files q r _ hq hr hfile

theorem Confined.putFile (h : Confined dest t) {p : Path} (hp : Inside dest p)
    (hnone : t.nodes p = none) (file : File) :
    Confined dest (t.putFile p file) ∧ Frame dest t (t.putFile p file) := by
  have hnodes : ∀ q, (t.putFile p file).nodes q
      = if q = p then some (.file t.next) else t.nodes q := fun _ => rfl
  have hother : ∀ q, q ≠ p → (t.putFile p file).nodes q = t.nodes q := fun q hq => by
    rw [hnodes, if_neg hq]
  have hdirs : ∀ q, isDir t q = true → isDir (t.putFile p file) q = true := by
    intro q hq
    rw [isDir_eq_true] at hq ⊢
    rw [hother q fun heq => ?_]
    · exact hq
    · rw [heq, hnone] at hq
      obtain ⟨mode, hmode⟩ := hq
      cases hmode
  have houtside : ∀ q, ¬ Inside dest q → (t.putFile p file).nodes q = t.nodes q :=
    fun q hq => hother q fun heq => hq (heq ▸ hp)
  refine ⟨⟨hdirs _ h.root, fun q target hq htarget => ?_, fun q r i hq hr hi => ?_⟩,
    houtside, fun q i hq hi => ?_, hdirs⟩
  · rw [hnodes] at htarget
    split_ifs at htarget
    · cases htarget
    obtain ⟨habsolute, hsettled⟩ := h.links q target hq htarget
    exact ⟨habsolute, settled_mono hdirs hsettled⟩
  · rw [houtside r hr]
    rw [hnodes] at hi
    split_ifs at hi
    · obtain rfl := Node.file.inj (Option.some.inj hi)
      exact fun hrfile => absurd (t.fresh r _ hrfile) (lt_irrefl _)
    · exact h.files q r i hq hr hi
  · show (if i = t.next then file else t.files i) = t.files i
    rw [if_neg (t.fresh q i hi).ne]

theorem Confined.writeFile (h : Confined dest t) {p : Path} {inode : ℕ} (hp : Inside dest p)
    (hfile : t.nodes p = some (.file inode)) (file : File) :
    Confined dest (t.writeFile inode file) ∧ Frame dest t (t.writeFile inode file) := by
  have hdirs : ∀ q, isDir t q = true → isDir (t.writeFile inode file) q = true := fun _ hq => hq
  refine ⟨⟨h.root, fun q target hq htarget => ?_, h.files⟩, fun _ _ => rfl, fun q i hq hi => ?_, hdirs⟩
  · obtain ⟨habsolute, hsettled⟩ := h.links q target hq htarget
    exact ⟨habsolute, settled_mono hdirs hsettled⟩
  · show (if i = inode then file else t.files i) = t.files i
    refine if_neg ?_
    rintro rfl
    exact h.files p q i hp hq hfile hi

end Updates

/-! ## Operations below `dest` -/

section Operations

variable {α β : Type}

@[simp] theorem exec_pure (a : α) (t : Tree) : Op.exec (pure a) t = (.ok a, t) := rfl

@[simp] theorem exec_throw (e : Errno) (t : Tree) : Op.exec (throw e : Op α) t = (.error e, t) := rfl

@[simp] theorem exec_modify (f : Tree → Tree) (t : Tree) :
    Op.exec (modifyThe Tree f) t = (.ok (), f t) := rfl

theorem exec_bind (x : Op α) (f : α → Op β) (t : Tree) :
    Op.exec (x >>= f) t = match Op.exec x t with
      | (.ok a, t') => Op.exec (f a) t'
      | (.error e, t') => (.error e, t') := by
  rcases hx : Op.exec x t with ⟨r, t'⟩
  have hrun : StateT.run (ExceptT.run x) t = (r, t') := hx
  show StateT.run (ExceptT.run (x >>= f)) t = _
  rw [ExceptT.run_bind, StateT.run_bind, hrun]
  cases r <;> rfl

theorem exec_tryCatch (x : Op α) (f : Errno → Op α) (t : Tree) :
    Op.exec (tryCatch x f) t = match Op.exec x t with
      | (.ok a, t') => (.ok a, t')
      | (.error e, t') => Op.exec (f e) t' := by
  rcases hx : Op.exec x t with ⟨r, t'⟩
  have hrun : StateT.run (ExceptT.run x) t = (r, t') := hx
  show StateT.run (ExceptT.run (ExceptT.tryCatch x f)) t = _
  rw [ExceptT.tryCatch, ExceptT.run_mk, StateT.run_bind]
  show (StateT.run (ExceptT.run x) t >>= _) = _
  rw [hrun]
  cases r <;> rfl

/-- From a confined tree the operation keeps to what is below `dest`. -/
def Keeps (dest : Path) (x : Op α) (t : Tree) : Prop :=
  Confined dest t → Confined dest (Op.exec x t).2 ∧ Frame dest t (Op.exec x t).2

theorem keeps_pure (a : α) : Keeps dest (pure a) t := fun h => ⟨h, .refl dest t⟩

theorem keeps_throw (e : Errno) : Keeps dest (throw e : Op α) t := fun h => ⟨h, .refl dest t⟩

theorem Keeps.bind {x : Op α} {f : α → Op β} (hx : Keeps dest x t)
    (hf : ∀ a t', Op.exec x t = (.ok a, t') → Keeps dest (f a) t') : Keeps dest (x >>= f) t := by
  intro h
  obtain ⟨hconfined, hframe⟩ := hx h
  rw [exec_bind]
  rcases hrun : Op.exec x t with ⟨e | a, t'⟩ <;> rw [hrun] at hconfined hframe
  · exact ⟨hconfined, hframe⟩
  · obtain ⟨hconfined', hframe'⟩ := hf a t' hrun hconfined
    exact ⟨hconfined', hframe.trans hframe'⟩

theorem Keeps.tryCatch {x : Op α} {f : Errno → Op α} (hx : Keeps dest x t)
    (hf : ∀ e t', Op.exec x t = (.error e, t') → Keeps dest (f e) t') :
    Keeps dest (tryCatch x f) t := by
  intro h
  obtain ⟨hconfined, hframe⟩ := hx h
  rw [exec_tryCatch]
  rcases hrun : Op.exec x t with ⟨e | a, t'⟩ <;> rw [hrun] at hconfined hframe
  · obtain ⟨hconfined', hframe'⟩ := hf e t' hrun hconfined
    exact ⟨hconfined', hframe.trans hframe'⟩
  · exact ⟨hconfined, hframe⟩

theorem keeps_modify {f : Tree → Tree} (h : Confined dest t → Confined dest (f t) ∧ Frame dest t (f t)) :
    Keeps dest (modifyThe Tree f) t := h

variable {limit : ℕ} {cur : Path} {path : List Name} {follow : Bool}

theorem exec_place : Op.exec (place limit cur follow path) t
    = match resolve t follow limit cur path with
      | .ok p => (.ok p, t)
      | .error e => (.error e, t) := by
  rw [place, exec_bind]
  show Op.exec (match resolve t follow limit cur path with
    | .ok p => pure p
    | .error e => throw e) t = _
  cases resolve t follow limit cur path <;> rfl

/-- What is found is there, and what is missing is not. -/
theorem nodes_of_resolve : ∀ {limit : ℕ} {cur : Path} {names : List Name} {p : Place},
    resolve t follow limit cur names = .ok p →
      match p with
      | .found q node => t.nodes q = some node
      | .missing q => t.nodes q = none
  | limit, cur, [], p, hres => by
    rw [resolve] at hres
    cases hnode : t.nodes cur with
    | none =>
      rw [hnode] at hres
      cases hres
    | some node =>
      rw [hnode] at hres
      obtain rfl := Except.ok.inj hres
      exact hnode
  | 0, _, _ :: _, _, hres => by
    rw [resolve] at hres
    cases hres
  | limit + 1, cur, name :: rest, p, hres => by
    rw [resolve] at hres
    by_cases hdot : name = ['.']
    · rw [if_pos hdot] at hres
      exact nodes_of_resolve hres
    rw [if_neg hdot] at hres
    by_cases hparent : name = ['.', '.']
    · rw [if_pos hparent] at hres
      exact nodes_of_resolve hres
    rw [if_neg hparent] at hres
    cases hnode : t.nodes (cur ++ [name]) with
    | none =>
      rw [hnode] at hres
      dsimp only at hres
      split_ifs at hres
      obtain rfl := Except.ok.inj hres
      exact hnode
    | some node =>
      rw [hnode] at hres
      cases node with
      | dir mode => exact nodes_of_resolve hres
      | file inode =>
        dsimp only at hres
        split_ifs at hres
        obtain rfl := Except.ok.inj hres
        exact hnode
      | symlink target =>
        dsimp only at hres
        by_cases hlast : (decide (rest = []) && !follow) = true
        · rw [if_pos hlast] at hres
          obtain rfl := Except.ok.inj hres
          exact hnode
        · rw [if_neg hlast] at hres
          exact nodes_of_resolve hres

/-- An operation on the place of a settled name. -/
theorem keeps_place {f : Place → Op α} (hcur : Inside dest cur) (hset : settled t dest cur path = true)
    (hf : ∀ p, resolve t follow limit cur path = .ok p → Inside dest p.path → Keeps dest (f p) t) :
    Keeps dest (place limit cur follow path >>= f) t := by
  intro h
  refine Keeps.bind (fun h => ?_) (fun p t' hrun => ?_) h
  · rw [exec_place]
    cases resolve t follow limit cur path <;> exact ⟨h, .refl dest t⟩
  · rw [exec_place] at hrun
    cases hres : resolve t follow limit cur path with
    | error e =>
      rw [hres] at hrun
      cases hrun
    | ok q =>
      rw [hres] at hrun
      obtain ⟨hq, rfl⟩ := Prod.mk.inj hrun
      obtain rfl := Except.ok.inj hq
      exact hf _ hres (resolve_inside h hcur hset hres)

theorem exec_exists : Op.exec (exists? limit cur follow path) t =
    (.ok (isThere t follow limit cur path), t) := by
  have hget : Op.exec (getThe Tree) t = (.ok t, t) := rfl
  rw [exists?, exec_bind, hget, isThere]
  dsimp only
  split <;> rfl

/-- What is there is found, and nothing changes. -/
theorem keeps_exists {f : Bool → Op α} (hf : Keeps dest (f (isThere t follow limit cur path)) t) :
    Keeps dest (exists? limit cur follow path >>= f) t := by
  refine Keeps.bind (fun h => ?_) fun there t' hrun => ?_
  · rw [exec_exists]
    exact ⟨h, .refl dest t⟩
  · rw [exec_exists] at hrun
    obtain ⟨hthere, rfl⟩ := Prod.mk.inj hrun
    exact Except.ok.inj hthere ▸ hf

theorem isLink_eq_true : isLink t limit cur path = true ↔
    ∃ q target, resolve t false limit cur path = .ok (.found q (.symlink target)) := by
  unfold isLink
  split
  · rename_i q target hres
    exact iff_of_true rfl ⟨q, target, hres⟩
  · rename_i hnone
    refine iff_of_false (by simp) ?_
    rintro ⟨q, target, hres⟩
    exact hnone q target hres

theorem keeps_mkdir (hcur : Inside dest cur) (hset : settled t dest cur path = true) {mode : ℕ} :
    Keeps dest (mkdir limit cur path mode) t := by
  refine keeps_place hcur hset fun p _ hp => ?_
  cases p with
  | found q node => exact keeps_throw _
  | missing q => exact keeps_modify fun h => h.putDir hp mode

theorem keeps_openWrite (hcur : Inside dest cur) (hset : settled t dest cur path = true)
    {content : List UInt8} : Keeps dest (openWrite limit cur path content) t := by
  refine keeps_place hcur hset fun p hres hp => ?_
  have hnode := nodes_of_resolve hres
  cases p with
  | missing q => exact keeps_modify fun h => h.putFile hp hnode _
  | found q node =>
    cases node with
    | file inode => exact keeps_modify fun h => h.writeFile hp hnode _
    | dir mode => exact keeps_throw _
    | symlink target => exact keeps_throw _

theorem keeps_unlink (hcur : Inside dest cur) (hset : settled t dest cur path = true) :
    Keeps dest (unlink limit cur path) t := by
  refine keeps_place hcur hset fun p hres hp => ?_
  have hnode := nodes_of_resolve hres
  have hremove : ∀ {q : Path} {node : Node}, Inside dest q → t.nodes q = some node →
      (∀ mode, node ≠ .dir mode) → Keeps dest (modifyThe Tree (·.remove q)) t := by
    intro q node hq hnode hdir
    refine keeps_modify fun h => h.remove hq fun hd => ?_
    obtain ⟨mode, hmode⟩ := isDir_eq_true.1 hd
    exact hdir mode (Option.some.inj (hnode.symm.trans hmode))
  cases p with
  | missing q => exact keeps_throw _
  | found q node =>
    cases node with
    | dir mode => exact keeps_throw _
    | file inode => exact hremove hp hnode fun mode hmode => by cases hmode
    | symlink target => exact hremove hp hnode fun mode hmode => by cases hmode

theorem keeps_symlink {target : PathName} (hcur : Inside dest cur)
    (hset : settled t dest cur path = true) (habsolute : target.absolute = false)
    (htarget : ∀ q, resolve t false limit cur path = .ok (.missing q) →
      settled t dest q.dropLast target.names = true) :
    Keeps dest (symlink limit cur target path) t := by
  refine keeps_place hcur hset fun p hres hp => ?_
  have hnode := nodes_of_resolve hres
  cases p with
  | found q node => exact keeps_throw _
  | missing q =>
    exact keeps_modify fun h => h.putSymlink hp hnode habsolute (htarget q hres)

theorem keeps_link {source : List Name} (hcur : Inside dest cur)
    (hset : settled t dest cur path = true) (hsource : settled t dest cur source = true)
    (hfile : isLink t limit cur source = false) :
    Keeps dest (link limit cur source path) t := by
  refine keeps_place hcur hsource fun p hres hp => ?_
  have hnode := nodes_of_resolve hres
  cases p with
  | missing q => exact keeps_throw _
  | found q node =>
    cases node with
    | dir mode => exact keeps_throw _
    | symlink target =>
      rw [isLink_eq_true.2 ⟨q, target, hres⟩] at hfile
      cases hfile
    | file inode =>
      refine keeps_place hcur hset fun r hres' hr => ?_
      have hnone := nodes_of_resolve hres'
      cases r with
      | found r node => exact keeps_throw _
      | missing r => exact keeps_modify fun h => h.putLink hr hnone hp hnode

theorem keeps_chmod (hcur : Inside dest cur) (hset : settled t dest cur path = true) {mode : ℕ} :
    Keeps dest (chmod limit cur path mode) t := by
  refine keeps_place hcur hset fun p hres hp => ?_
  have hnode := nodes_of_resolve hres
  cases p with
  | missing q => exact keeps_throw _
  | found q node =>
    cases node with
    | dir _ => exact keeps_modify fun h => h.putDir hp mode
    | file inode => exact keeps_modify fun h => h.writeFile hp hnode _
    | symlink target => exact keeps_throw _

theorem keeps_makedirs (hcur : Inside dest cur) : ∀ {names : List Name} {t : Tree},
    ['.', '.'] ∉ names → Keeps dest (makedirs limit cur names) t
  | [], _, _ => keeps_throw _
  | tail :: head, t, hnames => by
    have hhead : ['.', '.'] ∉ head := fun h => hnames (List.mem_cons_of_mem _ h)
    have hall : ['.', '.'] ∉ head.reverse ++ [tail] := by
      rw [List.mem_append, List.mem_reverse, List.mem_singleton, not_or]
      exact ⟨hhead, fun h => hnames (h ▸ List.mem_cons_self)⟩
    have hmkdir : ∀ {t : Tree}, Keeps dest (mkdir limit cur (head.reverse ++ [tail]) 0o777) t :=
      keeps_mkdir hcur (settled_of_no_parent hall)
    rw [makedirs]
    refine keeps_exists ?_
    cases isThere t true limit cur head.reverse with
    | true => exact hmkdir
    | false =>
      refine Keeps.bind ((keeps_makedirs hcur hhead).tryCatch fun e t'' _ => ?_) fun _ t'' _ => ?_
      · split_ifs
        · exact keeps_pure _
        · exact keeps_throw _
      · split_ifs
        · exact hmkdir
        · exact keeps_pure _

end Operations

end Posix
