import Jumpship.Proofs.JournalAgreement

/-!
# The journal across interruptions

Executions of `apply_request` on one accepted request, interleaved and killed anywhere. An execution
writes the journal under the lock alone, and a receipt only where there is none; so each keeps
`Guarantee`, whatever the others do within `Rely` (`agreed`), and every run the invariant
(`applyRequest_journal`).
-/

namespace DependencyLocks

open Py Processes

/-! ## Before the lock -/

section Before

variable (a : Accepted) (e : ℕ)

/-- An assertion that lasts, and that an exception can be raised from. -/
structure Frame (pre raised : World → Prop) : Prop where
  steady : Steady a e pre
  raises : ∀ w, pre w → raised w

variable {a e} {pre raised : World → Prop} {α β : Type}

theorem Frame.reads (h : Frame a e pre raised) {p : Proc α} (hp : OnlyReads p) {f : α → Proc β}
    {post : β → World → Prop} (hf : ∀ x, Does a e pre (f x) post raised) :
    Does a e pre (p >>= f) post raised :=
  does_bind (hp.does h.steady h.raises) hf

theorem Frame.require (h : Frame a e pre raised) {condition : Bool} {f : Unit → Proc β}
    {post : β → World → Prop} (hf : condition = true → Does a e pre (f ()) post raised) :
    Does a e pre (require condition >>= f) post raised := by
  unfold DependencyLocks.require
  split_ifs with hc
  · exact hf hc
  · exact triple_raise _ h.steady h.raises

theorem Frame.pure (h : Frame a e pre raised) (x : α) :
    Does a e pre (Pure.pure x : Proc α) (fun _ => pre) raised :=
  triple_pure x h.steady fun _ hw => hw

theorem frame_true : Frame a e (fun _ => True) fun _ => True :=
  ⟨fun _ _ _ _ _ => trivial, fun _ _ => trivial⟩

/-- The value of the request file: the accepted request, or one that is applied. -/
def Accepted.Known (a : Accepted) (v : Value) : Prop :=
  v = .obj a.request ∨ ∃ d : Dict, v = .obj d ∧ d.lookup (str "status") = some (text "applied")

theorem known_of_content {w : World} (h : Invariant a w) {content : Bytes}
    (hw : w.content a.requestPath = some content) {v : Value} (hv : loadBytes content = some v) :
    a.Known v := by
  obtain hrequest | ⟨hrequest, -⟩ := h.request
  · obtain rfl : a.bytes = content := Option.some.inj (hrequest.symm.trans hw)
    exact .inl (Option.some.inj (hv.symm.trans a.loaded))
  · obtain rfl : a.appliedBytes = content := Option.some.inj (hrequest.symm.trans hw)
    obtain ⟨d, hd, hstatus⟩ := a.loadBytes_appliedBytes
    exact .inr ⟨d, Option.some.inj (hv.symm.trans hd), hstatus⟩

/-- What a file holds is what is read of it. -/
theorem readBytes_eq {w : World} {c : Choice} {path : Path} {content answer : Bytes}
    (hw : w.content path = some content)
    (h : (perform e c w (.readBytes path)).1 = .ok answer) : answer = content := by
  unfold World.content at hw
  split at hw
  · rename_i hfile
    simp only [perform, hfile] at h
    exact (Except.ok.inj h).symm.trans (Option.some.inj hw)
  · cases hw

theorem steady_const (p : Prop) : Steady a e fun _ => p := fun _ _ hp _ _ => hp

theorem does_loadJsonYaml : Does a e (fun _ => True) (loadJsonYaml a.requestPath)
    (fun v _ => a.Known v) fun _ => True := by
  refine does_bind (m := fun bytes _ => ∀ v, loadBytes bytes = some v → a.Known v) ?_
    fun bytes => ?_
  · refine triple_except Rely.refl (?_ : Does a e _ _ _ fun _ => True) fun exc =>
      triple_raise _ frame_true.steady fun _ _ => trivial
    refine does_read rfl frame_true.steady (fun _ => steady_const _) frame_true.steady
      (fun _ _ => trivial) fun c w bytes hi _ hread => ?_
    obtain ⟨content, hcontent⟩ := hi.content
    obtain rfl := readBytes_eq hcontent hread
    exact fun v => known_of_content hi hcontent
  · split
    · rename_i v hv
      exact triple_pure v (steady_const _) fun _ h => h v hv
    · exact triple_raise _ (steady_const _) fun _ _ => trivial

theorem does_validateRequest (fieldErrors : Str → Value → List Str) :
    Does a e (fun _ => True) (validateRequest fieldErrors a.root a.requestPath)
      (fun v _ => a.Known v) fun _ => True := by
  refine frame_true.reads (onlyReads_sys rfl) fun symlink => frame_true.require fun _ =>
    frame_true.reads (onlyReads_sys rfl) fun resolved =>
    frame_true.reads (onlyReads_sys rfl) fun resolvedRoot => ?_
  split
  · exact triple_raise _ frame_true.steady fun _ _ => trivial
  · refine frame_true.require fun _ =>
      frame_true.reads (onlyReads_requestErrors fieldErrors _) fun errors =>
      does_bind does_loadJsonYaml fun request => ?_
    have hknown : Frame a e (fun _ => a.Known request) fun _ => True :=
      ⟨steady_const _, fun _ _ => trivial⟩
    have hfinish : ∀ lifecycle : List Str, Does a e (fun _ => a.Known request)
        (do require (errors = [] && lifecycle = []); pure request) (fun v _ => a.Known v)
        fun _ => True := fun lifecycle => hknown.require fun _ =>
      triple_pure request hknown.steady fun _ h => h
    dsimp only
    split
    · exact hknown.reads (onlyReads_requestLifecycleErrors _ _) hfinish
    · exact hfinish []

end Before

/-! ## Under the lock, before the receipt -/

section Locked

variable (a : Accepted) (e : ℕ)

def Held (w : World) : Prop := w.lock = some e

def Absent (w : World) : Prop := w.lock = some e ∧ w.files a.receiptPath = none

variable {a e} {α : Type}

/-- Under the lock nobody else touches the receipt. -/
theorem steady_receipt (Q : Option Node → Prop) :
    Steady a e fun w => w.lock = some e ∧ Q (w.files a.receiptPath) := by
  intro w w' hw hr _
  refine ⟨hr.lock.2 hw.1, ?_⟩
  rw [(hr.locked hw.1).2]
  exact hw.2

theorem steady_held : Steady a e (Held e) := fun _ _ hw hr _ => hr.lock.2 hw

theorem frame_held : Frame a e (Held e) (Held e) := ⟨steady_held, fun _ h => h⟩

theorem frame_absent_and (p : Prop) : Frame a e (fun w => Absent a e w ∧ p) (Held e) :=
  ⟨fun w w' hw hr hi => ⟨steady_receipt (· = none) w w' hw.1 hr hi, hw.2⟩, fun _ h => h.1.1⟩

theorem steady_absent : Steady a e (Absent a e) := steady_receipt (· = none)

theorem frame_absent : Frame a e (Absent a e) (Held e) := ⟨steady_absent, fun _ hw => hw.1⟩

theorem does_ensureReceiptAbsent : Does a e (Held e) (ensureReceiptAbsent a.receiptPath)
    (fun _ => Absent a e) (Held e) := by
  let Missing : Option Node → Prop := fun node => node = none ∨ node = some .symlink
  have hexists : Does a e (Held e) (exists_ a.receiptPath) (fun present w =>
      Held e w ∧ (present = false → Missing (w.files a.receiptPath))) (Held e) := by
    refine does_read rfl steady_held
      (fun present => steady_receipt fun node => present = false → Missing node) steady_held
      (fun _ h => h) fun c w present hi hw hread => ⟨hw, fun hpresent => ?_⟩
    rcases hfile : w.files a.receiptPath with _ | _ | _ | _
    · exact .inl rfl
    · simp only [perform, hfile, hpresent] at hread
      cases Except.ok.inj hread
    · simp only [perform, hfile, hpresent] at hread
      cases Except.ok.inj hread
    · exact .inr rfl
  have hsymlink : Does a e (fun w => Held e w ∧ Missing (w.files a.receiptPath))
      (isSymlink a.receiptPath) (fun present w => Held e w ∧
        (present = false → w.files a.receiptPath = none)) (Held e) := by
    refine does_read rfl (steady_receipt Missing)
      (fun present => steady_receipt fun node => present = false → node = none) steady_held
      (fun _ h => h.1) fun c w present hi hw hread => ⟨hw.1, fun hpresent => ?_⟩
    obtain hfile | hfile := hw.2
    · exact hfile
    · simp only [perform, hfile, hpresent] at hread
      cases Except.ok.inj hread
  have hpresent : Does a e (Held e) (pathPresent a.receiptPath) (fun present w => Held e w ∧
      (present = false → w.files a.receiptPath = none)) (Held e) := by
    refine does_bind hexists fun present => ?_
    cases present
    · exact hsymlink.mono (fun w h => ⟨h.1, h.2 rfl⟩) (fun _ _ h => h) fun _ h => h
    · exact triple_pure true (steady_receipt fun node => true = false → Missing node)
        fun w h => ⟨h.1, by simp⟩
  have hsteady : ∀ present : Bool, Steady a e fun w => Held e w ∧
      (present = false → w.files a.receiptPath = none) :=
    fun present => steady_receipt fun node => present = false → node = none
  refine does_bind hpresent fun present => ?_
  unfold require
  cases present
  · exact triple_pure () (hsteady false) fun w h => ⟨h.1, h.2 rfl⟩
  · exact triple_raise _ (hsteady true) fun w h => h.1

/-- Beside no receipt the request file is the accepted one. -/
theorem does_requireDigest (sha256 : Str) :
    Does a e (Absent a e) (requireDigest a.requestPath sha256)
      (fun _ w => Absent a e w ∧ sha256 = digestBytes a.bytes) (Held e) := by
  have h := frame_absent (a := a) (e := e)
  have hbytes : Does a e (Absent a e) (sys (.readBytes a.requestPath))
      (fun bytes w => Absent a e w ∧ bytes = a.bytes) (Held e) :=
    does_read rfl h.steady (fun _ => (frame_absent_and _).steady) steady_held h.raises
      fun c w bytes hi hw hread => ⟨hw, readBytes_eq (hi.accepted hw.2) hread⟩
  have hdigest : Does a e (Absent a e) (digestFile a.requestPath)
      (fun digest w => Absent a e w ∧ digest = digestBytes a.bytes) (Held e) :=
    does_bind hbytes fun bytes => triple_pure (digestBytes bytes) (frame_absent_and _).steady
      fun w hw => ⟨hw.1, by rw [hw.2]⟩
  refine h.reads (onlyReads_sys rfl) fun symlink => h.require fun _ =>
    h.reads (onlyReads_sys rfl) fun file => h.require fun _ => does_bind hdigest fun digest => ?_
  unfold require
  split_ifs with hsame
  · exact triple_pure () (frame_absent_and _).steady fun w hw => ⟨hw.1, by
      rw [← hw.2, of_decide_eq_true hsame]⟩
  · exact triple_raise _ (frame_absent_and _).steady fun w hw => hw.1.1

/-- The compare-and-swap reads, and what it finds in the request file is kept. -/
theorem does_finalApplyCas {pre middle : World → Prop} (hpre : Frame a e pre (Held e))
    (hmiddle : Frame a e middle (Held e)) {sha256 : Str}
    (hdigest : Does a e pre (requireDigest a.requestPath sha256) (fun _ => middle) (Held e))
    {root : Path} {commit : Str} {changedLocks : List Str} {receiptPath : Path}
    {expectedStatusPaths : List Str} {expectedReceiptSha256 : Option Str} :
    Does a e pre (finalApplyCas root a.requestPath sha256 commit changedLocks receiptPath
      expectedStatusPaths expectedReceiptSha256) (fun _ => middle) (Held e) := by
  refine hpre.reads (onlyReads_preflight _ _) fun _ => hpre.reads (onlyReads_stripped _) fun _ =>
    hpre.require fun _ => hpre.reads (onlyReads_stripped _) fun _ => hpre.require fun _ =>
    hpre.reads onlyReads_statusPaths fun _ => hpre.require fun _ => does_bind hdigest fun _ => ?_
  split
  · exact triple_raise _ hmiddle.steady hmiddle.raises
  refine hmiddle.reads (onlyReads_sys rfl) fun _ => hmiddle.require fun _ =>
    hmiddle.reads (onlyReads_forEach (fun relative => ?_) _) fun _ => ?_
  · refine (onlyReads_sys (o := .gitShow _ _) rfl).bind fun committed => ?_
    cases committed
    · trivial
    · exact onlyReads_requireDigest _ _
  · refine OnlyReads.does ?_ hmiddle.steady hmiddle.raises
    split
    · exact onlyReads_ensureReceiptAbsent _
    · exact onlyReads_requireDigest _ _

end Locked

/-! ## Writing -/

section Writing

@[simp] theorem setFile_self (w : World) (path : Path) (node : Option Node) :
    (w.setFile path node).files path = node := by
  simp [World.setFile]

@[simp] theorem setFile_ne (w : World) {path other : Path} (h : other ≠ path)
    (node : Option Node) : (w.setFile path node).files other = w.files other := by
  simp [World.setFile, h]

@[simp] theorem setFile_lock (w : World) (path : Path) (node : Option Node) :
    (w.setFile path node).lock = w.lock := rfl

@[simp] theorem setFile_handle (w : World) (path : Path) (node : Option Node) :
    (w.setFile path node).handle = w.handle := rfl

@[simp] theorem setFile_creator (w : World) (path : Path) (node : Option Node) :
    (w.setFile path node).creator = w.creator := rfl

variable {a : Accepted} {e : ℕ} {pre raised : World → Prop}

/-- A file beside the journal's two, or one that is not there. -/
theorem Guarantee.setFile {w : World} {path : Path} {node : Option Node}
    (hrequest : path ≠ a.requestPath) (hreceipt : path ≠ a.receiptPath)
    (h : w.lock = some e ∨ w.files path = none) : Guarantee a e w (w.setFile path node) := by
  refine .of_same (setFile_ne w hrequest.symm node) (setFile_ne w hreceipt.symm node) ?_ rfl id
    (fun _ _ => rfl) (.inl rfl)
  intro hlock other hother
  refine setFile_ne w (fun heq => ?_) node
  rw [heq, h.resolve_left hlock] at hother
  cases hother

theorem Invariant.setFile {w : World} (h : Invariant a w) {path : Path} {node : Option Node}
    (hrequest : path ≠ a.requestPath) (hreceipt : path ≠ a.receiptPath) :
    Invariant a (w.setFile path node) :=
  h.of_same (setFile_ne w hrequest.symm node) (setFile_ne w hreceipt.symm node)

theorem does_makeDirectory (h : Frame a e pre raised) {path : Path} (hpath : path ≠ a.receiptPath)
    (hpre : ∀ w, pre w → pre (w.setFile path (some .directory))) :
    Does a e pre (makeDirectory path) (fun _ => pre) raised := by
  refine triple_except Rely.refl (?_ : Does a e _ _ _ pre) fun exc => ?_
  · refine does_sys h.steady (fun _ => h.steady) h.steady (fun _ hw => hw)
      fun c w r w' hi hw hact => ?_
    rcases hfile : w.files path with _ | node
    · have hrequest : path ≠ a.requestPath := by
        rintro rfl
        have := hi.isSome
        rw [hfile] at this
        cases this
      simp only [perform, hfile] at hact
      obtain ⟨rfl, rfl⟩ := Prod.mk.inj hact
      exact ⟨hi.setFile hrequest hpath, .setFile hrequest hpath (.inr hfile), hpre w hw⟩
    · simp only [perform, hfile] at hact
      obtain ⟨rfl, rfl⟩ := Prod.mk.inj hact
      exact ⟨hi, .refl w, hw⟩
  · split_ifs
    · exact h.pure ()
    · exact triple_raise _ h.steady h.raises

theorem does_forEach {α : Type} (h : Frame a e pre raised) {body : α → Proc Unit} {xs : List α}
    (hbody : ∀ x ∈ xs, Does a e pre (body x) (fun _ => pre) raised) :
    Does a e pre (forEach body xs) (fun _ => pre) raised := by
  induction xs with
  | nil => exact h.pure ()
  | cons x xs ih =>
    obtain ⟨hx, hxs⟩ := List.forall_mem_cons.1 hbody
    exact does_bind hx fun _ => ih hxs

theorem does_ensureSafeRepositoryDirectory (h : Frame a e pre raised)
    (hpre : ∀ w path, path ≠ a.receiptPath → pre w → pre (w.setFile path (some .directory))) :
    Does a e pre (ensureSafeRepositoryDirectory a.root (parent a.receiptPath)) (fun _ => pre)
      raised := by
  refine h.reads (onlyReads_safeApplyPaths _) fun _ => ?_
  split
  · exact triple_raise _ h.steady h.raises
  rename_i relative hrelative
  refine h.reads (onlyReads_sys rfl) fun _ => h.require fun _ => does_forEach h fun path hpath => ?_
  -- The directories are shorter than the receipt's path.
  have hlength : path.length < a.receiptPath.length := by
    obtain ⟨part, hpart, rfl⟩ := List.mem_map.1 hpath
    have hprefix := (List.mem_inits _ _).1 (List.mem_of_mem_tail hpart)
    unfold relativeTo at hrelative
    split_ifs at hrelative with hroot
    have hroot := (List.isPrefixOf_iff_prefix.1 hroot).length_le
    have hdrop := congrArg List.length (Option.some.inj hrelative)
    have hparent : (parent a.receiptPath).length = a.receiptPath.length - 1 :=
      List.length_dropLast
    have hpos : 0 < a.receiptPath.length := by simp [Accepted.receiptPath]
    have := hprefix.length_le
    simp only [List.length_drop, List.length_append] at *
    omega
  have hne : path ≠ a.receiptPath := fun heq => absurd hlength (heq ▸ lt_irrefl _)
  exact does_bind (does_makeDirectory h hne fun w => hpre w path hne) fun _ =>
    h.reads (onlyReads_sys rfl) fun _ => OnlyReads.does (onlyReads_require _) h.steady h.raises

variable (a e) in
/-- The execution holds the lock and has created a receipt beside the accepted request. -/
structure Owned (Q : Node → Prop) (w : World) : Prop where
  lock : w.lock = some e
  request : w.content a.requestPath = some a.bytes
  creator : w.creator a.receiptPath = some e
  receipt : ∃ node, w.files a.receiptPath = some node ∧ Q node

theorem Owned.isSome {Q : Node → Prop} {w : World} (h : Owned a e Q w) :
    (w.files a.receiptPath).isSome := by
  obtain ⟨node, hnode, -⟩ := h.receipt
  rw [hnode]
  rfl

theorem steady_owned (Q : Node → Prop) : Steady a e (Owned a e Q) := by
  intro w w' hw hr _
  obtain ⟨hfiles, hreceipt⟩ := hr.locked hw.lock
  have hrequest := hfiles a.requestPath a.isJournal_requestPath (isSome_of_content hw.request)
  refine ⟨hr.lock.2 hw.lock, ?_, (hr.creator hw.isSome).trans hw.creator, ?_⟩
  · rw [World.content, hrequest]
    exact hw.request
  · rw [hreceipt]
    exact hw.receipt

theorem frame_owned (Q : Node → Prop) : Frame a e (Owned a e Q) (Held e) :=
  ⟨steady_owned Q, fun _ h => h.lock⟩

variable (e) in
/-- The execution has this file open, and so much of it written. -/
structure Open (P : World → Prop) (path : Path) (content : Bytes) (w : World) : Prop where
  handle : w.handle e = some path
  file : w.files path = some (.file content 1)
  frame : P w

variable (a e) in
/-- What makes it right to write a file of the journal. -/
structure Writable (P : World → Prop) (path : Path) : Prop where
  frame : Frame a e P (Held e)
  journal : isJournal a.requestPath a.receiptPath path = true
  write : ∀ w content content', Invariant a w → Open e P path content w →
    Invariant a (w.setFile path (some (.file content' 1))) ∧
      Guarantee a e w (w.setFile path (some (.file content' 1))) ∧
      P (w.setFile path (some (.file content' 1)))
  close : ∀ w, P w → P (w.setHandle e none)

theorem Writable.steady_file {P : World → Prop} {path : Path} (h : Writable a e P path)
    (content : Bytes) :
    Steady a e fun w => w.files path = some (.file content 1) ∧ P w := by
  rintro w w' ⟨hfile, hframe⟩ hr hi
  refine ⟨?_, h.frame.steady w w' hframe hr hi⟩
  rw [(hr.locked (h.frame.raises w hframe)).1 path h.journal (by rw [hfile]; rfl), hfile]

theorem Writable.frame_open {P : World → Prop} {path : Path} (h : Writable a e P path)
    (content : Bytes) : Frame a e (Open e P path content) (Held e) := by
  refine ⟨fun w w' hw hr hi => ?_, fun w hw => h.frame.raises w hw.frame⟩
  obtain ⟨hfile, hframe⟩ := h.steady_file content w w' ⟨hw.file, hw.frame⟩ hr hi
  exact ⟨hr.handle.trans hw.handle, hfile, hframe⟩

/-- Every `write` goes on where the last one stopped. -/
theorem Writable.writeAll {P : World → Prop} {path : Path} (h : Writable a e P path)
    (fuel : ℕ) (data content : Bytes) (hfuel : data.length ≤ fuel) :
    Does a e (Open e P path content) (writeAll fuel data)
      (fun _ => Open e P path (content ++ data)) (Held e) := by
  induction fuel generalizing data content with
  | zero =>
    obtain rfl := List.eq_nil_of_length_eq_zero (Nat.le_zero.1 hfuel)
    rw [List.append_nil]
    exact (h.frame_open content).pure ()
  | succ fuel ih =>
    rcases data with _ | ⟨b, data⟩
    · rw [List.append_nil]
      exact (h.frame_open content).pure ()
    let part : ℕ → Bytes := fun count => (b :: data).take count
    have hwrite : Does a e (Open e P path content) (sys (.write (b :: data)))
        (fun (count : ℕ) w => Open e P path (content ++ part count) w ∧ 0 < count)
        (Held e) := by
      refine does_sys (h.frame_open content).steady (fun count => ?_) steady_held
        (h.frame_open content).raises fun c w r w' hi hw hact => ?_
      · exact fun w w' hw hr hi => ⟨(h.frame_open _).steady w w' hw.1 hr hi, hw.2⟩
      · simp only [perform, World.write, hw.handle, hw.file] at hact
        obtain ⟨rfl, rfl⟩ := Prod.mk.inj hact
        obtain ⟨hi', hg, hframe⟩ := h.write w content (content ++ part _) hi hw
        exact ⟨hi', hg, ⟨hw.handle, setFile_self .., hframe⟩, by simp⟩
    refine does_bind hwrite fun (count : ℕ) => ?_
    by_cases hcount : 0 < count
    · have hrest := ih ((b :: data).drop count) (content ++ part count) (by
        rw [List.length_drop, List.length_cons] at *
        omega)
      rw [List.append_assoc, List.take_append_drop] at hrest
      exact hrest.mono (fun w hw => hw.1) (fun _ _ hw => hw) fun _ hw => hw
    · exact fun w _ hw => absurd hw.2 hcount

theorem Invariant.setHandle {w : World} (h : Invariant a w) :
    Invariant a (w.setHandle e none) := h.of_same rfl rfl

theorem Guarantee.setHandle (w : World) : Guarantee a e w (w.setHandle e none) :=
  .of_same rfl rfl (fun _ _ _ => rfl) rfl (fun h => by simp [World.setHandle] at h)
    (fun e' he' => by simp [World.setHandle, he']) (.inl rfl)

theorem does_close {post raised : World → Prop} (hpre : Frame a e pre raised)
    (hraised : Steady a e raised) (hpost : Steady a e post)
    (h : ∀ w, pre w → post (w.setHandle e none)) :
    Does a e pre (sys .close) (fun _ => post) raised := by
  refine does_sys hpre.steady (fun _ => hpost) hraised hpre.raises fun c w r w' hi hw hact => ?_
  simp only [perform] at hact
  obtain ⟨rfl, rfl⟩ := Prod.mk.inj hact
  exact ⟨hi.setHandle, .setHandle w, h w hw⟩

/-- A file that was just created is written completely, or the execution raises. -/
theorem Writable.writeHandle {P : World → Prop} {path : Path} (h : Writable a e P path)
    (value : Value) : Does a e (Open e P path []) (writeHandle value)
      (fun _ w => w.files path = some (.file (canonicalBytes value) 1) ∧ P w) (Held e) := by
  have hbody : Does a e (Open e P path [])
      (do
        let metadata ← sys .fstat
        require (isPrivateRegular metadata)
        DependencyLocks.writeAll (canonicalBytes value).length (canonicalBytes value)
        sys .fsync)
      (fun _ => Open e P path (canonicalBytes value)) (Held e) :=
    (h.frame_open []).reads (onlyReads_sys rfl) fun metadata => (h.frame_open []).require fun _ =>
      does_bind (h.writeAll _ _ [] le_rfl) fun _ =>
        (onlyReads_sys (o := .fsync) rfl).does (h.frame_open _).steady (h.frame_open _).raises
  refine triple_finally Rely.refl hbody (fun _ => ?_) ?_ (fun _ => h.steady_file _) steady_held
  · exact does_close (h.frame_open _) steady_held (h.steady_file _) fun w hw =>
      ⟨hw.file, h.close w hw.frame⟩
  · exact does_close frame_held steady_held steady_held fun _ hw => hw

/-- `os.open` with `O_EXCL`: only where there is no file yet. -/
theorem Writable.createExclusive {P : World → Prop} {path : Path} (h : Writable a e P path)
    (hpre : Frame a e pre (Held e))
    (hcreate : ∀ w, Invariant a w → pre w → w.files path = none →
      ∀ w', w' = ((w.setFile path (some (.file [] 1))).setHandle e (some path)).setCreator path e →
        Invariant a w' ∧ Guarantee a e w w' ∧ P w') :
    Does a e pre (sys (.createExclusive path)) (fun _ => Open e P path []) (Held e) := by
  refine does_sys hpre.steady (fun _ => (h.frame_open []).steady) steady_held hpre.raises
    fun c w r w' hi hw hact => ?_
  rcases hfile : w.files path with _ | node
  · simp only [perform, hfile] at hact
    obtain ⟨rfl, rfl⟩ := Prod.mk.inj hact
    obtain ⟨hi', hg, hP⟩ := hcreate w hi hw hfile _ rfl
    exact ⟨hi', hg, ⟨by simp [World.setCreator, World.setHandle],
      by simp [World.setCreator, World.setHandle], hP⟩⟩
  · simp only [perform, hfile] at hact
    obtain ⟨rfl, rfl⟩ := Prod.mk.inj hact
    exact ⟨hi, .refl w, hpre.raises w hw⟩

/-! ### The receipt -/

theorem content_setFile_ne (w : World) {path other : Path} (h : other ≠ path)
    (node : Option Node) : (w.setFile path node).content other = w.content other := by
  rw [World.content, World.content, setFile_ne w h]

/-- Beside the accepted request anything may stand in the receipt. -/
theorem Invariant.of_request {w : World} (h : w.content a.requestPath = some a.bytes) :
    Invariant a w := ⟨.inl h⟩

theorem writable_receipt : Writable a e (Owned a e fun _ => True) a.receiptPath where
  frame := frame_owned _
  journal := a.isJournal_receiptPath
  write := fun w content content' hi hw => by
    have hrequest : ∀ node, (w.setFile a.receiptPath node).content a.requestPath = some a.bytes :=
      fun node => (content_setFile_ne w a.receiptPath_ne.symm node).trans hw.frame.request
    refine ⟨.of_request (hrequest _), ?_, ⟨hw.frame.lock, hrequest _, hw.frame.creator, _,
      setFile_self .., trivial⟩⟩
    exact
      { present := fun _ => by rw [setFile_self]; rfl
        creator := fun _ => rfl
        unlocked := fun h => absurd hw.frame.lock h
        foreign := fun _ h => absurd hw.frame.creator h
        closed := fun _ h => absurd hw.handle h
        handle := fun _ _ => rfl
        lock := .inl rfl }
  close := fun w hw => ⟨hw.lock, hw.request, hw.creator, hw.receipt⟩

/-- The receipt is written, and complete if the execution goes on. -/
theorem does_writeExclusive (receipt : Value) :
    Does a e (Absent a e) (writeExclusive a.root a.receiptPath receipt)
      (fun _ => Owned a e fun node => node = .file (canonicalBytes receipt) 1) (Held e) := by
  have hcreate : Does a e (Absent a e) (sys (.createExclusive a.receiptPath))
      (fun _ => Open e (Owned a e fun _ => True) a.receiptPath []) (Held e) := by
    refine writable_receipt.createExclusive frame_absent fun w hi hw hfile w' hw' => ?_
    have hrequest : w'.content a.requestPath = some a.bytes := by
      subst hw'
      exact (content_setFile_ne w a.receiptPath_ne.symm _).trans (hi.accepted hfile)
    have hreceipt : w'.files a.receiptPath = some (.file [] 1) := by
      subst hw'
      exact setFile_self ..
    refine ⟨.of_request hrequest, ?_, ?_⟩
    · exact
        { present := fun h => by simp [hfile] at h
          creator := fun h => by simp [hfile] at h
          unlocked := fun h => absurd hw.1 h
          foreign := fun h => by simp [hfile] at h
          closed := fun h => by simp [hfile] at h
          handle := fun e' he' => by
            subst hw'
            simp [World.setCreator, World.setHandle, he']
          lock := .inl (by subst hw'; rfl) }
    · refine ⟨?_, hrequest, ?_, _, hreceipt, trivial⟩
      · subst hw'
        exact hw.1
      · subst hw'
        simp [World.setCreator]
  refine does_bind (does_ensureSafeRepositoryDirectory frame_absent fun w path hpath hw =>
    ⟨hw.1, (setFile_ne w hpath.symm _).trans hw.2⟩) fun _ =>
    frame_absent.reads (onlyReads_safeApplyPaths _) fun _ =>
    frame_absent.reads (onlyReads_sys rfl) fun _ => does_bind hcreate fun _ =>
    does_bind (writable_receipt.writeHandle receipt) fun _ => ?_
  have hwritten : Frame a e (fun w =>
      w.files a.receiptPath = some (.file (canonicalBytes receipt) 1) ∧ Owned a e (fun _ => True) w)
      (Held e) :=
    ⟨writable_receipt.steady_file _, fun _ hw => hw.2.lock⟩
  refine ((onlyReads_sys (o := .fsync) rfl).does hwritten.steady hwritten.raises).mono
    (fun _ hw => hw) (fun _ w hw => ?_) fun _ hw => hw
  exact ⟨hw.2.lock, hw.2.request, hw.2.creator, _, hw.1, rfl⟩

/-! ### The request -/

/-- The temporaries are beside both files. -/
theorem writable_temporary (Q : Node → Prop) (pid : ℕ) :
    Writable a e (Owned a e Q) (temporaryPath a.requestPath pid) where
  frame := frame_owned _
  journal := a.isJournal_temporaryPath pid
  write := fun w content content' hi hw => by
    have hrequest := a.temporaryPath_ne_requestPath pid
    have hreceipt := a.temporaryPath_ne_receiptPath pid
    refine ⟨hi.setFile hrequest hreceipt, .setFile hrequest hreceipt (.inl hw.frame.lock),
      hw.frame.lock, (content_setFile_ne w hrequest.symm _).trans hw.frame.request,
      hw.frame.creator, ?_⟩
    rw [setFile_ne w hreceipt.symm]
    exact hw.frame.receipt
  close := fun w hw => ⟨hw.lock, hw.request, hw.creator, hw.receipt⟩

theorem does_unlinkIfPresent (pid : ℕ) : Does a e (Held e)
    (unlinkIfPresent (temporaryPath a.requestPath pid)) (fun _ => Held e) (Held e) := by
  have hrequest := a.temporaryPath_ne_requestPath pid
  have hreceipt := a.temporaryPath_ne_receiptPath pid
  refine triple_except Rely.refl (?_ : Does a e _ _ _ (Held e)) fun exc => ?_
  · refine does_sys steady_held (fun _ => steady_held) steady_held (fun _ hw => hw)
      fun c w r w' hi hw hact => ?_
    rcases hfile : w.files (temporaryPath a.requestPath pid) with _ | node
    · simp only [perform, hfile] at hact
      obtain ⟨rfl, rfl⟩ := Prod.mk.inj hact
      exact ⟨hi, .refl w, hw⟩
    · cases node <;> simp only [perform, hfile] at hact <;> obtain ⟨rfl, rfl⟩ := Prod.mk.inj hact
      · exact ⟨hi.setFile hrequest hreceipt, .setFile hrequest hreceipt (.inl hw), hw⟩
      · exact ⟨hi, .refl w, hw⟩
      · exact ⟨hi.setFile hrequest hreceipt, .setFile hrequest hreceipt (.inl hw), hw⟩
  · split_ifs
    · exact frame_held.pure ()
    · exact triple_raise _ steady_held fun _ hw => hw

/-- The rename is the one step that seals the request, and the evidence is there. -/
theorem does_replace (pid : ℕ) {content : Bytes} (hevidence : a.Evidence content) :
    Does a e (fun w => w.files (temporaryPath a.requestPath pid) = some (.file a.appliedBytes 1) ∧
        Owned a e (fun node => node = .file content 1) w)
      (sys (.replace (temporaryPath a.requestPath pid) a.requestPath)) (fun _ => Held e)
      (Held e) := by
  have hrequest := a.temporaryPath_ne_requestPath pid
  have hreceipt := a.temporaryPath_ne_receiptPath pid
  refine does_sys ((writable_temporary _ pid).steady_file _) (fun _ => steady_held) steady_held
    (fun w hw => hw.2.lock) fun c w r w' hi hw hact => ?_
  obtain ⟨hfile, hown⟩ := hw
  obtain ⟨_, hnode, rfl⟩ := hown.receipt
  have hact : (.ok (), (w.setFile a.requestPath (some (.file a.appliedBytes 1))).setFile
      (temporaryPath a.requestPath pid) none) = (r, w') := by
    have hcontent := hown.request
    unfold World.content at hcontent
    split at hcontent
    · rename_i hfile'
      simpa only [perform, hfile, hfile'] using hact
    · cases hcontent
  obtain ⟨rfl, rfl⟩ := Prod.mk.inj hact
  have hreceipt' : ((w.setFile a.requestPath (some (.file a.appliedBytes 1))).setFile
      (temporaryPath a.requestPath pid) none).files a.receiptPath = w.files a.receiptPath := by
    rw [setFile_ne _ hreceipt.symm, setFile_ne _ a.receiptPath_ne]
  refine ⟨⟨.inr ⟨?_, content, ?_, hevidence⟩⟩, ?_, hown.lock⟩
  · simp [World.content, setFile_ne _ hrequest.symm]
  · simp only [World.content, hreceipt', hnode]
  · exact
      { present := fun h => by rwa [hreceipt']
        creator := fun _ => rfl
        unlocked := fun h => absurd hown.lock h
        foreign := fun _ h => absurd hown.creator h
        closed := fun _ h => ⟨hreceipt', h⟩
        handle := fun _ _ => rfl
        lock := .inl rfl }

theorem does_atomicReplace (pid : ℕ) {content : Bytes} (hevidence : a.Evidence content) :
    Does a e (Owned a e fun node => node = .file content 1)
      (atomicReplace pid a.requestPath (applied (.obj a.request))) (fun _ => Held e)
      (Held e) := by
  have h := frame_owned (a := a) (e := e) fun node => node = .file content 1
  have hrequest := a.temporaryPath_ne_requestPath pid
  have hreceipt := a.temporaryPath_ne_receiptPath pid
  have hwritable := writable_temporary (a := a) (e := e) (fun node => node = .file content 1) pid
  have hcreate : Does a e (Owned a e fun node => node = .file content 1)
      (sys (.createExclusive (temporaryPath a.requestPath pid)))
      (fun _ => Open e (Owned a e fun node => node = .file content 1)
        (temporaryPath a.requestPath pid) []) (Held e) := by
    refine hwritable.createExclusive h fun w hi hw hfile w' hw' => ?_
    have hcontent : w'.content a.requestPath = some a.bytes := by
      subst hw'
      exact (content_setFile_ne w hrequest.symm _).trans hw.request
    have hsame : w'.files a.receiptPath = w.files a.receiptPath := by
      subst hw'
      exact setFile_ne w hreceipt.symm _
    have hcreator : w'.creator a.receiptPath = w.creator a.receiptPath := by
      subst hw'
      simp [World.setCreator, hreceipt.symm, World.setHandle]
    refine ⟨.of_request hcontent, ?_, ?_⟩
    · refine .of_same ?_ hsame (fun hlock => absurd hw.lock hlock) hcreator (fun hhandle => ?_)
        (fun e' he' => ?_) (.inl ?_)
      · subst hw'
        exact setFile_ne w hrequest.symm _
      · subst hw'
        simp [World.setCreator, World.setHandle, hreceipt] at hhandle
      · subst hw'
        simp [World.setCreator, World.setHandle, he']
      · subst hw'
        rfl
    · refine ⟨?_, hcontent, hcreator.trans hw.creator, ?_⟩
      · subst hw'
        exact hw.lock
      · rw [hsame]
        exact hw.receipt
  refine h.reads (onlyReads_preflight _ _) fun _ => h.reads (onlyReads_safeApplyPaths _) fun _ =>
    h.reads (onlyReads_sys rfl) fun _ => does_bind hcreate fun _ =>
    triple_finally Rely.refl (?_ : Does a e _ _ (fun _ => Held e) (Held e))
      (fun _ => does_unlinkIfPresent pid) (does_unlinkIfPresent pid) (fun _ => steady_held)
      steady_held
  exact does_bind (hwritable.writeHandle _) fun _ => does_bind (does_replace pid hevidence)
    fun _ => (onlyReads_sys (o := .fsync) rfl).does steady_held fun _ hw => hw

end Writing

/-! ## apply_request -/

section Apply

variable {a : Accepted} {e : ℕ}

theorem appliedRequest_eq :
    appliedRequest (.obj a.request) = pure (applied (.obj a.request)) := by
  have hget : get (.obj a.request) "status" = pure (text "accepted") := by
    simp only [get, a.status, Option.getD_some]
  exact appliedRequest_of_loads hget a.loads_plain

/-- From the compare-and-swap on: the receipt, and the request after it. -/
theorem does_seal {receipt : Dict} {sha256 : Str} (args : Args) (commit : Str)
    (changedLocks : List Str) (relative : Str)
    (haccepted : receipt.lookup (str "accepted_request_sha256") = some (.str sha256))
    (happlied : receipt.lookup (str "applied_request_sha256") = some (.str (digestBytes
      (canonicalBytes (applied (.obj a.request)))))) :
    Does a e (Absent a e)
      (do
        finalApplyCas a.root a.requestPath sha256 commit changedLocks a.receiptPath [] none
        writeExclusive a.root a.receiptPath (.obj receipt)
        finalApplyCas a.root a.requestPath sha256 commit changedLocks a.receiptPath [relative]
          (some (digestBytes (canonicalBytes (.obj receipt))))
        atomicReplace args.pid a.requestPath (applied (.obj a.request)))
      (fun _ => Held e) (Held e) := by
  have hand := frame_absent_and (a := a) (e := e) (sha256 = digestBytes a.bytes)
  refine does_bind (does_finalApplyCas frame_absent hand (does_requireDigest sha256)) fun _ => ?_
  rintro w hi ⟨habsent, rfl⟩
  have hown := frame_owned (a := a) (e := e)
    fun node => node = .file (canonicalBytes (.obj receipt)) 1
  refine does_bind (does_writeExclusive (.obj receipt)) (fun _ => ?_) w hi habsent
  exact does_bind (does_finalApplyCas hown hown
    ((onlyReads_requireDigest _ _).does hown.steady hown.raises)) fun _ =>
    does_atomicReplace args.pid ⟨receipt, rfl, haccepted, happlied⟩

theorem does_applyLocked (args : Args) {request : Value} (hrequest : a.Known request)
    (sha256 : Str) : Does a e (Held e) (applyLocked a.root a.requestPath args request sha256)
      (fun _ => Held e) (Held e) := by
  refine frame_held.reads (onlyReads_stripped _) fun _ => frame_held.require fun _ =>
    frame_held.reads (onlyReads_stripped _) fun commit => ?_
  obtain rfl | ⟨d, rfl, hstatus⟩ := hrequest
  swap
  · have hget : get (.obj d) "status" = pure (text "applied") := by
      simp only [get, hstatus, Option.getD_some]
    rw [hget]
    exact frame_held.require fun h => absurd h (by decide)
  refine frame_held.reads (onlyReads_get _ _) fun _ => frame_held.require fun _ =>
    frame_held.require fun _ => frame_held.reads (onlyReads_sys rfl) fun _ =>
    frame_held.require fun _ => frame_held.reads onlyReads_statusPaths fun _ =>
    frame_held.require fun _ => ?_
  split
  · exact triple_raise _ steady_held fun _ hw => hw
  refine frame_held.reads (onlyReads_sys rfl) fun _ => frame_held.require fun _ =>
    frame_held.reads (onlyReads_candidateChanges _ _) fun _ =>
    frame_held.reads (onlyReads_item _ _) fun affected =>
    frame_held.reads (?_ : OnlyReads ((items? affected).elim (raise .type) pure)) fun _ =>
    frame_held.reads (onlyReads_checkedLocks _ _ _) fun changedLocks => ?_
  · cases items? affected <;> trivial
  rw [a.canonicalReceiptPath_eq]
  refine frame_held.reads (onlyReads_preflight _ _) fun _ => does_bind does_ensureReceiptAbsent
    fun _ => frame_absent.reads (onlyReads_sys rfl) fun _ => ?_
  rw [appliedRequest_eq]
  refine frame_absent.reads (onlyReads_mapEach (fun _ => onlyReads_lockDigest _ _ _) _) fun _ =>
    frame_absent.reads (onlyReads_item _ _) fun _ => frame_absent.reads (onlyReads_item _ _)
    fun _ => frame_absent.reads (onlyReads_sys rfl) fun _ =>
    frame_absent.reads (onlyReads_digestFile _) fun _ =>
    frame_absent.reads (onlyReads_item _ _) fun _ => ?_
  dsimp only
  split
  · exact triple_raise _ steady_absent fun _ hw => hw.1
  · exact does_seal args _ _ _ rfl rfl

theorem does_flock : Does a e (fun _ => True) (sys .flock) (fun _ => Held e) fun _ => True := by
  refine does_sys frame_true.steady (fun _ => steady_held) frame_true.steady (fun _ _ => trivial)
    fun c w r w' hi _ hact => ?_
  rcases hlock : w.lock with _ | holder
  · simp only [perform, hlock] at hact
    obtain ⟨rfl, rfl⟩ := Prod.mk.inj hact
    exact ⟨hi.of_same rfl rfl, .of_same rfl rfl (fun _ _ _ => rfl) rfl id (fun _ _ => rfl)
      (.inr (.inl ⟨hlock, rfl⟩)), rfl⟩
  · simp only [perform, hlock] at hact
    obtain ⟨rfl, rfl⟩ := Prod.mk.inj hact
    exact ⟨hi, .refl w, trivial⟩

theorem does_funlock :
    Does a e (Held e) (sys .funlock) (fun _ _ => True) fun _ => True := by
  refine does_sys steady_held (fun _ => frame_true.steady) frame_true.steady (fun _ _ => trivial)
    fun c w r w' hi hw hact => ?_
  have hlock : w.lock = some e := hw
  simp only [perform, hlock, if_true] at hact
  obtain ⟨rfl, rfl⟩ := Prod.mk.inj hact
  exact ⟨hi.of_same rfl rfl, .of_same rfl rfl (fun _ _ _ => rfl) rfl id (fun _ _ => rfl)
    (.inr (.inr ⟨hlock, rfl⟩)), trivial⟩

/-- The directories of the lock file are not the receipt's. -/
theorem does_withApplyLock {body : Proc Unit}
    (hbody : Does a e (Held e) body (fun _ => Held e) (Held e)) :
    Does a e (fun _ => True) (withApplyLock a.root body) (fun _ _ => True) fun _ => True := by
  have hne : ∀ rest : Path, a.root ++ str "build" :: rest ≠ a.receiptPath := by
    intro rest h
    simp only [Accepted.receiptPath, List.append_assoc] at h
    have := (List.cons.inj (List.append_cancel_left h)).1
    exact absurd this (by decide)
  refine frame_true.reads (onlyReads_forEach (fun _ => (onlyReads_sys rfl).bind fun _ =>
    onlyReads_require _) _) fun _ =>
    does_bind (does_makeDirectory frame_true (hne []) fun _ _ => trivial) fun _ =>
    does_bind (does_makeDirectory frame_true (hne [str "tools"]) fun _ _ => trivial) fun _ =>
    frame_true.reads (onlyReads_forEach (fun _ => (onlyReads_sys rfl).bind fun _ =>
      onlyReads_require _) _) fun _ => does_bind does_flock fun _ => ?_
  exact triple_finally Rely.refl hbody (fun _ => does_funlock) does_funlock
    (fun _ => frame_true.steady) frame_true.steady

theorem does_withToolOperationLock {body : Proc Unit}
    (hbody : Does a e (fun _ => True) body (fun _ _ => True) fun _ => True) :
    Does a e (fun _ => True) (withToolOperationLock body) (fun _ _ => True) fun _ => True := by
  have hunlock : Does a e (fun _ => True) (sys .toolUnlock) (fun _ _ => True) fun _ => True :=
    (onlyReads_sys (o := .toolUnlock) rfl).does frame_true.steady fun _ _ => trivial
  exact frame_true.reads (onlyReads_sys rfl) fun _ => triple_finally Rely.refl hbody
    (fun _ => hunlock) hunlock (fun _ => frame_true.steady) frame_true.steady

/-- What is read before the lock can be stale; nothing is done by it before it is read again. -/
theorem does_applyRequest (fieldErrors : Str → Value → List Str) (args : Args) :
    Does a e (fun _ => True) (applyRequest fieldErrors a.root a.requestPath args)
      (fun _ _ => True) fun _ => True := by
  refine frame_true.reads (onlyReads_preflight _ _) fun _ =>
    does_bind (does_validateRequest fieldErrors) fun request => ?_
  intro w hi hrequest
  refine (frame_true.reads (onlyReads_digestFile _) fun sha256 => frame_true.require fun _ =>
    frame_true.reads (onlyReads_item _ _) fun requestId => frame_true.require fun _ =>
    does_withToolOperationLock (does_withApplyLock (does_applyLocked args hrequest sha256)))
    w hi trivial

theorem agreed (a : Accepted) (fieldErrors : Str → Value → List Str) :
    Agreed (machine a.requestPath a.receiptPath) (applyRequest fieldErrors a.root a.requestPath)
      (Invariant a) (Rely a) (Guarantee a) where
  refl := fun _ => Rely.refl
  trans := fun _ _ _ _ => Rely.trans
  other := fun hne _ hg => hg.rely hne
  leave := fun e w hi => by
    show Invariant a (leave e w) ∧ Guarantee a e w (leave e w)
    unfold leave
    dsimp only
    split_ifs with hlock
    · exact ⟨hi.of_same rfl rfl, .of_same rfl rfl (fun _ _ _ => rfl) rfl
        (fun h => by simp [World.setHandle] at h)
        (fun e' he' => by simp [World.setHandle, he']) (.inr (.inr ⟨hlock, rfl⟩))⟩
    · exact ⟨hi.setHandle, .setHandle w⟩
  outside := fun o w hi => by
    show Invariant a (if isJournal a.requestPath a.receiptPath o.1 then w
      else w.setFile o.1 o.2) ∧ ∀ e, Rely a e w
        (if isJournal a.requestPath a.receiptPath o.1 then w else w.setFile o.1 o.2)
    split_ifs with hjournal
    · exact ⟨hi, fun e => Rely.refl w⟩
    have hne : ∀ path, isJournal a.requestPath a.receiptPath path = true → path ≠ o.1 :=
      fun path hpath heq => hjournal (heq ▸ hpath)
    have hreceipt := hne _ a.isJournal_receiptPath
    refine ⟨hi.setFile (hne _ a.isJournal_requestPath).symm hreceipt.symm, fun e => ?_⟩
    exact
      { present := fun h => by rwa [setFile_ne w hreceipt]
        creator := fun _ => rfl
        locked := fun _ => ⟨fun path hpath _ => setFile_ne w (hne path hpath) _,
          setFile_ne w hreceipt _⟩
        handle := rfl
        lock := Iff.rfl }
  program := fun _ args => does_applyRequest fieldErrors args

end Apply

/-! ## Every run -/

section Runs

variable (a : Accepted)

abbrev JournalEvent := Event Args Choice (Path × Option Node)

/-- The execution that acts, if one does. -/
def actor : JournalEvent → Option ℕ
  | .act e _ | .kill e => some e
  | _ => none

/-- Any files, with the accepted request among them and no receipt. -/
def Accepted.start (files : Path → Option Node) : World where
  files := Function.update (Function.update files a.receiptPath none) a.requestPath
    (some (.file a.bytes a.links))
  handle := fun _ => none
  creator := fun _ => none
  lock := none

theorem Accepted.invariant_start (files : Path → Option Node) : Invariant a (a.start files) :=
  ⟨.inl (by simp [World.content, Accepted.start])⟩

/-- What becomes of the journal from one world to a later one, when these executions act in
between. -/
structure Kept (acting : ℕ → Prop) (w w' : World) : Prop where
  /-- A receipt stays, and is not created again. -/
  once : (w.files a.receiptPath).isSome →
    (w'.files a.receiptPath).isSome ∧ w'.creator a.receiptPath = w.creator a.receiptPath
  /-- A receipt that no execution has open is not modified. -/
  closed : (w.files a.receiptPath).isSome → (∀ e, w.handle e ≠ some a.receiptPath) →
    w'.files a.receiptPath = w.files a.receiptPath ∧ ∀ e, w'.handle e ≠ some a.receiptPath
  /-- Beside a receipt only the execution that created it changes either file. -/
  later : (w.files a.receiptPath).isSome → (∀ e, acting e → w.creator a.receiptPath ≠ some e) →
    w'.files a.requestPath = w.files a.requestPath ∧
      w'.files a.receiptPath = w.files a.receiptPath

variable {a}

theorem Kept.refl (acting : ℕ → Prop) (w : World) : Kept a acting w w :=
  ⟨fun h => ⟨h, rfl⟩, fun _ h => ⟨rfl, h⟩, fun _ _ => ⟨rfl, rfl⟩⟩

theorem Kept.trans {acting acting₁ : ℕ → Prop} {w w₁ w₂ : World} (h : Kept a acting w w₁)
    (h₁ : Kept a acting₁ w₁ w₂) : Kept a (fun e => acting e ∨ acting₁ e) w w₂ where
  once := fun hw => by
    obtain ⟨hsome, hcreator⟩ := h.once hw
    obtain ⟨hsome₁, hcreator₁⟩ := h₁.once hsome
    exact ⟨hsome₁, hcreator₁.trans hcreator⟩
  closed := fun hw hhandle => by
    obtain ⟨hsame, hhandle₁⟩ := h.closed hw hhandle
    obtain ⟨hsame₁, hhandle₂⟩ := h₁.closed (h.once hw).1 hhandle₁
    exact ⟨hsame₁.trans hsame, hhandle₂⟩
  later := fun hw hacting => by
    obtain ⟨hsome, hcreator⟩ := h.once hw
    obtain ⟨hrequest, hreceipt⟩ := h.later hw fun e he => hacting e (.inl he)
    obtain ⟨hrequest₁, hreceipt₁⟩ := h₁.later hsome fun e he => hcreator ▸ hacting e (.inr he)
    exact ⟨hrequest₁.trans hrequest, hreceipt₁.trans hreceipt⟩

theorem Kept.mono {acting acting' : ℕ → Prop} {w w' : World} (h : Kept a acting w w')
    (hacting : ∀ e, acting e → acting' e) : Kept a acting' w w' :=
  ⟨h.once, h.closed, fun hw hne => h.later hw fun e he => hne e (hacting e he)⟩

theorem Guarantee.kept {e : ℕ} {w w' : World} (h : Guarantee a e w w') : Kept a (· = e) w w' where
  once := fun hw => ⟨h.present hw, h.creator hw⟩
  closed := fun hw hhandle => by
    obtain ⟨hsame, hclosed⟩ := h.closed hw (hhandle e)
    refine ⟨hsame, fun e' => ?_⟩
    by_cases he : e' = e
    · exact he ▸ hclosed
    · exact h.handle e' he ▸ hhandle e'
  later := fun hw hne => h.foreign hw (hne e rfl)

theorem kept_step (fieldErrors : Str → Value → List Str) {s : State signature Exc World}
    (hs : Safe (machine a.requestPath a.receiptPath) (Invariant a) (Rely a) (Guarantee a) s)
    (event : JournalEvent) :
    Kept a (fun e => actor event = some e) s.world (step (machine a.requestPath a.receiptPath)
      (applyRequest fieldErrors a.root a.requestPath) s event).world := by
  have hchanges : ∀ {e : ℕ} {s' : State signature Exc World},
      Changes s (Guarantee a) e s' → Kept a (fun e' => some e = some e') s.world s'.world := by
    rintro e s' (hsame | ⟨-, hg⟩)
    · rw [hsame]
      exact .refl _ _
    · exact hg.kept.mono fun e' he' => by rw [he']
  have hstep := (step_safe (agreed a fieldErrors) hs event).2
  cases event with
  | start e args =>
    dsimp only at hstep
    rw [hstep]
    exact .refl _ _
  | act e choice => exact hchanges hstep
  | kill e => exact hchanges hstep
  | outside o =>
    show Kept a _ s.world (if isJournal a.requestPath a.receiptPath o.1 then s.world
      else s.world.setFile o.1 o.2)
    split_ifs with hjournal
    · exact .refl _ _
    have hne : ∀ path, isJournal a.requestPath a.receiptPath path = true → path ≠ o.1 :=
      fun path hpath heq => hjournal (heq ▸ hpath)
    have hreceipt := setFile_ne s.world (hne _ a.isJournal_receiptPath) o.2
    exact ⟨fun h => ⟨by rwa [hreceipt], rfl⟩, fun _ h => ⟨hreceipt, h⟩,
      fun _ _ => ⟨setFile_ne s.world (hne _ a.isJournal_requestPath) o.2, hreceipt⟩⟩

theorem kept_run (fieldErrors : Str → Value → List Str) (events : List JournalEvent)
    {s : State signature Exc World}
    (hs : Safe (machine a.requestPath a.receiptPath) (Invariant a) (Rely a) (Guarantee a) s) :
    Kept a (fun e => ∃ event ∈ events, actor event = some e) s.world
      (run (machine a.requestPath a.receiptPath)
        (applyRequest fieldErrors a.root a.requestPath) s events).world := by
  induction events generalizing s with
  | nil => exact .refl _ _
  | cons event events ih =>
    refine ((kept_step fieldErrors hs event).trans
      (ih (step_safe (agreed a fieldErrors) hs event).1)).mono ?_
    rintro e (he | ⟨event', hmem, he⟩)
    · exact ⟨event, List.mem_cons_self, he⟩
    · exact ⟨event', List.mem_cons_of_mem _ hmem, he⟩

/-- Whatever executions of `apply_request` on an accepted request without a receipt run, interleave
and are killed: the request file holds the accepted request, or the applied one beside a complete
receipt for the two, and the receipt is created at most once, is not modified once it is closed, and
keeps every execution but the one that created it from either file. -/
theorem applyRequest_journal (a : Accepted) (fieldErrors : Str → Value → List Str)
    (files : Path → Option Node) (before after : List JournalEvent) :
    let runs := run (machine a.requestPath a.receiptPath)
      (applyRequest fieldErrors a.root a.requestPath)
    let s := runs (initial (a.start files)) before
    Invariant a s.world ∧
      Kept a (fun e => ∃ event ∈ after, actor event = some e) s.world (runs s after).world := by
  have hs := run_safe (agreed a fieldErrors) (initial_safe (a.invariant_start files)) before
  exact ⟨hs.world, kept_run fieldErrors after hs⟩

end Runs

end DependencyLocks
