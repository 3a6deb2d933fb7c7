import Jumpship.DependencyLocks.Journal
import Jumpship.Proofs.PyJson

/-!
# What executions of apply-request agree on

An accepted request, the journal it is sealed in, and what the executions on it keep: what the
request file holds is the accepted request, or the applied one beside the evidence for it
(`Invariant`), an execution does no more than `Guarantee`, and `Rely` is what it sees of the others.
Most of an execution only reads.
-/

namespace DependencyLocks

open Py Processes

/-! ## An accepted request -/

/-- A request file with status accepted, before its receipt. -/
structure Accepted where
  root : Path
  file : Str
  bytes : Bytes
  links : ℕ
  request : Dict
  loaded : loadBytes bytes = some (.obj request)
  status : request.lookup (str "status") = some (text "accepted")
  packetId : Str
  requestId : Str
  packet : request.lookup (str "packet_id") = some (.str packetId)
  id : request.lookup (str "request_id") = some (.str requestId)

/-- The smallest accepted request. -/
example : Nonempty Accepted := by
  let request : Dict := [(str "status", text "accepted"), (str "packet_id", text "P02"),
    (str "request_id", text "P02-dep-x")]
  have hreadable : ∀ s ∈ ["status", "accepted", "packet_id", "P02", "request_id", "P02-dep-x"],
      Readable (str s).codes := fun s hs => .of_ascii (by revert s; decide)
  have hloads := loads_dumps Layout.spaced_plain (v := .obj request) (t := [])
    (readableValue_obj.2 ⟨by decide, by
      simp only [request, List.forall_mem_cons]
      exact ⟨⟨hreadable _ (by simp), hreadable "accepted" (by simp)⟩,
        ⟨hreadable _ (by simp), hreadable "P02" (by simp)⟩,
        ⟨hreadable _ (by simp), hreadable "P02-dep-x" (by simp)⟩, fun _ h => by simp at h⟩⟩)
    (by simp)
  rw [List.append_nil, Layout.normal, if_neg (by decide)] at hloads
  exact ⟨{
    root := []
    file := str "P02-dep-x.json"
    bytes := Unicode.utf8 (dumps .plain (.obj request))
    links := 1
    request := request
    loaded := by rw [loadBytes, Unicode.utf8Decode_utf8, Option.bind_some, hloads]
    status := rfl
    packetId := str "P02"
    requestId := str "P02-dep-x"
    packet := rfl
    id := rfl }⟩
namespace Accepted

variable (a : Accepted)

def requestPath : Path := a.root ++ [str "dependency", str "requests", a.file]

def receiptPath : Path :=
  a.root ++ ["delivery", "mvp", "evidence"].map str ++ [a.packetId, str "dependency-locks",
    append a.requestId (str ".json")]

def appliedBytes : Bytes := canonicalBytes (applied (.obj a.request))

/-- A receipt for this request, written completely. -/
def Evidence (content : Bytes) : Prop :=
  ∃ receipt : Dict, content = canonicalBytes (.obj receipt) ∧
    receipt.lookup (str "accepted_request_sha256") = some (.str (digestBytes a.bytes)) ∧
    receipt.lookup (str "applied_request_sha256") = some (.str (digestBytes a.appliedBytes))

theorem canonicalReceiptPath_eq :
    canonicalReceiptPath a.root (.obj a.request) = pure a.receiptPath := by
  simp only [canonicalReceiptPath, itemStr, item, a.packet, a.id]
  rfl

theorem receiptPath_ne : a.receiptPath ≠ a.requestPath := by
  intro h
  simp only [receiptPath, requestPath, List.append_assoc] at h
  have := (List.cons.inj (List.append_cancel_left h)).1
  simp at this

theorem parent_requestPath :
    parent a.requestPath = a.root ++ [str "dependency", str "requests"] := by
  simp [parent, requestPath, List.dropLast_append_of_ne_nil]

theorem name_requestPath : name a.requestPath = a.file := by
  simp [name, requestPath]

theorem temporaryPath_eq (pid : ℕ) : temporaryPath a.requestPath pid =
    a.root ++ [str "dependency", str "requests",
      append (append (str ".") a.file) (str s!".tmp-{pid}")] := by
  have h : a.requestPath.dropLast = _ := a.parent_requestPath
  simp [temporaryPath, withName, h, a.name_requestPath]

theorem temporaryPath_ne_receiptPath (pid : ℕ) :
    temporaryPath a.requestPath pid ≠ a.receiptPath := by
  rw [temporaryPath_eq]
  intro h
  simp only [receiptPath, List.append_assoc] at h
  have := (List.cons.inj (List.append_cancel_left h)).1
  simp at this

theorem codes_append (s t : Str) : (append s t).codes = s.codes ++ t.codes := by
  rw [append, codes_ofCodes]

theorem temporaryPath_ne_requestPath (pid : ℕ) :
    temporaryPath a.requestPath pid ≠ a.requestPath := by
  rw [temporaryPath_eq, requestPath]
  intro h
  have h := List.append_cancel_left h
  simp only [List.cons.injEq, and_true, true_and] at h
  have hlen := congrArg (fun s => s.codes.length) h
  simp only [codes_append, List.length_append] at hlen
  have hdot : (str ".").codes.length = 1 := by decide
  omega

theorem isJournal_requestPath : isJournal a.requestPath a.receiptPath a.requestPath = true := by
  simp [isJournal]

theorem isJournal_receiptPath : isJournal a.requestPath a.receiptPath a.receiptPath = true := by
  simp [isJournal]

theorem isJournal_temporaryPath (pid : ℕ) :
    isJournal a.requestPath a.receiptPath (temporaryPath a.requestPath pid) = true := by
  have hparent : parent (temporaryPath a.requestPath pid) = parent a.requestPath := by
    rw [parent_requestPath, temporaryPath_eq]
    simp [parent, List.dropLast_append_of_ne_nil]
  have hname : name (temporaryPath a.requestPath pid)
      = append (append (str ".") a.file) (str s!".tmp-{pid}") := by
    rw [temporaryPath_eq]
    simp [name]
  have hprefix : (append (append (str ".") (name a.requestPath)) (str ".tmp-")).startsWith
      (name (temporaryPath a.requestPath pid)) = true := by
    rw [hname, a.name_requestPath, Str.startsWith, List.isPrefixOf_iff_prefix]
    simp only [codes_append]
    refine (List.prefix_append_right_inj _).2 ?_
    simp only [Str.codes, String.toList_append, List.map_append]
    exact List.prefix_append _ _
  simp [isJournal, hparent, hprefix]

/-! ### What is read back of it -/

theorem readable_request : ReadableValue (.obj a.request) := by
  have h := a.loaded
  rw [loadBytes, Option.bind_eq_some_iff] at h
  obtain ⟨_, -, h⟩ := h
  exact readableValue_of_loads h

theorem loads_plain : loads (dumps .plain (.obj a.request)) = some (.obj a.request) := by
  have h := loads_dumps Layout.spaced_plain a.readable_request (t := []) (by simp)
  rwa [List.append_nil, Layout.normal, if_neg (by decide)] at h

theorem lookup_setItem (d : Dict) (k : Str) (v : Value) : (setItem d k v).lookup k = some v := by
  induction d with
  | nil => simp [setItem]
  | cons m d ih =>
    rw [setItem]
    by_cases h : m.1 = k
    · simp [h]
    · rw [if_neg h, Json.lookup_cons_ne (Ne.symm h), ih]

theorem readable_applied_text : ReadableValue (text "applied") :=
  show Readable (str "applied").codes from ⟨by decide +kernel, by decide +kernel⟩

theorem readable_applied : ReadableValue (applied (.obj a.request)) := by
  obtain ⟨hnd, hmem⟩ := readableValue_obj.1 a.readable_request
  have hkey : str "status" ∈ Json.names a.request :=
    Json.mem_names_of_mem (Json.mem_of_lookup a.status)
  refine readableValue_obj.2 ⟨?_, fun m hm => ?_⟩
  · rw [names_setItem, if_pos hkey]
    exact hnd
  · obtain rfl | hm := mem_setItem hm
    · exact ⟨(hmem _ (Json.mem_of_lookup a.status)).1, readable_applied_text⟩
    · exact hmem m hm

/-- The applied request is not an accepted one. -/
theorem loadBytes_appliedBytes : ∃ d : Dict, loadBytes a.appliedBytes = some (.obj d) ∧
    d.lookup (str "status") = some (text "applied") := by
  have hread := loads_dumps Layout.spaced_pretty a.readable_applied (t := ['\n'])
    (by simp [JsonText.isSpace])
  obtain ⟨hnd, -⟩ := readableValue_obj.1 a.readable_applied
  rw [applied, Layout.normal_obj] at hread
  refine ⟨_, by rw [loadBytes, appliedBytes, canonicalBytes, Unicode.utf8Decode_utf8,
    Option.bind_some, applied, hread], ?_⟩
  have hperm := Layout.pretty.perm_order (setItem a.request (str "status") (text "applied"))
  refine Json.lookup_of_mem ?_ (List.mem_map.2 ⟨(str "status", text "applied"),
    hperm.mem_iff.2 (Json.mem_of_lookup (lookup_setItem ..)), ?_⟩)
  · rw [Json.names, List.map_map]
    exact (hperm.map Prod.fst).nodup_iff.2 hnd
  · rw [Layout.normal, if_pos (by decide), text, Json.sortMembers]

end Accepted

/-! ## What the executions agree on -/

section Agreement

def World.content (w : World) (path : Path) : Option Bytes :=
  match w.files path with
  | some (.file content _) => some content
  | _ => none

variable (a : Accepted) (e : ℕ)

structure Invariant (w : World) : Prop where
  request : w.content a.requestPath = some a.bytes ∨
    w.content a.requestPath = some a.appliedBytes ∧
      ∃ c, w.content a.receiptPath = some c ∧ a.Evidence c

/-- What one operation of an execution can do. -/
structure Guarantee (w w' : World) : Prop where
  present : (w.files a.receiptPath).isSome → (w'.files a.receiptPath).isSome
  creator : (w.files a.receiptPath).isSome → w'.creator a.receiptPath = w.creator a.receiptPath
  /-- Without the lock it changes no file. -/
  unlocked : w.lock ≠ some e → (∀ path, (w.files path).isSome → w'.files path = w.files path) ∧
    w'.files a.receiptPath = w.files a.receiptPath
  /-- Beside a receipt of another execution it changes neither file. -/
  foreign : (w.files a.receiptPath).isSome → w.creator a.receiptPath ≠ some e →
    w'.files a.requestPath = w.files a.requestPath ∧
      w'.files a.receiptPath = w.files a.receiptPath
  /-- It writes a receipt while it has it open, and opens none that is there. -/
  closed : (w.files a.receiptPath).isSome → w.handle e ≠ some a.receiptPath →
    w'.files a.receiptPath = w.files a.receiptPath ∧ w'.handle e ≠ some a.receiptPath
  handle : ∀ e', e' ≠ e → w'.handle e' = w.handle e'
  lock : w'.lock = w.lock ∨ w.lock = none ∧ w'.lock = some e ∨ w.lock = some e ∧ w'.lock = none

/-- What the other executions and programs can do. -/
structure Rely (w w' : World) : Prop where
  present : (w.files a.receiptPath).isSome → (w'.files a.receiptPath).isSome
  creator : (w.files a.receiptPath).isSome → w'.creator a.receiptPath = w.creator a.receiptPath
  locked : w.lock = some e →
    (∀ path, isJournal a.requestPath a.receiptPath path = true → (w.files path).isSome →
      w'.files path = w.files path) ∧ w'.files a.receiptPath = w.files a.receiptPath
  handle : w'.handle e = w.handle e
  lock : w'.lock = some e ↔ w.lock = some e

variable {a e}

theorem Rely.refl (w : World) : Rely a e w w :=
  ⟨id, fun _ => rfl, fun _ => ⟨fun _ _ _ => rfl, rfl⟩, rfl, Iff.rfl⟩

theorem Rely.trans {w w₁ w₂ : World} (h : Rely a e w w₁) (h₁ : Rely a e w₁ w₂) : Rely a e w w₂ where
  present := fun hw => h₁.present (h.present hw)
  creator := fun hw => (h₁.creator (h.present hw)).trans (h.creator hw)
  locked := fun hw => by
    obtain ⟨hfiles, hreceipt⟩ := h.locked hw
    obtain ⟨hfiles₁, hreceipt₁⟩ := h₁.locked (h.lock.2 hw)
    refine ⟨fun path hpath hsome => ?_, hreceipt₁.trans hreceipt⟩
    have := hfiles path hpath hsome
    exact (hfiles₁ path hpath (this ▸ hsome)).trans this
  handle := h₁.handle.trans h.handle
  lock := h₁.lock.trans h.lock

theorem Guarantee.rely {e' : ℕ} (hne : e' ≠ e) {w w' : World} (h : Guarantee a e w w') :
    Rely a e' w w' where
  present := h.present
  creator := h.creator
  locked := fun hw => by
    have hlock : w.lock ≠ some e := fun heq => hne (Option.some.inj (hw.symm.trans heq))
    exact ⟨fun path _ => (h.unlocked hlock).1 path, (h.unlocked hlock).2⟩
  handle := h.handle e' hne
  lock := by
    obtain hlock | ⟨hlock, hlock'⟩ | ⟨hlock, hlock'⟩ := h.lock
    · rw [hlock]
    · simp [hlock, hlock', Ne.symm hne]
    · simp [hlock, hlock', Ne.symm hne]

/-- An operation that leaves both files, their creator and the handle as they are. -/
theorem Guarantee.of_same {w w' : World} (hrequest : w'.files a.requestPath = w.files a.requestPath)
    (hreceipt : w'.files a.receiptPath = w.files a.receiptPath)
    (hfiles : w.lock ≠ some e → ∀ path, (w.files path).isSome → w'.files path = w.files path)
    (hcreator : w'.creator a.receiptPath = w.creator a.receiptPath)
    (hhandle : w'.handle e = some a.receiptPath → w.handle e = some a.receiptPath)
    (hother : ∀ e', e' ≠ e → w'.handle e' = w.handle e')
    (hlock : w'.lock = w.lock ∨ w.lock = none ∧ w'.lock = some e ∨
      w.lock = some e ∧ w'.lock = none) : Guarantee a e w w' where
  present := fun h => by rwa [hreceipt]
  creator := fun _ => hcreator
  unlocked := fun h => ⟨hfiles h, hreceipt⟩
  foreign := fun _ _ => ⟨hrequest, hreceipt⟩
  closed := fun _ h => ⟨hreceipt, mt hhandle h⟩
  handle := hother
  lock := hlock

theorem Guarantee.refl (w : World) : Guarantee a e w w :=
  .of_same rfl rfl (fun _ _ _ => rfl) rfl id (fun _ _ => rfl) (.inl rfl)

theorem Invariant.of_same {w w' : World} (h : Invariant a w)
    (hrequest : w'.files a.requestPath = w.files a.requestPath)
    (hreceipt : w'.files a.receiptPath = w.files a.receiptPath) : Invariant a w' := by
  have hcontent : ∀ path, w'.files path = w.files path → w'.content path = w.content path :=
    fun path hpath => by rw [World.content, World.content, hpath]
  refine ⟨?_⟩
  rw [hcontent _ hrequest, hcontent _ hreceipt]
  exact h.request

theorem isSome_of_content {w : World} {path : Path} {c : Bytes} (h : w.content path = some c) :
    (w.files path).isSome := by
  unfold World.content at h
  split at h
  · rename_i hfile
    rw [hfile]
    rfl
  · cases h

theorem Invariant.isSome {w : World} (h : Invariant a w) : (w.files a.requestPath).isSome := by
  obtain h | ⟨h, -⟩ := h.request
  · exact isSome_of_content h
  · exact isSome_of_content h

theorem Invariant.content {w : World} (h : Invariant a w) :
    ∃ c, w.content a.requestPath = some c := by
  obtain h | ⟨h, -⟩ := h.request
  · exact ⟨_, h⟩
  · exact ⟨_, h⟩

/-- Where there is no receipt, the request file holds the accepted request. -/
theorem Invariant.accepted {w : World} (h : Invariant a w) (habsent : w.files a.receiptPath = none) :
    w.content a.requestPath = some a.bytes := by
  refine h.request.resolve_right ?_
  rintro ⟨-, c, hc, -⟩
  have := isSome_of_content hc
  rw [habsent] at this
  cases this

end Agreement

/-! ## Operations -/

section Operations

variable (a : Accepted) (e : ℕ)

/-- A triple of one execution. -/
abbrev Does {α : Type} (pre : World → Prop) (p : Proc α) (post : α → World → Prop)
    (raised : World → Prop) : Prop :=
  Triple (Invariant a) (Rely a e) (Guarantee a e) (acts (machine a.requestPath a.receiptPath) e) pre p
    post raised

abbrev Steady (P : World → Prop) : Prop := Stable (Invariant a) (Rely a e) P

variable {a e} {pre raised : World → Prop} {α β : Type}

theorem does_bind {p : Proc α} {f : α → Proc β} {m : α → World → Prop}
    {post : β → World → Prop} (hp : Does a e pre p m raised)
    (hf : ∀ x, Does a e (m x) (f x) post raised) : Does a e pre (p >>= f) post raised :=
  triple_bind Rely.refl hp hf

/-- One operation, by what it does where it does not raise unasked. -/
theorem does_sys {op : Op} {post : Answer op → World → Prop} (hpre : Steady a e pre)
    (hpost : ∀ x, Steady a e (post x)) (hraised : Steady a e raised)
    (hraise : ∀ w, pre w → raised w)
    (h : ∀ c w r w', Invariant a w → pre w → perform e c w op = (r, w') →
      Invariant a w' ∧ Guarantee a e w w' ∧ After post raised r w') : Does a e pre (sys op) post raised := by
  refine triple_perform hpre hpost hraised fun w r w' hi hw hact => ?_
  obtain ⟨c, hc⟩ := hact
  change act e op c w = (r, w') at hc
  unfold act at hc
  split at hc
  · obtain ⟨rfl, rfl⟩ := Prod.mk.inj hc
    exact ⟨hi, .refl w, hraise w hw⟩
  · exact h c w r w' hi hw hc

/-- The operations that change nothing. -/
def Op.reads : Op → Bool
  | .mkdir _ | .createExclusive _ | .write _ | .close | .replace _ _ | .unlink _ | .flock
  | .funlock => false
  | _ => true

theorem perform_reads {op : Op} (h : op.reads = true) (c : Choice) (w : World) :
    (perform e c w op).2 = w := by
  cases op <;> first
    | exact absurd h Bool.false_ne_true
    | rfl
    | (unfold perform
       dsimp only
       split <;> rfl)

/-- An operation that changes nothing, and what its answer tells. -/
theorem does_read {op : Op} {post : Answer op → World → Prop} (hop : op.reads = true)
    (hpre : Steady a e pre) (hpost : ∀ x, Steady a e (post x)) (hraised : Steady a e raised)
    (hraise : ∀ w, pre w → raised w)
    (h : ∀ c w x, Invariant a w → pre w → (perform e c w op).1 = .ok x → post x w) :
    Does a e pre (sys op) post raised := by
  refine does_sys hpre hpost hraised hraise fun c w r w' hi hw hact => ?_
  obtain rfl : w = w' := by rw [← perform_reads hop c w, hact]
  refine ⟨hi, .refl w, ?_⟩
  cases r with
  | ok x => exact h c w x hi hw (by rw [hact])
  | error exc => exact hraise w hw

/-- A process whose operations change nothing. -/
def OnlyReads : Proc α → Prop
  | .done _ | .raise _ => True
  | .call op next => op.reads = true ∧ ∀ r, OnlyReads (next r)

theorem OnlyReads.does {p : Proc α} (hp : OnlyReads p) (hpre : Steady a e pre)
    (hraise : ∀ w, pre w → raised w) : Does a e pre p (fun _ => pre) raised := by
  intro w hi hw
  induction p generalizing w with
  | done x => exact fun w' hr hi' => hpre w w' hw hr hi'
  | raise exc => exact fun w' hr hi' => hraise w' (hpre w w' hw hr hi')
  | call op next ih =>
    intro w₁ hr hi₁ r w₂ hact
    obtain ⟨c, hc⟩ := hact
    change act e op c w₁ = (r, w₂) at hc
    have hsame : w₁ = w₂ := by
      unfold act at hc
      split at hc
      · exact (Prod.mk.inj hc).2
      · rw [← perform_reads hp.1 c w₁, hc]
    subst hsame
    exact ⟨hi₁, .refl w₁, ih r (hp.2 r) w₁ hi₁ (hpre w w₁ hw hr hi₁)⟩

theorem onlyReads_sys {o : Op} (h : o.reads = true) : OnlyReads (sys o) :=
  ⟨h, fun r => by cases r <;> trivial⟩

theorem onlyReads_pure (x : α) : OnlyReads (pure x : Proc α) := trivial

theorem onlyReads_raise (exc : Exc) : OnlyReads (raise exc : Proc α) := trivial

theorem OnlyReads.bind {p : Proc α} {f : α → Proc β} (hp : OnlyReads p)
    (hf : ∀ x, OnlyReads (f x)) : OnlyReads (p >>= f) := by
  show OnlyReads (p.bind f)
  induction p with
  | done x => exact hf x
  | raise exc => trivial
  | call op next ih => exact ⟨hp.1, fun r => ih r (hp.2 r)⟩

theorem OnlyReads.except {p : Proc α} {handler : Exc → Proc α} (hp : OnlyReads p)
    (hhandler : ∀ exc, OnlyReads (handler exc)) : OnlyReads (p.except_ handler) := by
  induction p with
  | done x => trivial
  | raise exc => exact hhandler exc
  | call op next ih => exact ⟨hp.1, fun r => ih r (hp.2 r)⟩

theorem onlyReads_require (condition : Bool) : OnlyReads (require condition) := by
  unfold require
  split <;> trivial

theorem onlyReads_forEach {body : α → Proc Unit} (h : ∀ x, OnlyReads (body x)) :
    ∀ xs, OnlyReads (forEach body xs)
  | [] => trivial
  | x :: xs => (h x).bind fun _ => onlyReads_forEach h xs

theorem onlyReads_mapEach {f : α → Proc β} (h : ∀ x, OnlyReads (f x)) :
    ∀ xs, OnlyReads (mapEach f xs)
  | [] => trivial
  | x :: xs => (h x).bind fun _ => (onlyReads_mapEach h xs).bind fun _ => trivial

end Operations

/-! ## The parts that only read -/

section Reading

theorem onlyReads_get (value : Value) (key : String) : OnlyReads (get value key) := by
  unfold get
  split <;> trivial

theorem onlyReads_item (value : Value) (key : String) : OnlyReads (item value key) := by
  unfold item
  split
  · split <;> trivial
  · trivial

theorem onlyReads_itemStr (value : Value) (key : String) : OnlyReads (itemStr value key) :=
  (onlyReads_item value key).bind fun v => by cases v <;> trivial

theorem onlyReads_canonicalReceiptPath (root : Path) (request : Value) :
    OnlyReads (canonicalReceiptPath root request) :=
  (onlyReads_itemStr _ _).bind fun _ => (onlyReads_itemStr _ _).bind fun _ => onlyReads_pure _

theorem onlyReads_digestFile (path : Path) : OnlyReads (digestFile path) :=
  (onlyReads_sys rfl).bind fun _ => onlyReads_pure _

theorem onlyReads_loadJsonYaml (path : Path) : OnlyReads (loadJsonYaml path) :=
  ((onlyReads_sys rfl).except fun _ => onlyReads_raise _).bind fun bytes => by
    split <;> trivial

theorem onlyReads_safeApplyPaths (paths : List Path) : OnlyReads (safeApplyPaths paths) :=
  (onlyReads_sys rfl).except fun _ => trivial

theorem onlyReads_privateRegularFile (path : Path) : OnlyReads (privateRegularFile path) :=
  ((onlyReads_sys rfl).except fun _ => onlyReads_raise _).bind fun _ => onlyReads_require _

theorem onlyReads_preflight (requestPath : Path) (receiptPath : Option Path) :
    OnlyReads (preflightApplyJournalPaths requestPath receiptPath) :=
  (onlyReads_safeApplyPaths _).bind fun _ => onlyReads_privateRegularFile _

theorem onlyReads_pathPresent (path : Path) : OnlyReads (pathPresent path) :=
  (onlyReads_sys rfl).bind fun present => by
    cases present
    · exact onlyReads_sys rfl
    · trivial

theorem onlyReads_requestErrors (fieldErrors : Str → Value → List Str) (path : Path) :
    OnlyReads (requestErrors fieldErrors path) := by
  refine OnlyReads.except ((onlyReads_loadJsonYaml path).bind fun _ => trivial) fun exc => ?_
  split <;> trivial

theorem onlyReads_requestLifecycleErrors (root : Path) (request : Value) :
    OnlyReads (requestLifecycleErrors root request) := by
  refine (onlyReads_get _ _).bind fun packet => (onlyReads_get _ _).bind fun id => ?_
  split_ifs
  · trivial
  refine (onlyReads_canonicalReceiptPath _ _).bind fun receiptPath =>
    (onlyReads_pathPresent _).bind fun receiptExists => (onlyReads_get _ _).bind fun status => ?_
  by_cases haccepted : (isStr "accepted" status && receiptExists) = true
  · rw [if_pos haccepted]
    trivial
  by_cases hhash : (!hashable status) = true
  · rw [if_neg haccepted, if_pos hhash]
    trivial
  rw [if_neg haccepted, if_neg hhash]
  by_cases hopen : ((isStr "proposed" status || isStr "rejected" status) && receiptExists) = true
  · rw [if_pos hopen]
    trivial
  by_cases happlied : isStr "applied" status = true
  · rw [if_neg hopen, if_pos happlied]
    cases receiptExists
    · trivial
    · exact onlyReads_sys (o := .receiptValidationErrors request) rfl
  · rw [if_neg hopen, if_neg happlied]
    trivial

theorem onlyReads_git (args : List String) : OnlyReads (git args) :=
  (onlyReads_sys rfl).bind fun result => by
    show OnlyReads (if result.1 ≠ 0 then raise .lock else pure result.2 : Proc Str)
    split_ifs <;> trivial

theorem onlyReads_stripped (args : List String) : OnlyReads (stripped args) :=
  (onlyReads_git args).bind fun _ => trivial

theorem onlyReads_statusPaths : OnlyReads statusPaths :=
  (onlyReads_git _).bind fun output => by
    unfold parseStatusZ
    dsimp only
    split_ifs <;> trivial

theorem onlyReads_parseDiffNameStatusZ (entries : List (List ℕ)) (changes : List (Str × ℕ)) :
    OnlyReads (parseDiffNameStatusZ entries changes) := by
  fun_induction parseDiffNameStatusZ entries changes <;> trivial

theorem onlyReads_candidateChanges (baseCommit candidateCommit : Str) :
    OnlyReads (candidateChanges baseCommit candidateCommit) := by
  refine (onlyReads_sys rfl).bind fun result => ?_
  split_ifs
  · trivial
  split
  · refine (onlyReads_require _).bind fun _ => (onlyReads_sys rfl).bind fun diff => ?_
    split_ifs
    · trivial
    · exact onlyReads_parseDiffNameStatusZ _ _
  · trivial

theorem onlyReads_requireDigest (path : Path) (sha256 : Str) :
    OnlyReads (requireDigest path sha256) :=
  (onlyReads_sys rfl).bind fun _ => (onlyReads_require _).bind fun _ =>
    (onlyReads_sys rfl).bind fun _ => (onlyReads_require _).bind fun _ =>
    (onlyReads_digestFile path).bind fun _ => onlyReads_require _

theorem onlyReads_checkedLocks (changes : List (Str × ℕ)) (requestRelative : Str)
    (declared : List Value) : OnlyReads (checkedLocks changes requestRelative declared) := by
  refine (onlyReads_require _).bind fun _ => (onlyReads_require _).bind fun _ =>
    (onlyReads_require _).bind fun _ => (onlyReads_require _).bind fun _ => ?_
  split
  · trivial
  · exact (onlyReads_require _).bind fun _ => trivial

theorem onlyReads_lockDigest (baseCommit candidateCommit relative : Str) :
    OnlyReads (lockDigest baseCommit candidateCommit relative) :=
  (onlyReads_sys rfl).bind fun _ => (onlyReads_sys rfl).bind fun _ =>
    (onlyReads_require _).bind fun _ => trivial

theorem onlyReads_appliedRequest (request : Value) : OnlyReads (appliedRequest request) :=
  (onlyReads_get _ _).bind fun _ => (onlyReads_require _).bind fun _ => by
    split <;> trivial

theorem onlyReads_ensureReceiptAbsent (path : Path) : OnlyReads (ensureReceiptAbsent path) :=
  (onlyReads_pathPresent path).bind fun _ => onlyReads_require _

end Reading

end DependencyLocks
