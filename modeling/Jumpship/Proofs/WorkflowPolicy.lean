import Jumpship.Lib.Fallible
import Jumpship.Lib.Quotations
import Jumpship.Proofs.PyJson
import Jumpship.Py.Order
import Jumpship.Workflows.Meaning

/-!
# What the policy's checks assure

A workflow without errors has its steps' actions, the credentials of its checkouts and its
permissions within the policy, and no string of it has `secrets.` in it. What is left of soundness
is where the tests of texts and the meaning part: an expression that names the context of the
secrets another way, and a run text in which `--target` and the target are no argument of their own.
-/

namespace Workflows

open Expressions Fallible Py Shell

/-! ## Strings in the written document -/

section Strings

variable {s : Str} {xs : List Value} {ms : Dict} {key : String}

theorem mem_strings_arr : s ∈ strings (.arr xs) ↔ ∃ x ∈ xs, s ∈ strings x := by
  rw [strings]
  induction xs with
  | nil => simp [stringsList]
  | cons x xs ih => simp [stringsList, ih]

theorem mem_strings_obj : s ∈ strings (.obj ms) ↔ ∃ m ∈ ms, s = m.1 ∨ s ∈ strings m.2 := by
  rw [strings]
  induction ms with
  | nil => simp [stringsMembers]
  | cons m ms ih => simp [stringsMembers, ih, or_assoc]

theorem infix_intercalate {α : Type} {sep part : List α} {parts : List (List α)}
    (h : part ∈ parts) : part <:+: sep.intercalate parts := by
  induction parts with
  | nil => cases h
  | cons first parts ih =>
    cases parts with
    | nil =>
      rw [List.mem_singleton.1 h]
      simp
    | cons second parts =>
      rw [List.intercalate_cons_cons, List.append_assoc]
      rcases List.mem_cons.1 h with rfl | h
      · exact (List.prefix_append _ _).isInfix
      · exact ((ih h).trans (List.suffix_append _ _).isInfix).trans (List.suffix_append _ _).isInfix

theorem infix_body {layout : Layout} {depth : ℕ} {part : List Char} {parts : List (List Char)}
    (h : part ∈ parts) : part <:+: layout.body depth parts := by
  rw [Layout.body, if_neg (List.ne_nil_of_mem h)]
  exact ((infix_intercalate h).trans (List.suffix_append _ _).isInfix).trans
    (List.prefix_append _ _).isInfix

/-- Every string of a value is written as its literal. -/
theorem infix_dumpsAt {layout : Layout} {v : Value} (hs : s ∈ strings v) (depth : ℕ) :
    quote s <:+: dumpsAt layout depth v := by
  induction v using Json.induct generalizing depth with
  | null => cases hs
  | bool b => cases hs
  | num n => cases hs
  | str t =>
    rw [List.mem_singleton.1 hs]
    exact List.infix_rfl
  | arr xs ih =>
    obtain ⟨x, hx, hs⟩ := mem_strings_arr.1 hs
    have hpart : dumpsAt layout (depth + 1) x ∈ dumpsElements layout (depth + 1) xs := by
      rw [dumpsElements_eq]
      exact List.mem_map_of_mem hx
    have hbody := (@infix_body layout depth _ _ hpart).trans
      (List.prefix_append _ [']']).isInfix
    exact ((ih x hx hs (depth + 1)).trans hbody).trans (List.suffix_cons _ _).isInfix
  | obj ms ih =>
    obtain ⟨m, hm, hs⟩ := mem_strings_obj.1 hs
    have hpart : layout.member (m.1, dumpsAt layout (depth + 1) m.2) ∈
        (layout.order (dumpsMembers layout (depth + 1) ms)).map layout.member := by
      refine List.mem_map_of_mem ((layout.perm_order _).mem_iff.2 ?_)
      rw [dumpsMembers_eq]
      exact List.mem_map_of_mem hm
    have hbody := (@infix_body layout depth _ _ hpart).trans
      (List.prefix_append _ ['}']).isInfix
    have hmember : quote s <:+: layout.member (m.1, dumpsAt layout (depth + 1) m.2) := by
      rcases hs with rfl | hs
      · rw [Layout.member, List.append_assoc]
        exact (List.prefix_append _ _).isInfix
      · exact (ih m hm hs (depth + 1)).trans (List.suffix_append _ _).isInfix
    exact (hmember.trans hbody).trans (List.suffix_cons _ _).isInfix

theorem infix_quote {part : List ℕ} (h : part <:+: s.codes) :
    part.flatMap escapeCode <:+: quote s := by
  obtain ⟨before, after, h⟩ := h
  refine ⟨'"' :: before.flatMap escapeCode, after.flatMap escapeCode ++ ['"'], ?_⟩
  rw [quote, ← h]
  simp

end Strings

/-! ## Words found in the written document -/

section Words

variable {layout : Layout} {v : Value} {w : List Char}

/-- The characters of a written value outside of its strings. -/
def outside : List Char :=
  ['0', '1', '2', '3', '4', '5', '6', '7', '8', '9', '+', '-', '.', 'e', 'E', 'n', 'u', 'l', 't', 'r',
    'f', 'a', 's', 'N', 'I', 'i', 'y', '[', ']', '\x7b', '\x7d', '(', ')', ':', ',', ' ', '\n']

theorem digitChar_mem_outside : ∀ d, JsonText.digitChar d ∈ outside := by decide

theorem map_digitChar_subset (ds : List Digit) : ds.map JsonText.digitChar ⊆ outside := by
  intro c hc
  obtain ⟨d, -, rfl⟩ := List.mem_map.1 hc
  exact digitChar_mem_outside d

theorem expText_subset (e : Option JsonText.Exponent) : JsonText.expText e ⊆ outside := by
  rcases e with _ | ⟨upper, sign, digits, _⟩
  · exact List.nil_subset _
  have hsign : JsonText.signText sign ⊆ outside := by
    rcases sign with _ | _ | _ <;> decide
  have hmark : (if upper then 'E' else 'e') ∈ outside := by cases upper <;> decide
  exact List.cons_subset.2 ⟨hmark, List.append_subset.2 ⟨hsign, map_digitChar_subset digits⟩⟩

theorem numberText_subset (n : JsonText.Number) : n.text ⊆ outside := by
  have hneg : (if n.neg then ['-'] else []) ⊆ outside := by split_ifs <;> decide
  have hfrac : JsonText.fracText n.frac ⊆ outside := by
    unfold JsonText.fracText
    split_ifs
    · exact List.nil_subset _
    · exact List.cons_subset.2 ⟨by decide, map_digitChar_subset _⟩
  exact List.append_subset.2 ⟨hneg, List.append_subset.2 ⟨map_digitChar_subset _,
    List.append_subset.2 ⟨hfrac, expText_subset _⟩⟩⟩

theorem numberRepr_subset (x : Number) : numberRepr x ⊆ outside := by
  by_cases hx : x.isFinite = true
  · obtain ⟨n, htext, -⟩ := numberRepr_literal hx
    rw [htext]
    exact numberText_subset n
  · cases x with
    | int z => exact absurd rfl hx
    | float x =>
      cases x with
      | finite x => exact absurd rfl hx
      | negZero => exact absurd rfl hx
      | inf negative => cases negative <;> decide
      | nan => decide

/-- A layout that puts nothing but such characters between the strings. -/
def Spare (layout : Layout) : Prop :=
  layout.itemSeparator ⊆ outside ∧ layout.keySeparator ⊆ outside

theorem newline_subset (layout : Layout) (depth : ℕ) : layout.newline depth ⊆ outside := by
  unfold Layout.newline
  split
  · exact List.nil_subset _
  · refine List.cons_subset.2 ⟨by decide, fun c hc => ?_⟩
    rw [(List.mem_replicate.1 hc).2]
    decide

/-- What is written between the quotes of the strings of a value. -/
def bodies (v : Value) : Set (List Char) := {body | ∃ s ∈ strings v, body = s.codes.flatMap escapeCode}

abbrev WrittenWith (bodies : Set (List Char)) : List Char → Prop :=
  Quotations.Made '"' {c | c ∈ outside} bodies

theorem written_of_subset {bodies : Set (List Char)} {t : List Char} (h : t ⊆ outside) :
    WrittenWith bodies t := .of_forall fun _ hc => h hc

open Quotations in
theorem written_body (hlayout : Spare layout) {bodies : Set (List Char)} {depth : ℕ}
    {parts : List (List Char)} (h : ∀ p ∈ parts, WrittenWith bodies p) :
    WrittenWith bodies (layout.body depth parts) := by
  unfold Layout.body
  split_ifs
  · exact .nil
  · refine ((written_of_subset (newline_subset _ _)).append (.intercalate ?_ h)).append
      (written_of_subset (newline_subset _ _))
    exact List.append_subset.2 ⟨hlayout.1, newline_subset _ _⟩

open Quotations in
theorem written_quote {bodies : Set (List Char)} {s : Str}
    (h : s.codes.flatMap escapeCode ∈ bodies) : WrittenWith bodies (quote s) := .single h

open Quotations in
/-- A written value is made of its strings and of characters outside. -/
theorem written_dumpsAt (hlayout : Spare layout) (v : Value) (depth : ℕ) :
    WrittenWith (bodies v) (dumpsAt layout depth v) := by
  induction v using Json.induct generalizing depth with
  | null => exact written_of_subset (t := ['n', 'u', 'l', 'l']) (by decide)
  | bool b =>
    cases b with
    | true => exact written_of_subset (t := ['t', 'r', 'u', 'e']) (by decide)
    | false => exact written_of_subset (t := ['f', 'a', 'l', 's', 'e']) (by decide)
  | num n => exact written_of_subset (numberRepr_subset n)
  | str s => exact written_quote ⟨s, List.mem_singleton.2 rfl, rfl⟩
  | arr xs ih =>
    have hopen : '[' ∈ outside := by decide
    refine .other hopen ((written_body hlayout fun p hp => ?_).append
      (written_of_subset (t := [']']) (by decide)))
    rw [dumpsElements_eq] at hp
    obtain ⟨x, hx, rfl⟩ := List.mem_map.1 hp
    refine (ih x hx _).mono ?_
    rintro _ ⟨s, hs, rfl⟩
    exact ⟨s, mem_strings_arr.2 ⟨x, hx, hs⟩, rfl⟩
  | obj ms ih =>
    have hopen : '\x7b' ∈ outside := by decide
    refine .other hopen ((written_body hlayout fun p hp => ?_).append
      (written_of_subset (t := ['\x7d']) (by decide)))
    obtain ⟨m', hm', rfl⟩ := List.mem_map.1 hp
    rw [(layout.perm_order _).mem_iff, dumpsMembers_eq] at hm'
    obtain ⟨m, hm, rfl⟩ := List.mem_map.1 hm'
    have hkey : WrittenWith (bodies (.obj ms)) (quote m.1) :=
      written_quote ⟨m.1, mem_strings_obj.2 ⟨m, hm, .inl rfl⟩, rfl⟩
    refine (hkey.append (written_of_subset hlayout.2)).append ((ih m hm _).mono ?_)
    rintro _ ⟨s, hs, rfl⟩
    exact ⟨s, mem_strings_obj.2 ⟨m, hm, .inr hs⟩, rfl⟩

/-- A word with a character that stands in strings only, and without a quote, is found in a written
value if and only if it is found in what is written of one string. -/
theorem infix_dumps_iff (hlayout : Spare layout) (hquote : '"' ∉ w) (hinside : ∃ c ∈ w, c ∉ outside) :
    w <:+: dumps layout v ↔ ∃ s ∈ strings v, w <:+: s.codes.flatMap escapeCode := by
  constructor
  · intro h
    rcases (written_dumpsAt hlayout v 0).infix_body h hquote with ⟨_, ⟨s, hs, rfl⟩, h⟩ | h
    · exact ⟨s, hs, h⟩
    · obtain ⟨c, hc, hno⟩ := hinside
      exact absurd (h c hc) hno
  · rintro ⟨s, hs, h⟩
    have hbody : s.codes.flatMap escapeCode <:+: quote s := ⟨['"'], ['"'], rfl⟩
    exact (h.trans hbody).trans (infix_dumpsAt hs 0)

end Words

section Contents

variable {s : Str} {ms : Dict} {key : String}

/-! ## Expressions stand in strings -/

theorem mem_of_get {v : Value} (h : get ms key = v) (hv : v ≠ .null) : (str key, v) ∈ ms := by
  rw [get] at h
  cases hlookup : ms.lookup (str key) with
  | none =>
    rw [hlookup] at h
    exact absurd h.symm hv
  | some w =>
    rw [hlookup] at h
    obtain rfl : w = v := h
    exact Json.mem_of_lookup hlookup

theorem mem_strings_of_get {v : Value} (h : get ms key = v) (hv : v ≠ .null) (hs : s ∈ strings v) :
    s ∈ strings (.obj ms) := mem_strings_obj.2 ⟨_, mem_of_get h hv, .inr hs⟩

theorem mem_strings_of_isJob {document job : Dict} {name : Str} (h : IsJob document name job)
    (hs : s ∈ strings (.obj job)) : s ∈ strings (.obj document) := by
  obtain ⟨jobs, hjobs, hmem⟩ := h
  exact mem_strings_of_get hjobs (fun h => by cases h) (mem_strings_obj.2 ⟨_, hmem, .inr hs⟩)

theorem mem_strings_of_isStep {document step : Dict} (h : IsStep document step)
    (hs : s ∈ strings (.obj step)) : s ∈ strings (.obj document) := by
  obtain ⟨name, job, steps, hjob, hsteps, hmem⟩ := h
  exact mem_strings_of_isJob hjob
    (mem_strings_of_get hsteps (fun h => by cases h) (mem_strings_arr.2 ⟨_, hmem, hs⟩))

theorem exists_of_isExpression {document : Dict} {e : List ℕ} (h : IsExpression document e) :
    ∃ s ∈ strings (.obj document), e <:+: s.codes := by
  cases h with
  | embedded hs he => exact ⟨_, hs, infix_of_mem_embedded he⟩
  | @job name job s hjob hs =>
    exact ⟨s, mem_strings_of_isJob hjob (mem_strings_of_get hs (fun h => by cases h)
      (List.mem_singleton.2 rfl)), List.infix_rfl⟩
  | @step step s hstep hs =>
    exact ⟨s, mem_strings_of_isStep hstep (mem_strings_of_get hs (fun h => by cases h)
      (List.mem_singleton.2 rfl)), List.infix_rfl⟩

end Contents

/-! ## The checks of a value -/

section Checks

variable {location : Location} {permissions uses : Value} {allowIdToken : Bool}

theorem problem_eq_nil {test : Bool} {reason : Reason} :
    problem test location reason = [] ↔ test = false := by
  cases test <;> simp [problem]

theorem isText_eq_true {t : String} {v : Value} : isText t v = true ↔ v = .str (str t) := by
  cases v <;> simp [isText]

theorem codes_of_partition {mark : ℕ} {s before after : List ℕ}
    (h : partition mark s = (before, true, after)) : s = before ++ mark :: after := by
  induction s generalizing before with
  | nil => cases h
  | cons c s ih =>
    rw [partition] at h
    split_ifs at h with hc
    · obtain ⟨rfl, -, rfl⟩ : [] = before ∧ true = true ∧ s = after := by simpa using h
      rw [hc, List.nil_append]
    · obtain ⟨rfl, htail⟩ : c :: (partition mark s).1 = before ∧
          (partition mark s).2 = (true, after) := by simpa using h
      rw [List.cons_append, ← ih (by rw [← htail])]

theorem found_of_partition {mark : ℕ} {s : List ℕ} (h : (partition mark s).2.2 ≠ []) :
    (partition mark s).2.1 = true := by
  induction s with
  | nil => exact absurd rfl h
  | cons c s ih =>
    rw [partition] at h ⊢
    split_ifs at h ⊢ with hc
    · rfl
    · exact ih h

/-- The two groups are what stands around the sign. -/
theorem codes_of_externalAction {s action sha : List ℕ} (h : externalAction? s = some (action, sha)) :
    s = action ++ 0x40 :: sha := by
  simp only [externalAction?] at h
  split_ifs at h with htest
  obtain ⟨rfl, rfl⟩ : (partition 0x40 s).1 = action ∧ (partition 0x40 s).2.2 = sha := by
    simpa using h
  obtain ⟨-, -, -, hlength, -⟩ := htest
  have hne : (partition 0x40 s).2.2 ≠ [] := fun hnil => by
    rw [hnil] at hlength
    cases hlength
  exact codes_of_partition (by rw [← found_of_partition hne])

theorem allowed_of_validateActionReference (h : validateActionReference uses location = []) :
    Allowed uses := by
  unfold validateActionReference at h
  split at h
  · rename_i s
    split_ifs at h with hsetup hlocal
    · exact .inl (by rw [hsetup])
    · split at h
      · cases h
      · rename_i action sha hexternal
        split at h
        · cases h
        · rename_i expected hexpected
          rw [problem_eq_nil, decide_eq_false_iff_not, not_not] at h
          subst h
          exact .inr ⟨s, action, sha, rfl, Json.mem_of_lookup hexpected,
            codes_of_externalAction hexternal⟩
  · cases h

/-- The checkouts among the allowed actions are the one the credentials are checked of. -/
theorem isText_of_isCheckout (hallowed : Allowed uses) (h : IsCheckout uses) :
    isText checkoutAction uses = true := by
  obtain ⟨s, rfl, hcheckout⟩ := h
  rw [isText_eq_true]
  rcases hallowed with hsetup | ⟨_, action, sha, ⟨⟩, hmem, hcodes⟩
  · obtain rfl := Json.str.inj hsetup
    exact absurd hcheckout (by decide)
  · refine congrArg Json.str (Str.codes_injective (hcodes.trans ?_))
    rw [hcodes] at hcheckout
    simp only [pinnedActions, List.mem_cons, Prod.mk.injEq, List.not_mem_nil, or_false] at hmem
    obtain ⟨rfl, rfl⟩ | ⟨rfl, rfl⟩ | ⟨rfl, rfl⟩ := hmem
    · decide
    · exact absurd hcheckout (by decide)
    · exact absurd hcheckout (by decide)

theorem sortedNames_eq_nil {names : List Str} : sortedNames names = [] ↔ names = [] := by
  have hlength : (sortedNames names).length = names.length := by
    rw [sortedNames, Json.names, List.length_map, (Json.perm_sortByName _ _).length_eq,
      List.length_map]
  rw [← List.length_eq_zero_iff, hlength, List.length_eq_zero_iff]

/-- What a mapping without problems grants. -/
theorem grants_of_validatePermissions
    (h : validatePermissions permissions location allowIdToken = []) {scope : Str} {access : Value}
    (hgrants : Grants permissions scope access) :
    (scope = str "contents" ∧ access = .str (str "read")) ∨
      (allowIdToken = true ∧ scope = str "id-token") := by
  unfold validatePermissions at h
  split at h
  · rename_i ms
    simp only [List.append_eq_nil_iff, problem_eq_nil] at h
    obtain ⟨⟨hkeys, hcontents⟩, -⟩ := h
    have haccess : ms.lookup scope = some access := hgrants ms rfl
    rw [decide_eq_false_iff_not, not_not, sortedNames_eq_nil, List.filter_eq_nil_iff] at hkeys
    have hscope := hkeys scope (Json.mem_names_of_mem (Json.mem_of_lookup haccess))
    rw [Bool.not_eq_true, Bool.not_eq_false', List.contains_iff_mem, List.mem_cons] at hscope
    rcases hscope with rfl | hscope
    · rw [Bool.not_eq_false', isText_eq_true, get, haccess] at hcontents
      exact .inl ⟨rfl, hcontents⟩
    · cases allowIdToken with
      | true => exact .inr ⟨rfl, List.mem_singleton.1 hscope⟩
      | false => cases hscope
  · cases h

end Checks

/-! ## The checks of a workflow -/

section Workflow

variable {rt : Runtime} {name : String} {document : Dict} {policy : Policy}

theorem problems_foldl {scans : List Scan} {scan : Scan} :
    (scans.foldl Scan.add scan).problems = scan.problems ++ scans.flatMap Scan.problems := by
  induction scans generalizing scan with
  | nil => simp
  | cons first scans ih =>
    rw [List.foldl_cons, ih, List.flatMap_cons]
    exact List.append_assoc _ _ _

theorem problems_of_foldl {scans : List Scan} {scan : Scan}
    (h : (scans.foldl Scan.add scan).problems = []) :
    scan.problems = [] ∧ ∀ s ∈ scans, s.problems = [] := by
  rw [problems_foldl, List.append_eq_nil_iff] at h
  exact ⟨h.1, List.flatMap_eq_nil_iff.1 h.2⟩

/-- What the checks assure when they add no problem. -/
structure Checked (rt : Runtime) (name : String) (document : Dict) : Prop where
  permissions : validatePermissions (get document "permissions") .topLevel false = []
  jobs : ∀ job ms, IsJob document job ms →
    ∃ scan, rt.checkJob name job (.obj ms) = .ok scan ∧ scan.problems = []
  secrets : ¬ "secrets.".toList <:+: rawText document

theorem not_infix_of_checkTexts (h : rt.checkTexts document policy = .ok []) :
    ∀ forbidden ∈ forbiddenWorkflowText, ¬ forbidden.toList <:+: rawText document := by
  intro forbidden hmem hinfix
  simp only [Runtime.checkTexts, bind_eq_ok, Except.ok.injEq, List.append_eq_nil_iff] at h
  obtain ⟨artifacts, -, -, hforbidden⟩ := h
  have hnone := List.flatMap_eq_nil_iff.1 hforbidden forbidden hmem
  rw [problem_eq_nil, List.any_eq_false] at hnone
  obtain ⟨t, htail, hsuffix⟩ := List.infix_iff_prefix_suffix.1 hinfix
  exact hnone t ((List.mem_tails _ _).2 hsuffix) (List.isPrefixOf_iff_prefix.2 htail)

theorem checked_of_accepted (h : rt.validateCommonWorkflow name document policy = .ok []) :
    Checked rt name document := by
  unfold Runtime.validateCommonWorkflow at h
  split at h
  · rename_i job jobs hjobs
    simp only [bind_eq_ok, Except.ok.injEq, List.append_eq_nil_iff] at h
    obtain ⟨scans, hscans, texts, htexts, ⟨⟨⟨hhead, htotal⟩, -⟩, -⟩, rfl⟩ := h
    simp only [checkHead, List.append_eq_nil_iff] at hhead
    refine ⟨hhead.1.2, ?_, not_infix_of_checkTexts htexts _ (by decide)⟩
    rintro name' ms ⟨jobs', hjobs', hmem⟩
    obtain rfl := Json.obj.inj (hjobs'.symm.trans hjobs)
    obtain ⟨scan, hscan, hcheck⟩ := exists_of_mapM_eq_ok hscans _ hmem
    exact ⟨scan, hcheck, (problems_of_foldl htotal).2 scan hscan⟩
  · simp at h

/-- What the checks of a job assure of its permissions and its steps. -/
theorem checkJob_eq_ok {job : Str} {ms : Dict} {scan : Scan}
    (h : rt.checkJob name job (.obj ms) = .ok scan) (hscan : scan.problems = []) :
    (∀ permissions, ms.lookup (str "permissions") = some permissions →
        validatePermissions permissions (.job job)
          (name = "ci-infra.yml" && job = str "plan") = []) ∧
      ∀ steps step, get ms "steps" = .arr steps → step ∈ steps →
        ∃ index scan, rt.checkStep job index step = .ok scan ∧ scan.problems = [] := by
  unfold Runtime.checkJob at h
  dsimp only at h
  split at h
  · rename_i first rest hsteps
    simp only [bind_eq_ok, Except.ok.injEq] at h
    obtain ⟨scans, hscans, rfl⟩ := h
    obtain ⟨hproblems, hall⟩ := problems_of_foldl hscan
    refine ⟨fun permissions hpermissions => ?_, fun steps step hsteps' hmem => ?_⟩
    · rw [hpermissions] at hproblems
      exact (List.append_eq_nil_iff.1 hproblems).2
    · obtain rfl := Json.arr.inj (hsteps'.symm.trans hsteps)
      obtain ⟨⟨_, index⟩, hindex, rfl⟩ : ∃ p ∈ (first :: rest).zipIdx, p.1 = step := by
        rw [← List.mem_map]
        simpa only [List.zipIdx_map_fst] using hmem
      obtain ⟨scan, hscan, hcheck⟩ := exists_of_mapM_eq_ok hscans _ hindex
      exact ⟨index, scan, hcheck, hall scan hscan⟩
  · rw [← Except.ok.inj h] at hscan
    exact absurd (List.append_eq_nil_iff.1 hscan).2 (List.cons_ne_nil _ _)

theorem checkStep_eq_ok {job : Str} {index : ℕ} {step : Dict} {scan : Scan} {uses : Value}
    (h : rt.checkStep job index (.obj step) = .ok scan) (hscan : scan.problems = [])
    (huses : step.lookup (str "uses") = some uses) :
    validateActionReference uses (.step job index) = [] ∧
      (isText checkoutAction uses = true → ∃ inputs, get step "with" = .obj inputs ∧
        get inputs "persist-credentials" = .str (str "false")) := by
  unfold Runtime.checkStep at h
  dsimp only at h
  rw [huses] at h
  simp only [bind_eq_ok, Except.ok.injEq] at h
  obtain ⟨credentials, hcredentials, rfl⟩ := h
  obtain ⟨hreference, rfl⟩ := List.append_eq_nil_iff.1 hscan
  refine ⟨hreference, fun hcheckout => ?_⟩
  rw [checkCredentials, if_pos hcheckout] at hcredentials
  split at hcredentials
  · rename_i inputs hinputs
    rw [Except.ok.injEq, problem_eq_nil, Bool.not_eq_false', isText_eq_true] at hcredentials
    cases hwith : step.lookup (str "with") with
    | none =>
      -- the inputs of a checkout that has none are empty
      rw [hwith] at hinputs
      obtain rfl := Json.obj.inj hinputs
      cases hcredentials
    | some value =>
      rw [hwith] at hinputs
      refine ⟨inputs, ?_, hcredentials⟩
      rw [get, hwith]
      exact hinputs
  · cases hcredentials

/-- No expression has the name of the context before a dot. -/
theorem not_isDotted (h : Checked rt name document) {e : List ℕ} (he : IsExpression document e)
    {m : List ℕ × List ℕ} (hm : m ∈ contexts e) : ¬ IsDotted m := by
  rintro ⟨hname, hdot⟩
  obtain ⟨s, hs, hinfix⟩ := exists_of_isExpression he
  obtain ⟨rest, hrest⟩ : ∃ rest, m.2 = 0x2E :: rest := by
    cases hm2 : m.2 with
    | nil => rw [hm2] at hdot; cases hdot
    | cons c rest =>
      rw [hm2] at hdot
      exact ⟨rest, by rw [Option.some.inj hdot]⟩
  have hsecrets : codes "secrets." <:+: s.codes := by
    have hstart : codes "secrets." <+: m.1 ++ m.2 := ⟨rest, by rw [hname, hrest]; rfl⟩
    exact (hstart.isInfix.trans (infix_of_mem_contexts hm)).trans hinfix
  have hquote := infix_quote hsecrets
  rw [show (codes "secrets.").flatMap escapeCode = "secrets.".toList by decide] at hquote
  exact h.secrets (hquote.trans (infix_dumpsAt hs 0))

/-- A target of the table is a plain word. -/
theorem plain_of_expectedWorkflows (h : (name, policy) ∈ expectedWorkflows) :
    ∀ target ∈ policy.targets, codes target ≠ [] ∧ ∀ c ∈ codes target, isPlain c = true := by
  have hall : ∀ p ∈ expectedWorkflows, ∀ target ∈ p.2.targets,
      codes target ≠ [] ∧ ∀ c ∈ codes target, isPlain c = true := by decide +kernel
  exact hall _ h

theorem passes_iff {run target : List ℕ} (hne : target ≠ [])
    (hplain : ∀ c ∈ target, isPlain c = true) :
    Passes run target ↔ Whole run target ∨ Respelled run target := by
  have hlast : ∀ front, (front ++ target).getLast? ≠ some 0x5C := by
    intro front hslash
    rw [List.getLast?_append_of_ne_nil _ hne] at hslash
    exact absurd (hplain _ (List.mem_of_getLast? hslash)) (by decide)
  have hpair : Spells (codes "--target " ++ target) [codes "--target"] target :=
    @spells_pair (codes "--target") _ (by decide) ⟨hne, hplain⟩
  have hnext : HasWords run [codes "--target", target] ↔ _ :=
    @hasWords_iff _ [codes "--target"] _ (hlast [])
  have hjoined : HasWords run [codes "--target=" ++ target] ↔ _ :=
    @hasWords_iff _ [] _ (hlast _)
  rw [Passes, hnext, hjoined]
  constructor
  · rintro (⟨a, b, c, hrun, ha, hb, hc⟩ | ⟨a, b, c, hrun, ha, hb, hc⟩)
    · by_cases hwhole : b = codes "--target " ++ target
      · exact .inl ⟨a, c, hwhole ▸ hrun, ha, hc⟩
      · exact .inr ⟨a, b, c, hrun, hwhole, ha, .inl hb, hc⟩
    · by_cases hwhole : b = codes "--target " ++ target
      · exact .inl ⟨a, c, hwhole ▸ hrun, ha, hc⟩
      · exact .inr ⟨a, b, c, hrun, hwhole, ha, .inr hb, hc⟩
  · rintro (⟨a, c, hrun, ha, hc⟩ | ⟨a, b, c, hrun, -, ha, hb | hb, hc⟩)
    · exact .inl ⟨a, _, c, hrun, ha, hpair, hc⟩
    · exact .inl ⟨a, b, c, hrun, ha, hb, hc⟩
    · exact .inr ⟨a, b, c, hrun, ha, hb, hc⟩

end Workflow

/-! ## The merge workflow -/

section MergeWorkflow

/-- A runtime for documents whose letters and digits are ASCII and whose texts are strings. -/
def asciiRuntime : Runtime := ⟨fun _ => [], fun _ => false, fun _ => none⟩

def textOf (s : String) : Value := .str (str s)

def objectOf (ms : List (String × Value)) : Value := .obj (ms.map fun m => (str m.1, m.2))

def mergePolicy : Policy := ⟨["push", "schedule", "workflow_dispatch"], [14], ["verify"]⟩

def mergeSteps (run : String) : List Dict :=
  [[(str "uses", textOf checkoutAction),
      (str "with", objectOf [("persist-credentials", textOf "false")])],
    [(str "run", textOf run)],
    [(str "uses", textOf uploadAction), (str "if", textOf "${{ always() }}"),
      (str "with", objectOf [("name", textOf "${{ github.run_id }}-${{ github.run_attempt }}"),
        ("path", textOf ".ci-artifacts/"), ("include-hidden-files", textOf "true"),
        ("if-no-files-found", textOf "error"), ("retention-days", textOf "14")])]]

def mergeJob (run : String) : Dict :=
  [(str "runs-on", textOf "ubuntu-24.04"), (str "timeout-minutes", int 30),
    (str "steps", .arr ((mergeSteps run).map .obj))]

/-- A merge workflow with the run text of its gate. -/
def mergeWorkflow (run : String) : Dict :=
  [(str "name", textOf "merge"),
    (str "on", objectOf [("push", .null), ("schedule", .null), ("workflow_dispatch", .null)]),
    (str "permissions", objectOf [("contents", textOf "read")]),
    (str "concurrency", objectOf [("group", textOf "${{ github.ref }}"),
      ("cancel-in-progress", .bool false)]),
    (str "jobs", .obj [(str "verify", .obj (mergeJob run))])]

def gateRun : String := "python3 scripts/ci/run_gate.py --target verify >> $GITHUB_STEP_SUMMARY"

/-- The token by its index, and a target that only begins as the policy's does. -/
def leakingRun : String :=
  "TOKEN=$\x7b\x7b secrets['TOKEN'] \x7d\x7d python3 scripts/ci/run_gate.py " ++
    "--target verify-nothing >> $GITHUB_STEP_SUMMARY"

theorem mergePolicy_mem : ("ci-merge.yml", mergePolicy) ∈ expectedWorkflows := .tail _ (.head _)

theorem isJob_mergeWorkflow {run : String} {name : Str} {job : Dict}
    (h : IsJob (mergeWorkflow run) name job) : job = mergeJob run := by
  obtain ⟨jobs, hjobs, hmem⟩ := h
  obtain rfl := Json.obj.inj hjobs
  exact Json.obj.inj (congrArg Prod.snd (List.mem_singleton.1 hmem))

theorem isStep_mergeWorkflow {run : String} {step : Dict} :
    IsStep (mergeWorkflow run) step ↔ step ∈ mergeSteps run := by
  constructor
  · rintro ⟨name, job, steps, hjob, hsteps, hmem⟩
    obtain rfl := isJob_mergeWorkflow hjob
    obtain rfl := Json.arr.inj hsteps
    obtain ⟨step', hstep, h⟩ := List.mem_map.1 hmem
    rwa [← Json.obj.inj h]
  · intro h
    exact ⟨str "verify", mergeJob run, _, ⟨_, rfl, List.mem_singleton.2 rfl⟩, rfl,
      List.mem_map_of_mem h⟩

/-- The only condition is the one of the upload. -/
theorem legible_mergeWorkflow : Legible (mergeWorkflow gateRun) mergePolicy := by
  have hstrings : ∀ s ∈ strings (.obj (mergeWorkflow gateRun)), ∀ e ∈ embedded s.codes,
      ∀ m ∈ contexts e, m.1.map lower ≠ codes "secrets" := by decide +kernel
  have halways : ∀ m ∈ contexts (codes "${{ always() }}"), m.1.map lower ≠ codes "secrets" := by
    decide
  refine ⟨fun e he m hm hname => ?_, ?_⟩
  · cases he with
    | embedded hs he => exact absurd hname (hstrings _ hs _ he m hm)
    | job hjob hs =>
      obtain rfl := isJob_mergeWorkflow hjob
      cases hs
    | step hstep hs =>
      simp only [isStep_mergeWorkflow, mergeSteps, List.mem_cons, List.not_mem_nil, or_false] at hstep
      obtain rfl | rfl | rfl := hstep
      · cases hs
      · cases hs
      · obtain rfl := Json.str.inj hs
        exact absurd hname (halways m hm)
  · rintro target (_ | ⟨_, ⟨⟩⟩)
    refine ⟨_, str gateRun, isStep_mergeWorkflow.2 (.tail _ (.head _)), rfl, .inl
      ⟨codes "python3 scripts/ci/run_gate.py ", codes " >> $GITHUB_STEP_SUMMARY", by decide,
        by decide, ?_⟩⟩
    rintro c ⟨⟩
    decide

instance decidableAccepted (x : Except Exc Problems) : Decidable (x = .ok []) :=
  match x with
  | .ok [] => .isTrue rfl
  | .ok (_ :: _) => .isFalse (by simp)
  | .error _ => .isFalse (by simp)

theorem any_tails_isPrefixOf (f : String) (raw : List Char) :
    raw.tails.any f.toList.isPrefixOf = contains (codes f) (raw.map Char.toNat) := by
  induction raw with
  | nil => cases h : f.toList <;> simp [contains, codes, h]
  | cons c raw ih =>
    rw [contains, List.map_cons, List.tails_cons, List.tails_cons, List.any_cons, List.any_cons, ih,
      contains]
    congr 1
    rw [Bool.eq_iff_iff, List.isPrefixOf_iff_prefix, List.isPrefixOf_iff_prefix, ← List.map_cons]
    exact (List.prefix_map_iff_of_injective fun _ _ => Char.toNat_inj.1).symm

theorem spare_rawText : Spare ⟨none, [',', ' '], [':', ' '], true⟩ := ⟨by decide, by decide⟩

/-- The forbidden texts stand in strings only. -/
theorem forbidden_inside {f : String} (hf : f ∈ forbiddenWorkflowText) :
    '"' ∉ f.toList ∧ ∃ c ∈ f.toList, c ∉ outside := by
  have hall : (forbiddenWorkflowText.all fun f => !f.toList.contains '"' &&
      f.toList.any fun c => !outside.contains c) = true := by decide +kernel
  simpa using List.all_eq_true.1 hall f hf

/-- The test of the raw text finds what is written of a string of the workflow. -/
theorem found_iff {document : Dict} {f : String} (hf : f ∈ forbiddenWorkflowText) :
    (rawText document).tails.any f.toList.isPrefixOf = true ↔
      ∃ s ∈ strings (.obj document), f.toList <:+: s.codes.flatMap escapeCode := by
  obtain ⟨hquote, hinside⟩ := forbidden_inside hf
  rw [← infix_dumps_iff spare_rawText hquote hinside, List.any_eq_true]
  constructor
  · rintro ⟨t, ht, hstart⟩
    exact (List.isPrefixOf_iff_prefix.1 hstart).isInfix.trans ((List.mem_tails _ _).1 ht).isInfix
  · intro h
    obtain ⟨t, hstart, hsuffix⟩ := List.infix_iff_prefix_suffix.1 h
    exact ⟨t, (List.mem_tails _ _).2 hsuffix, List.isPrefixOf_iff_prefix.2 hstart⟩

/-- Nothing forbidden is written of the string. -/
def isClean (s : Str) : Bool :=
  forbiddenWorkflowText.all fun f =>
    !contains (codes f) ((s.codes.flatMap escapeCode).map Char.toNat)

theorem forbidden_eq_nil {document : Dict} (h : ∀ s ∈ strings (.obj document), isClean s = true) :
    (forbiddenWorkflowText.flatMap fun f =>
      problem ((rawText document).tails.any f.toList.isPrefixOf) .workflow (.forbidden f)) = [] := by
  rw [List.flatMap_eq_nil_iff]
  intro f hf
  rw [problem_eq_nil, ← Bool.not_eq_true, found_iff hf]
  rintro ⟨s, hs, hinfix⟩
  have hclean := List.all_eq_true.1 (h s hs) f hf
  obtain ⟨t, hstart, hsuffix⟩ := List.infix_iff_prefix_suffix.1 hinfix
  rw [← any_tails_isPrefixOf, List.any_eq_true.2 ⟨t, (List.mem_tails _ _).2 hsuffix,
    List.isPrefixOf_iff_prefix.2 hstart⟩] at hclean
  cases hclean

theorem isClean_mergeWorkflow {run : String} (hrun : isClean (str run) = true) :
    ∀ s ∈ strings (.obj (mergeWorkflow run)), isClean s = true := by
  have hfirst : ∀ s ∈ (strings (.obj (mergeWorkflow ""))).take 30, isClean s = true := by
    decide +kernel
  have hrest : ∀ s ∈ (strings (.obj (mergeWorkflow ""))).drop 30, isClean s = true := by
    decide +kernel
  have hset : strings (.obj (mergeWorkflow run)) =
      (strings (.obj (mergeWorkflow ""))).set 25 (str run) := rfl
  intro s hs
  rw [hset] at hs
  rcases List.mem_or_eq_of_mem_set hs with hs | rfl
  · rw [← List.take_append_drop 30 (strings _)] at hs
    exact (List.mem_append.1 hs).elim (hfirst s) (hrest s)
  · exact hrun

/-- No problem is found with either run text. -/
theorem accepted_mergeWorkflow :
    asciiRuntime.validateCommonWorkflow "ci-merge.yml" (mergeWorkflow gateRun) mergePolicy = .ok [] ∧
      asciiRuntime.validateCommonWorkflow "ci-merge.yml" (mergeWorkflow leakingRun) mergePolicy =
        .ok [] := by
  have hgate := forbidden_eq_nil (@isClean_mergeWorkflow gateRun (by decide +kernel))
  have hleaking := forbidden_eq_nil (@isClean_mergeWorkflow leakingRun (by decide +kernel))
  unfold Runtime.validateCommonWorkflow Runtime.checkTexts
  simp only [hgate, hleaking]
  constructor
  · decide +kernel
  · decide +kernel

end MergeWorkflow

end Workflows
