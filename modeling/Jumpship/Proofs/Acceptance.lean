import Jumpship.Contracts.SchemaValidator

/-!
# What an instance that validates satisfies

A run of `validate` that raises nothing has passed every check on its way. One lemma a keyword says
what passing it gives.
-/

namespace SchemaValidator

open Py Eval

section Passes

variable {α β : Type} {m : Eval α} {f : α → Eval β}

/-- The evaluation can answer `a`. -/
def Passes (m : Eval α) (a : α) : Prop := ∃ t, (m t).1 = .ok a

theorem passes_pure {a b : α} : Passes (pure a : Eval α) b ↔ a = b :=
  ⟨fun ⟨_, h⟩ => Except.ok.inj h, fun h => ⟨⟨false, false⟩, congrArg _ h⟩⟩

theorem not_passes_raise (e : Exc) (a : α) : ¬ Passes (raise e : Eval α) a :=
  fun ⟨_, h⟩ => nomatch h

theorem Passes.bind {b : β} (h : Passes (m >>= f) b) : ∃ a, Passes m a ∧ Passes (f a) b := by
  obtain ⟨t, h⟩ := h
  rcases hm : m t with ⟨e | a, t'⟩
  · rw [bind_of_error hm] at h
    cases h
  · rw [bind_of_ok hm] at h
    exact ⟨a, ⟨t, by rw [hm]⟩, ⟨t', h⟩⟩

theorem Passes.seq {n : Eval β} {u : Eval Unit} {b : β} (h : Passes (u >>= fun _ => n) b) :
    Passes u () ∧ Passes n b := by
  obtain ⟨a, hu, hn⟩ := h.bind
  exact ⟨hu, hn⟩

theorem Passes.require {test : Bool} {path : Path} {reason : Reason}
    (h : Passes (require test path reason) ()) : test = true := by
  by_contra hno
  rw [Eval.require, if_neg hno] at h
  exact not_passes_raise _ _ h

theorem Passes.forEach {body : α → Eval Unit} :
    ∀ {xs : List α}, Passes (forEach body xs) () → ∀ x ∈ xs, Passes (body x) ()
  | [], _ => by simp
  | x :: xs, h => by
    obtain ⟨hx, hxs⟩ := Passes.seq (n := Eval.forEach body xs) h
    intro y hy
    rcases List.mem_cons.1 hy with rfl | hy
    · exact hx
    · exact hxs.forEach y hy

theorem Passes.count {test : α → Eval Bool} : ∀ {xs : List α} {n : ℕ},
    Passes (Eval.count test xs) n → 0 < n → ∃ x ∈ xs, Passes (test x) true
  | [], n, h, hn => by
    obtain rfl := passes_pure.1 h
    omega
  | x :: xs, n, h, hn => by
    obtain ⟨b, hx, h⟩ := Passes.bind h
    obtain ⟨k, hxs, h⟩ := Passes.bind h
    obtain rfl := passes_pure.1 h
    cases b with
    | true => exact ⟨x, List.mem_cons_self, hx⟩
    | false =>
      obtain ⟨y, hy, hpass⟩ := hxs.count (by simpa using hn)
      exact ⟨y, List.mem_cons_of_mem _ hy, hpass⟩

theorem Passes.valid {u : Eval Unit} (h : Passes (valid u) true) : Passes u () := by
  obtain ⟨t, h⟩ := h
  refine ⟨t, ?_⟩
  rcases hu : u t with ⟨e | a, t'⟩
  · rw [valid_of_error hu] at h
    split_ifs at h
    · simp at h
  · rfl

theorem Passes.onKeyword {schema : Dict} {name : String} {body : Value → Eval Unit} {v : Value}
    (h : Passes (onKeyword schema name body) ()) (hv : schema.lookup (str name) = some v) :
    Passes (body v) () := by
  unfold SchemaValidator.onKeyword keyword at h
  rw [hv] at h
  exact h

theorem Passes.iterate {xs ys : List Value} (h : Passes (iterate (.arr xs)) ys) : ys = xs :=
  (passes_pure.1 h).symm

theorem Passes.filterMap {g : α → Eval (Option β)} : ∀ {xs : List α} {ys : List β},
    Passes (Eval.filterMap g xs) ys → ∀ x ∈ xs, ∃ y, Passes (g x) y ∧ ∀ z ∈ y, z ∈ ys
  | [], _, _ => by simp
  | x :: xs, ys, h => by
    obtain ⟨y, hx, h⟩ := Passes.bind h
    obtain ⟨zs, hxs, h⟩ := Passes.bind h
    obtain rfl := passes_pure.1 h
    intro x' hx'
    rcases List.mem_cons.1 hx' with rfl | hx'
    · exact ⟨y, hx, fun z hz => List.mem_append_left _ (by simpa using hz)⟩
    · obtain ⟨y', hy', hmem⟩ := hxs.filterMap x' hx'
      exact ⟨y', hy', fun z hz => List.mem_append_right _ (hmem z hz)⟩

end Passes

/-! ## Keywords -/

section Keywords

variable {re : Str → Option (Str → Bool)} {byId : Documents} {rec : Validator} {value : Value}
  {schema root : Dict} {path : Path}

/-- What an instance that validates under a schema object satisfies, `Holds` being what passing
`validate` one call deeper gives under the same root. -/
structure Satisfies (re : Str → Option (Str → Bool)) (rec : Validator) (root : Dict)
    (value : Value) (schema : Dict) : Prop where
  allOf : ∀ cs, schema.lookup (str "allOf") = some (.arr cs) → ∀ c ∈ cs,
    ∃ path, Passes (rec value c root path) ()
  oneOf : ∀ cs, schema.lookup (str "oneOf") = some (.arr cs) → ∃ c ∈ cs,
    ∃ path, Passes (rec value c root path) ()
  const : ∀ v, schema.lookup (str "const") = some v → jsonEqual value v = true
  type : ∀ s, schema.lookup (str "type") = some (.str s) → hasType value s = true
  required : ∀ ms, value = .obj ms → ∀ fs, schema.lookup (str "required") = some (.arr fs) →
    ∀ s, .str s ∈ fs → s ∈ Json.names ms
  properties : ∀ ms, value = .obj ms → ∀ ps, schema.lookup (str "properties") = some (.obj ps) →
    ∀ m ∈ ms, ∀ c, ps.lookup m.1 = some c → ∃ path, Passes (rec m.2 c root path) ()
  pattern : ∀ s, value = .str s → ∀ p, schema.lookup (str "pattern") = some (.str p) →
    ∃ found, re p = some found ∧ found s = true

theorem passes_validateType {s : Str} (h : Passes (validateType value (.str s) path) ()) :
    hasType value s = true := by
  obtain ⟨names, hnames, h⟩ := Passes.bind h
  obtain rfl := passes_pure.1 hnames
  obtain ⟨found, hfound, h⟩ := Passes.bind h
  obtain rfl := h.require
  obtain ⟨b, hb, h⟩ := Passes.bind hfound
  obtain rfl := passes_pure.1 hb
  cases hs : hasType value s with
  | true => rfl
  | false =>
    rw [hs] at h
    exact absurd (passes_pure.1 h) (by simp)

theorem passes_missingFields {members : Dict} {fields : List Value}
    (h : Passes (missingFields members fields) []) {s : Str} (hs : .str s ∈ fields) :
    s ∈ Json.names members := by
  obtain ⟨y, hy, hmem⟩ := h.filterMap _ hs
  have hy := passes_pure.1 hy
  by_contra hno
  rw [if_neg hno] at hy
  have := hmem (.str s) (by simp [← hy])
  simp at this

theorem passes_memberSchemas {key : Str} {ps : Dict} {c : Value} {children : List Value}
    (h : Passes (memberSchemas re schema key path) children)
    (hps : schema.lookup (str "properties") = some (.obj ps)) (hc : ps.lookup key = some c) :
    c ∈ children := by
  obtain ⟨own, hown, h⟩ := Passes.bind h
  have hkey : keywordD schema "properties" (.obj []) = .obj ps := by
    rw [keywordD, keyword, hps]
    rfl
  rw [hkey] at hown
  obtain rfl := passes_pure.1 hown
  obtain ⟨matched, -, h⟩ := Passes.bind h
  rw [hc, Option.toList_some, List.singleton_append, if_pos (by simp)] at h
  obtain rfl := passes_pure.1 h
  exact List.mem_cons_self

theorem passes_validateObject {members : Dict}
    (h : Passes (validateObject re rec members schema root path) ()) :
    (∀ fs, schema.lookup (str "required") = some (.arr fs) → ∀ s, .str s ∈ fs →
      s ∈ Json.names members) ∧
    ∀ ps, schema.lookup (str "properties") = some (.obj ps) → ∀ m ∈ members, ∀ c,
      ps.lookup m.1 = some c → ∃ path, Passes (rec m.2 c root path) () := by
  obtain ⟨required, hreq, h⟩ := Passes.bind h
  obtain ⟨missing, hmissing, h⟩ := Passes.bind h
  obtain ⟨hnone, h⟩ := h.seq
  obtain ⟨out, -, h⟩ := Passes.bind h
  obtain ⟨-, h⟩ := h.seq
  obtain ⟨hmembers, -⟩ := h.seq
  have hempty : missing = [] := by simpa using hnone.require
  subst hempty
  refine ⟨fun fs hfs s hs => ?_, fun ps hps m hm c hc => ?_⟩
  · have hkey : keywordD schema "required" (.arr []) = .arr fs := by
      rw [keywordD, keyword, hfs]
      rfl
    rw [hkey] at hreq
    obtain rfl := hreq.iterate
    exact passes_missingFields hmissing hs
  · obtain ⟨children, hchildren, hall⟩ := Passes.bind (hmembers.forEach m hm)
    exact ⟨_, hall.forEach c (passes_memberSchemas hchildren hps hc)⟩

theorem satisfies_of_passes (h : Passes (validateDict re byId rec value schema root path) ()) :
    Satisfies re rec root value schema := by
  obtain ⟨-, h⟩ := Passes.seq h
  obtain ⟨hallOf, h⟩ := h.seq
  obtain ⟨-, h⟩ := h.seq
  obtain ⟨honeOf, h⟩ := h.seq
  obtain ⟨-, h⟩ := h.seq
  obtain ⟨-, h⟩ := h.seq
  obtain ⟨hconst, h⟩ := h.seq
  obtain ⟨-, h⟩ := h.seq
  obtain ⟨htype, h⟩ := h.seq
  constructor
  case allOf =>
    intro cs hcs c hc
    obtain ⟨xs, hxs, hall⟩ := (hallOf.onKeyword hcs).bind
    obtain rfl := hxs.iterate
    exact ⟨_, hall.forEach c hc⟩
  case oneOf =>
    intro cs hcs
    obtain ⟨xs, hxs, hn⟩ := (honeOf.onKeyword hcs).bind
    obtain rfl := hxs.iterate
    obtain ⟨n, hcount, hone⟩ := hn.bind
    have hn : n = 1 := by simpa using hone.require
    obtain ⟨c, hc, hvalid⟩ := hcount.count (by omega)
    exact ⟨c, hc, _, hvalid.valid⟩
  case const => exact fun v hv => (hconst.onKeyword hv).require
  case type => exact fun s hs => passes_validateType (htype.onKeyword hs)
  case required =>
    rintro ms rfl
    exact (passes_validateObject h).1
  case properties =>
    rintro ms rfl
    exact (passes_validateObject h).2
  case pattern =>
    rintro s rfl p hp
    obtain ⟨out, -, h⟩ := Passes.bind h
    obtain ⟨-, h⟩ := h.seq
    obtain ⟨found, hfound, h⟩ := (h.onKeyword hp).bind
    obtain rfl := h.require
    unfold search at hfound
    dsimp only at hfound
    rcases hre : re p with _ | f
    · rw [hre] at hfound
      exact absurd hfound (not_passes_raise _ _)
    · rw [hre] at hfound
      exact ⟨f, rfl, passes_pure.1 hfound⟩

theorem satisfies_of_validateAt {limit : ℕ} {members : Dict}
    (h : Passes (validateAt re byId limit value (.obj members) root path) ()) :
    ∃ limit', Satisfies re (validateAt re byId limit') root value members := by
  cases limit with
  | zero => exact absurd h (not_passes_raise _ _)
  | succ limit => exact ⟨limit, satisfies_of_passes h⟩

end Keywords

end SchemaValidator
