import Jumpship.Proofs.Acceptance

/-!
# What leaves the schema validator

The check of a definition rules out the type confusion of every keyword: under a checked schema the
validator ends in an answer or a `ValidationError`, unless it searches for a key of `patternProperties`
that does not compile, divides by a `multipleOf` to no finite quotient, follows a reference to a value
that was never checked, or runs out of calls. The calls of a run are followed from a frame to the frames
its keywords apply to.
-/

namespace SchemaValidator

open Py Eval

section Ends

variable {α β : Type}

/-- The evaluation ends in an answer or a `ValidationError`. -/
def Ends (m : Eval α) : Prop :=
  ∀ t, (∃ a, (m t).1 = .ok a) ∨ ∃ path reason, (m t).1 = .error (.validation path reason)

theorem ends_pure (a : α) : Ends (pure a : Eval α) := fun _ => .inl ⟨a, rfl⟩

theorem ends_fail (path : Path) (reason : Reason) : Ends (fail path reason : Eval α) :=
  fun _ => .inr ⟨path, reason, rfl⟩

/-- The rest has to end only after an answer of the first part. -/
theorem ends_bind {m : Eval α} {f : α → Eval β} (hm : Ends m) (hf : ∀ a, Passes m a → Ends (f a)) :
    Ends (m >>= f) := by
  intro t
  have h := hm t
  rcases hmt : m t with ⟨e | a, t'⟩
  · rw [hmt] at h
    rw [bind_of_error hmt]
    obtain ⟨_, h⟩ | ⟨path, reason, h⟩ := h
    · cases h
    · obtain rfl := Except.error.inj h
      exact .inr ⟨path, reason, rfl⟩
  · rw [bind_of_ok hmt]
    exact hf a ⟨t, by rw [hmt]⟩ t'

theorem ends_seq {m : Eval Unit} {n : Eval β} (hm : Ends m) (hn : Ends n) : Ends (m >>= fun _ => n) :=
  ends_bind hm fun _ _ => hn

theorem ends_require (test : Bool) (path : Path) (reason : Reason) : Ends (require test path reason) := by
  unfold require
  split_ifs
  · exact ends_pure ()
  · exact ends_fail path reason

theorem ends_forEach {body : α → Eval Unit} : ∀ {xs : List α}, (∀ x ∈ xs, Ends (body x)) →
    Ends (forEach body xs)
  | [], _ => ends_pure ()
  | _ :: _, h => ends_seq (h _ List.mem_cons_self) (ends_forEach fun y hy => h y (List.mem_cons_of_mem _ hy))

theorem ends_anyOf {test : α → Eval Bool} : ∀ {xs : List α}, (∀ x ∈ xs, Ends (test x)) →
    Ends (anyOf test xs)
  | [], _ => ends_pure false
  | _ :: _, h => ends_bind (h _ List.mem_cons_self) fun b _ => by
    cases b
    · exact ends_anyOf fun y hy => h y (List.mem_cons_of_mem _ hy)
    · exact ends_pure true

theorem ends_count {test : α → Eval Bool} : ∀ {xs : List α}, (∀ x ∈ xs, Ends (test x)) →
    Ends (count test xs)
  | [], _ => ends_pure 0
  | _ :: _, h => ends_bind (h _ List.mem_cons_self) fun _ _ =>
    ends_bind (ends_count fun y hy => h y (List.mem_cons_of_mem _ hy)) fun _ _ => ends_pure _

theorem ends_filterMap {f : α → Eval (Option β)} : ∀ {xs : List α}, (∀ x ∈ xs, Ends (f x)) →
    Ends (filterMap f xs)
  | [], _ => ends_pure []
  | _ :: _, h => ends_bind (h _ List.mem_cons_self) fun _ _ =>
    ends_bind (ends_filterMap fun y hy => h y (List.mem_cons_of_mem _ hy)) fun _ _ => ends_pure _

/-- `_valid` catches a `ValidationError`. -/
theorem ends_valid {m : Eval Unit} (hm : Ends m) : Ends (valid m) := by
  intro t
  have h := hm t
  rcases hmt : m t with ⟨e | a, t'⟩
  · rw [hmt] at h
    rw [valid_of_error hmt]
    obtain ⟨_, h⟩ | ⟨path, reason, h⟩ := h
    · cases h
    · obtain rfl := Except.error.inj h
      exact .inl ⟨false, rfl⟩
  · rw [valid_of_ok hmt]
    exact .inl ⟨true, rfl⟩

theorem ends_onKeyword {schema : Dict} {name : String} {body : Value → Eval Unit}
    (h : ∀ v, schema.lookup (str name) = some v → Ends (body v)) : Ends (onKeyword schema name body) := by
  unfold onKeyword keyword
  split
  · exact h _ ‹_›
  · exact ends_pure ()

end Ends

/-! ## Checked schemas -/

section Checked

variable (re : Str → Option (Str → Bool))

/-- A value that passes the check of a definition. -/
def Accepted (schema : Value) : Prop :=
  ∃ limit path, Passes (validateSchemaDefinition re limit schema path) ()

/-- What the check of a definition gives for the keywords of a schema object. -/
structure Checked (schema : Dict) : Prop where
  ref : ∀ v, schema.lookup (str "$ref") = some v → ∃ s, v = .str s
  type : ∀ v, schema.lookup (str "type") = some v → isTypeDeclaration v = true
  enum : ∀ v, schema.lookup (str "enum") = some v → ∃ xs, v = .arr xs
  required : ∀ v, schema.lookup (str "required") = some v → isStringSet v = true
  count : ∀ name ∈ ["minItems", "maxItems", "minLength", "maxLength", "minProperties",
    "maxProperties", "minContains", "maxContains"], ∀ v, schema.lookup (str name) = some v →
    isCount v = true
  number : ∀ name ∈ ["minimum", "maximum", "exclusiveMinimum", "exclusiveMaximum", "multipleOf"],
    ∀ v, schema.lookup (str name) = some v → isFiniteNumber v = true
  pattern : ∀ v, schema.lookup (str "pattern") = some v →
    ∃ p found, v = .str p ∧ re p = some found
  map : ∀ name ∈ schemaMapKeywords, ∀ v, schema.lookup (str name) = some v →
    ∃ ms, v = .obj ms ∧ ∀ m ∈ ms, Accepted re m.2
  list : ∀ name ∈ schemaListKeywords, ∀ v, schema.lookup (str name) = some v →
    ∃ xs, v = .arr xs ∧ ∀ x ∈ xs, Accepted re x
  value : ∀ name ∈ schemaValueKeywords, ∀ v, schema.lookup (str name) = some v → Accepted re v
  dependentRequired : ∀ v, schema.lookup (str "dependentRequired") = some v →
    ∃ ms, v = .obj ms ∧ ∀ m ∈ ms, isStringSet m.2 = true

theorem passes_checkKeyword {schema : Dict} {path : Path} {test : Value → Bool} {reason : Reason}
    {name : String} {v : Value} (h : Passes (checkKeyword schema path test reason name) ())
    (hv : schema.lookup (str name) = some v) : test v = true :=
  (h.onKeyword hv).require

theorem checked_of_accepted {schema : Dict} (h : Accepted re (.obj schema)) : Checked re schema := by
  obtain ⟨limit, path, h⟩ := h
  cases limit with
  | zero => exact absurd h (not_passes_raise _ _)
  | succ limit =>
    obtain ⟨-, h⟩ := Passes.seq h
    obtain ⟨href, h⟩ := h.seq
    obtain ⟨htype, h⟩ := h.seq
    obtain ⟨henum, h⟩ := h.seq
    obtain ⟨hrequired, h⟩ := h.seq
    obtain ⟨hcount, h⟩ := h.seq
    obtain ⟨-, h⟩ := h.seq
    obtain ⟨hnumber, h⟩ := h.seq
    obtain ⟨-, h⟩ := h.seq
    obtain ⟨hpattern, h⟩ := h.seq
    obtain ⟨-, h⟩ := h.seq
    obtain ⟨hmap, h⟩ := h.seq
    obtain ⟨hlist, h⟩ := h.seq
    obtain ⟨hvalue, hdependent⟩ := h.seq
    constructor
    case ref =>
      intro v hv
      have htest := passes_checkKeyword href hv
      cases v with
      | str s => exact ⟨s, rfl⟩
      | _ => cases htest
    case type => exact fun v hv => passes_checkKeyword htype hv
    case enum =>
      intro v hv
      have hbody := henum.onKeyword hv
      cases v with
      | arr xs => exact ⟨xs, rfl⟩
      | _ => exact absurd hbody (not_passes_raise _ _)
    case required => exact fun v hv => passes_checkKeyword hrequired hv
    case count => exact fun name hname v hv => passes_checkKeyword (hcount.forEach name hname) hv
    case number => exact fun name hname v hv => passes_checkKeyword (hnumber.forEach name hname) hv
    case pattern =>
      intro v hv
      have hbody := hpattern.onKeyword hv
      cases v with
      | str p =>
        obtain ⟨found, hfound⟩ := Option.isSome_iff_exists.1 hbody.require
        exact ⟨p, found, rfl, hfound⟩
      | _ => exact absurd hbody (not_passes_raise _ _)
    case map =>
      intro name hname v hv
      have hbody := (hmap.forEach name hname).onKeyword hv
      cases v with
      | obj ms => exact ⟨ms, rfl, fun m hm => ⟨limit, _, hbody.forEach m hm⟩⟩
      | _ => exact absurd hbody (not_passes_raise _ _)
    case list =>
      intro name hname v hv
      have hbody := (hlist.forEach name hname).onKeyword hv
      cases v with
      | arr xs =>
        obtain ⟨-, hxs⟩ := Passes.seq hbody
        refine ⟨xs, rfl, fun x hx => ?_⟩
        rw [← List.zipIdx_map_fst 0 xs] at hx
        obtain ⟨y, hy, rfl⟩ := List.mem_map.1 hx
        exact ⟨limit, _, hxs.forEach y hy⟩
      | _ => exact absurd hbody (not_passes_raise _ _)
    case value =>
      exact fun name hname v hv => ⟨limit, _, (hvalue.forEach name hname).onKeyword hv⟩
    case dependentRequired =>
      intro v hv
      have hbody := hdependent.onKeyword hv
      cases v with
      | obj ms => exact ⟨ms, rfl, List.all_eq_true.1 hbody.require⟩
      | _ => exact absurd hbody (not_passes_raise _ _)

end Checked

/-! ## Calls -/

section Calls

variable (re : Str → Option (Str → Bool)) (byId : Documents)

/-- The length of `prefixItems`. -/
def prefixLength (schema : Dict) : ℕ :=
  match schema.lookup (str "prefixItems") with
  | some (.arr children) => children.length
  | _ => 0

/-- The values and subschemas that the keywords of a schema pair up for a value. -/
inductive Applies : Value → Dict → Value → Value → Prop
  | each {value : Value} {schema : Dict} {name : String} {children : List Value} {child : Value}
      (hname : name ∈ ["allOf", "anyOf", "oneOf"])
      (h : schema.lookup (str name) = some (.arr children)) (hchild : child ∈ children) :
      Applies value schema value child
  | single {value : Value} {schema : Dict} {name : String} {child : Value}
      (hname : name ∈ ["not", "if", "then", "else"]) (h : schema.lookup (str name) = some child) :
      Applies value schema value child
  | property {members schema properties : Dict} {m : Str × Value} {child : Value} (hm : m ∈ members)
      (h : schema.lookup (str "properties") = some (.obj properties))
      (hchild : properties.lookup m.1 = some child) : Applies (.obj members) schema m.2 child
  | matching {members schema patterns : Dict} {m p : Str × Value} {found : Str → Bool} (hm : m ∈ members)
      (h : schema.lookup (str "patternProperties") = some (.obj patterns)) (hp : p ∈ patterns)
      (hfound : re p.1 = some found) (hmatch : found m.1 = true) : Applies (.obj members) schema m.2 p.2
  | additional {members schema child : Dict} {m : Str × Value} (hm : m ∈ members)
      (h : schema.lookup (str "additionalProperties") = some (.obj child))
      (hown : ∀ properties, schema.lookup (str "properties") = some (.obj properties) →
        properties.lookup m.1 = none)
      (hmatch : ∀ patterns, schema.lookup (str "patternProperties") = some (.obj patterns) →
        ∀ p ∈ patterns, ∀ found, re p.1 = some found → found m.1 = false) :
      Applies (.obj members) schema m.2 (.obj child)
  | name {members schema : Dict} {m : Str × Value} {child : Value} (hm : m ∈ members)
      (h : schema.lookup (str "propertyNames") = some child) :
      Applies (.obj members) schema (.str m.1) child
  | fixed {elements children : List Value} {schema : Dict} {x : Value × Value}
      (h : schema.lookup (str "prefixItems") = some (.arr children)) (hx : x ∈ elements.zip children) :
      Applies (.arr elements) schema x.1 x.2
  | item {elements : List Value} {schema : Dict} {x child : Value}
      (hx : x ∈ elements.drop (prefixLength schema))
      (h : schema.lookup (str "items") = some child) : Applies (.arr elements) schema x child
  | contained {elements : List Value} {schema : Dict} {x child : Value} (hx : x ∈ elements)
      (h : schema.lookup (str "contains") = some child) : Applies (.arr elements) schema x child

/-- What a call of the validator is given. -/
structure Frame where
  value : Value
  schema : Value
  root : Dict

/-- A call at one frame can call the validator at another. -/
inductive Calls : Frame → Frame → Prop
  | applies {value child value' : Value} {schema root : Dict} (h : Applies re value schema value' child) :
      Calls ⟨value, .obj schema, root⟩ ⟨value', child, root⟩
  | reference {value : Value} {schema root : Dict} {text : Str} {resolved : Value × Dict}
      (h : schema.lookup (str "$ref") = some (.str text))
      (hresolve : resolve byId text root = .ok resolved) :
      Calls ⟨value, .obj schema, root⟩ ⟨value, resolved.1, resolved.2⟩

/-- A chain of so many calls. -/
inductive Chain : ℕ → Frame → Frame → Prop
  | nil (f : Frame) : Chain 0 f f
  | snoc {n : ℕ} {f g h : Frame} (hchain : Chain n f g) (hcall : Calls re byId g h) : Chain (n + 1) f h

/-- Every reference at the frame resolves. -/
def Frame.Resolves (f : Frame) : Prop :=
  ∀ schema text, f.schema = .obj schema → schema.lookup (str "$ref") = some (.str text) →
    ∃ resolved, resolve byId text f.root = .ok resolved

/-- What the check of a definition leaves open at a frame: the keys of `patternProperties` that an object
is searched for compile, the quotient by `multipleOf` is finite, and the target of a reference has
passed the check. -/
structure Frame.Sound (f : Frame) : Prop where
  compiles : ∀ members schema patterns, f.value = .obj members → members ≠ [] → f.schema = .obj schema →
    schema.lookup (str "patternProperties") = some (.obj patterns) → ∀ p ∈ patterns, (re p.1).isSome
  divides : ∀ x d schema, f.value = .num x → f.schema = .obj schema →
    schema.lookup (str "multipleOf") = some (.num d) → ∃ q n, trueDiv x d = pure q ∧ round q = pure n
  target : ∀ schema text resolved, f.schema = .obj schema →
    schema.lookup (str "$ref") = some (.str text) → resolve byId text f.root = .ok resolved →
    Accepted re resolved.1

end Calls

/-! ## Keywords under a checked schema -/

section Keywords

variable {re : Str → Option (Str → Bool)} {byId : Documents} {schema : Dict} (hschema : Checked re schema)

theorem keywordD_eq (schema : Dict) (name : String) (default : Value) :
    (∃ v, schema.lookup (str name) = some v ∧ keywordD schema name default = v)
      ∨ (schema.lookup (str name) = none ∧ keywordD schema name default = default) := by
  unfold keywordD keyword
  cases h : schema.lookup (str name) with
  | none => exact .inr ⟨rfl, rfl⟩
  | some v => exact .inl ⟨v, rfl, rfl⟩

theorem ends_below {n : Number} {v : Value} (hv : (number? v).isSome) : Ends (below n v) := by
  obtain ⟨r, hr⟩ := Option.isSome_iff_exists.1 hv
  rw [below, hr]
  exact ends_pure _

theorem ends_above {n : Number} {v : Value} (hv : (number? v).isSome) : Ends (above n v) := by
  obtain ⟨r, hr⟩ := Option.isSome_iff_exists.1 hv
  rw [above, hr]
  exact ends_pure _

theorem number?_of_isFiniteNumber {v : Value} (h : isFiniteNumber v = true) : (number? v).isSome := by
  cases v with
  | num x => rfl
  | _ => cases h

theorem number?_of_isCount {v : Value} (h : isCount v = true) : (number? v).isSome := by
  cases v with
  | num x => rfl
  | _ => cases h

theorem ends_outOfRange {n : Number} {minimum maximum : String} {least : Value}
    (hleast : (number? least).isSome)
    (hmin : ∀ v, schema.lookup (str minimum) = some v → (number? v).isSome)
    (hmax : ∀ v, schema.lookup (str maximum) = some v → (number? v).isSome) :
    Ends (outOfRange n schema minimum maximum least) := by
  refine ends_bind (ends_below ?_) fun b _ => ?_
  · obtain ⟨v, hv, h⟩ | ⟨-, h⟩ := keywordD_eq schema minimum least <;> rw [h]
    · exact hmin v hv
    · exact hleast
  · cases b
    · refine ends_above ?_
      obtain ⟨v, hv, h⟩ | ⟨-, h⟩ := keywordD_eq schema maximum (infinity false) <;> rw [h]
      · exact hmax v hv
      · rfl
    · exact ends_pure true

include hschema in
theorem ends_countRange (n : ℕ) {minimum maximum : String} {least : Value}
    (hleast : (number? least).isSome)
    (hmin : minimum ∈ ["minItems", "maxItems", "minLength", "maxLength", "minProperties",
      "maxProperties", "minContains", "maxContains"])
    (hmax : maximum ∈ ["minItems", "maxItems", "minLength", "maxLength", "minProperties",
      "maxProperties", "minContains", "maxContains"]) :
    Ends (outOfRange (.int n) schema minimum maximum least) :=
  ends_outOfRange hleast (fun v hv => number?_of_isCount (hschema.count _ hmin v hv))
    fun v hv => number?_of_isCount (hschema.count _ hmax v hv)

theorem ends_iterate (xs : List Value) : Ends (iterate (.arr xs)) := ends_pure xs

theorem strings?_spec {xs : List Value} {names : List Str} (h : strings? xs = some names) :
    xs = names.map Json.str := by
  induction xs generalizing names with
  | nil =>
    obtain rfl := Option.some.inj h
    rfl
  | cons x xs ih =>
    cases x with
    | str s =>
      obtain ⟨rest, hrest, rfl⟩ := Option.map_eq_some_iff.1 h
      rw [ih hrest, List.map_cons]
    | _ => cases h

theorem isStringSet_spec {v : Value} (h : isStringSet v = true) :
    ∃ names : List Str, v = .arr (names.map Json.str) := by
  cases v with
  | arr xs =>
    rw [isStringSet] at h
    cases hxs : strings? xs with
    | none => simp [hxs] at h
    | some names => exact ⟨names, by rw [strings?_spec hxs]⟩
  | _ => cases h

theorem ends_missingFields (members : Dict) (names : List Str) :
    Ends (missingFields members (names.map Json.str)) := by
  refine ends_filterMap fun x hx => ?_
  obtain ⟨name, -, rfl⟩ := List.mem_map.1 hx
  exact ends_pure _

theorem ends_checkType (value : Value) (name : Str) : Ends (checkType value (.str name)) := ends_pure _

theorem ends_validateType {value expected : Value} {path : Path} (h : isTypeDeclaration expected = true) :
    Ends (validateType value expected path) := by
  have hrequire (found : Bool) : Ends (require found path .type) := ends_require found path .type
  cases expected with
  | str s =>
    refine ends_bind (ends_pure [Json.str s]) fun names hnames => ends_bind ?_ fun b _ => hrequire b
    obtain rfl := passes_pure.1 hnames
    exact ends_anyOf fun x hx => by
      rw [List.mem_singleton.1 hx]
      exact ends_checkType value s
  | arr xs =>
    refine ends_bind (ends_pure xs) fun names hnames => ends_bind ?_ fun b _ => hrequire b
    obtain rfl := passes_pure.1 hnames
    rw [isTypeDeclaration] at h
    cases hxs : strings? xs with
    | none => simp [hxs] at h
    | some names =>
      rw [strings?_spec hxs]
      refine ends_anyOf fun x hx => ?_
      obtain ⟨name, -, rfl⟩ := List.mem_map.1 hx
      exact ends_checkType value name
  | _ => cases h

include hschema in
theorem ends_validateNumber {x : Number} {path : Path}
    (hdivides : ∀ d, schema.lookup (str "multipleOf") = some (.num d) →
      ∃ q n, trueDiv x d = pure q ∧ round q = pure n) :
    Ends (validateNumber x schema path) := by
  have hbound (name : String) (hname : name ∈ ["minimum", "maximum", "exclusiveMinimum",
      "exclusiveMaximum", "multipleOf"]) (v : Value) (hv : schema.lookup (str name) = some v) :
      ∃ d, v = .num d := by
    have hfinite := hschema.number name hname v hv
    cases v with
    | num d => exact ⟨d, rfl⟩
    | _ => cases hfinite
  have hsome (name : String) (hname : name ∈ ["minimum", "maximum", "exclusiveMinimum",
      "exclusiveMaximum", "multipleOf"]) (v : Value) (hv : schema.lookup (str name) = some v) :
      (number? v).isSome := by
    obtain ⟨d, rfl⟩ := hbound name hname v hv
    rfl
  refine ends_bind (ends_outOfRange rfl (hsome _ (by simp)) (hsome _ (by simp))) fun out _ => ?_
  refine ends_seq (ends_require _ _ _) (ends_seq (ends_onKeyword fun v hv => ?_)
    (ends_seq (ends_onKeyword fun v hv => ?_) (ends_onKeyword fun v hv => ?_)))
  · obtain ⟨d, rfl⟩ := hbound _ (by simp) v hv
    exact ends_require _ _ _
  · obtain ⟨d, rfl⟩ := hbound _ (by simp) v hv
    exact ends_require _ _ _
  · obtain ⟨d, rfl⟩ := hbound _ (by simp) v hv
    obtain ⟨q, n, hq, hn⟩ := hdivides d hv
    simp only [number?]
    rw [hq]
    refine ends_bind (ends_pure q) fun q' hq' => ?_
    obtain rfl := passes_pure.1 hq'
    rw [hn]
    exact ends_bind (ends_pure n) fun _ _ => ends_require _ _ _

end Keywords

/-! ## A call -/

section Call

variable {re : Str → Option (Str → Bool)} {byId : Documents} {schema root : Dict} {rec : Validator}
  (hschema : Checked re schema)

theorem ends_search {p : Str} (h : (re p).isSome) (text : Str) : Ends (search re (.str p) text) := by
  obtain ⟨found, hfound⟩ := Option.isSome_iff_exists.1 h
  simp only [search, hfound]
  exact ends_pure _

theorem passes_search {p : Str} {text : Str} {b : Bool} (h : Passes (search re (.str p) text) b) :
    ∃ found, re p = some found ∧ found text = b := by
  unfold search at h
  dsimp only at h
  cases hre : re p with
  | none =>
    rw [hre] at h
    exact absurd h (not_passes_raise _ _)
  | some found =>
    rw [hre] at h
    exact ⟨found, rfl, passes_pure.1 h⟩

/-- The subschemas of the patterns found in a key. -/
theorem mem_patternMatches {ps : Dict} {key : Str} {children : List Value}
    (h : Passes (patternMatches re (.obj ps) key) children) :
    (∀ c ∈ children, ∃ p ∈ ps, ∃ found, re p.1 = some found ∧ found key = true ∧ p.2 = c)
      ∧ (children = [] → ∀ p ∈ ps, ∀ found, re p.1 = some found → found key = false) := by
  rw [patternMatches] at h
  induction ps generalizing children with
  | nil =>
    obtain rfl := passes_pure.1 h
    exact ⟨by simp, by simp⟩
  | cons p ps ih =>
    obtain ⟨y, hy, h⟩ := Passes.bind h
    obtain ⟨ys, hys, h⟩ := Passes.bind h
    obtain rfl := passes_pure.1 h
    obtain ⟨hmem, hnone⟩ := ih hys
    obtain ⟨b, hb, hy⟩ := Passes.bind hy
    obtain ⟨found, hfound, hkey⟩ := passes_search hb
    cases b with
    | true =>
      obtain rfl := passes_pure.1 hy
      refine ⟨fun c hc => ?_, fun h => by simp at h⟩
      rcases List.mem_cons.1 hc with rfl | hc
      · exact ⟨p, List.mem_cons_self, found, hfound, hkey, rfl⟩
      · obtain ⟨q, hq, hspec⟩ := hmem c hc
        exact ⟨q, List.mem_cons_of_mem _ hq, hspec⟩
    | false =>
      obtain rfl := passes_pure.1 hy
      refine ⟨fun c hc => ?_, fun h q hq found' hfound' => ?_⟩
      · obtain ⟨q, hq, hspec⟩ := hmem c hc
        exact ⟨q, List.mem_cons_of_mem _ hq, hspec⟩
      · rcases List.mem_cons.1 hq with rfl | hq
        · rw [hfound] at hfound'
          rw [← Option.some.inj hfound', hkey]
        · exact hnone h q hq found' hfound'

include hschema in
theorem keywordD_map {name : String} (hname : name ∈ schemaMapKeywords) :
    ∃ ms, keywordD schema name (.obj []) = .obj ms
      ∧ (schema.lookup (str name) = some (.obj ms) ∨ (schema.lookup (str name) = none ∧ ms = [])) := by
  obtain ⟨v, hv, h⟩ | ⟨hnone, h⟩ := keywordD_eq schema name (.obj [])
  · obtain ⟨ms, rfl, -⟩ := hschema.map name hname v hv
    exact ⟨ms, h, .inl hv⟩
  · exact ⟨[], h, .inr ⟨hnone, rfl⟩⟩

include hschema in
/-- The subschemas a member is held to are those that apply to it. -/
theorem memberSchemas_spec {members : Dict} {m : Str × Value} {path : Path} (hm : m ∈ members)
    (hcompiles : ∀ patterns, schema.lookup (str "patternProperties") = some (.obj patterns) →
      ∀ p ∈ patterns, (re p.1).isSome) :
    Ends (memberSchemas re schema m.1 path)
      ∧ ∀ children, Passes (memberSchemas re schema m.1 path) children →
        ∀ c ∈ children, Applies re (.obj members) schema m.2 c := by
  obtain ⟨ps, hps, hproperties⟩ := keywordD_map hschema (show "properties" ∈ schemaMapKeywords by decide)
  obtain ⟨qs, hqs, hpatterns⟩ :=
    keywordD_map hschema (show "patternProperties" ∈ schemaMapKeywords by decide)
  have hown : ownProperty (.obj ps) m.1 = pure (ps.lookup m.1).toList := rfl
  have hends : Ends (patternMatches re (.obj qs) m.1) := by
    refine ends_filterMap fun q hq => ends_bind (ends_search ?_ _) fun b _ => ?_
    · rcases hpatterns with h | ⟨-, rfl⟩
      · exact hcompiles qs h q hq
      · cases hq
    · cases b
      · exact ends_pure none
      · exact ends_pure (some q.2)
  have hmatched {matched : List Value} (h : Passes (patternMatches re (.obj qs) m.1) matched) :
      ∀ c ∈ (ps.lookup m.1).toList ++ matched, Applies re (.obj members) schema m.2 c := by
    intro c hc
    rcases List.mem_append.1 hc with hc | hc
    · rcases hproperties with hlookup | ⟨-, rfl⟩
      · exact .property hm hlookup (by simpa using hc)
      · simp at hc
    · obtain ⟨q, hq, found, hfound, hkey, rfl⟩ := (mem_patternMatches h).1 c hc
      rcases hpatterns with hlookup | ⟨-, rfl⟩
      · exact .matching hm hlookup hq hfound hkey
      · cases hq
  rw [memberSchemas, hps, hqs, hown]
  constructor
  · refine ends_bind (ends_pure _) fun own hpure => ends_bind hends fun matched _ => ?_
    split_ifs
    · exact ends_pure _
    · split
      · exact ends_fail _ _
      · exact ends_pure _
      · exact ends_pure _
  · intro children h c hc
    obtain ⟨own, hpure, h⟩ := Passes.bind h
    obtain rfl := passes_pure.1 hpure
    obtain ⟨matched, hpass, h⟩ := Passes.bind h
    split_ifs at h with hempty
    · obtain rfl := passes_pure.1 h
      exact hmatched hpass c hc
    · have hnil : (ps.lookup m.1).toList = [] ∧ matched = [] := by
        simpa using hempty
      split at h
      · exact absurd h (not_passes_raise _ _)
      · rename_i child hchild
        obtain rfl := passes_pure.1 h
        rw [List.mem_singleton.1 hc]
        refine .additional hm ?_ (fun properties hlookup => ?_) fun patterns hlookup q hq found hfound => ?_
        · obtain ⟨v, hv, h⟩ | ⟨-, h⟩ := keywordD_eq schema "additionalProperties" (.bool true)
          · rw [hv, ← h, hchild]
          · rw [h] at hchild
            cases hchild
        · rcases hproperties with hlookup' | ⟨hnone, -⟩
          · obtain rfl : properties = ps := by simpa [hlookup] using hlookup'
            simpa using hnil.1
          · rw [hlookup] at hnone
            cases hnone
        · rcases hpatterns with hlookup' | ⟨hnone, -⟩
          · obtain rfl : patterns = qs := by simpa [hlookup] using hlookup'
            exact (mem_patternMatches hpass).2 hnil.2 q hq found hfound
          · rw [hlookup] at hnone
            cases hnone
      · obtain rfl := passes_pure.1 h
        cases hc

include hschema in
theorem ends_validateObject {members : Dict} {path : Path}
    (hcompiles : ∀ patterns, members ≠ [] →
      schema.lookup (str "patternProperties") = some (.obj patterns) → ∀ p ∈ patterns, (re p.1).isSome)
    (hrec : ∀ v c, Applies re (.obj members) schema v c → ∀ path, Ends (rec v c root path)) :
    Ends (validateObject re rec members schema root path) := by
  have hrequired : ∃ names : List Str, keywordD schema "required" (.arr []) = .arr (names.map Json.str) := by
    obtain ⟨v, hv, h⟩ | ⟨-, h⟩ := keywordD_eq schema "required" (.arr [])
    · obtain ⟨names, rfl⟩ := isStringSet_spec (hschema.required v hv)
      exact ⟨names, h⟩
    · exact ⟨[], h⟩
  obtain ⟨names, hnames⟩ := hrequired
  rw [validateObject, hnames]
  refine ends_bind (ends_iterate _) fun fields hfields => ?_
  obtain rfl := hfields.iterate
  refine ends_bind (ends_missingFields members names) fun missing _ => ?_
  refine ends_seq (ends_require _ _ _) (ends_bind (ends_countRange hschema _ rfl (by simp) (by simp))
    fun out _ => ends_seq (ends_require _ _ _) (ends_seq (ends_forEach fun m hm => ?_)
      (ends_seq (ends_onKeyword fun child hchild => ends_forEach fun m hm => ?_) ?_)))
  · obtain ⟨hends, happlies⟩ := @memberSchemas_spec _ _ hschema _ _ path hm
      fun patterns => hcompiles patterns (List.ne_nil_of_mem hm)
    exact ends_bind hends fun children hchildren =>
      ends_forEach fun child hchild => hrec _ _ (happlies children hchildren child hchild) _
  · exact hrec _ _ (.name hm hchild) _
  · obtain ⟨v, hv, h⟩ | ⟨-, h⟩ := keywordD_eq schema "dependentRequired" (.obj [])
    · obtain ⟨ms, rfl, hms⟩ := hschema.dependentRequired v hv
      rw [h]
      refine ends_forEach fun d hd => ?_
      obtain ⟨fields, hfields⟩ := isStringSet_spec (hms d hd)
      split_ifs
      · rw [hfields]
        refine ends_bind (ends_iterate _) fun ys hys => ?_
        obtain rfl := hys.iterate
        exact ends_bind (ends_missingFields members fields) fun _ _ => ends_require _ _ _
      · exact ends_pure ()
    · rw [h]
      exact ends_pure ()

include hschema in
theorem ends_validateArray {elements : List Value} {path : Path}
    (hrec : ∀ v c, Applies re (.arr elements) schema v c → ∀ path, Ends (rec v c root path)) :
    Ends (validateArray rec elements schema root path) := by
  have hprefix : ∃ children, keywordD schema "prefixItems" (.arr []) = .arr children
      ∧ children.length = prefixLength schema
      ∧ (schema.lookup (str "prefixItems") = some (.arr children) ∨ children = []) := by
    obtain ⟨v, hv, h⟩ | ⟨hnone, h⟩ := keywordD_eq schema "prefixItems" (.arr [])
    · obtain ⟨children, rfl, -⟩ := hschema.list _ (by decide) v hv
      exact ⟨children, h, by rw [prefixLength, hv], .inl hv⟩
    · exact ⟨[], h, by rw [prefixLength, hnone]; rfl, .inr rfl⟩
  obtain ⟨children, hchildren, hlength, hlookup⟩ := hprefix
  rw [validateArray, hchildren]
  refine ends_bind (ends_countRange hschema _ rfl (by simp) (by simp)) fun out _ =>
    ends_seq (ends_require _ _ _) (ends_seq (ends_require _ _ _)
      (ends_bind (ends_iterate _) fun fixed hfixed => ?_))
  obtain rfl := hfixed.iterate
  refine ends_seq (ends_forEach fun x hx => ?_) (ends_seq (ends_onKeyword fun child hchild =>
    ends_forEach fun x hx => ?_) (ends_onKeyword fun child hchild => ?_))
  · rcases hlookup with hlookup | rfl
    · exact hrec _ _ (.fixed hlookup (List.fst_mem_of_mem_zipIdx hx)) _
    · simp at hx
  · refine hrec _ _ (.item ?_ hchild) _
    rw [← hlength]
    exact List.fst_mem_of_mem_zipIdx hx
  · refine ends_bind (ends_count fun x hx => ends_valid (hrec _ _ (.contained hx hchild) _)) fun n _ => ?_
    exact ends_bind (ends_countRange hschema _ rfl (by simp) (by simp)) fun _ _ => ends_require _ _ _

include hschema in
/-- The children of a keyword that lists schemas. -/
theorem list_children {name : String} (hname : name ∈ schemaListKeywords) {v : Value}
    (hv : schema.lookup (str name) = some v) : ∃ children, v = .arr children :=
  let ⟨children, h, _⟩ := hschema.list name hname v hv
  ⟨children, h⟩

include hschema in
theorem ends_validateDict {value : Value} {path : Path} (hsound : (Frame.mk value (.obj schema) root).Sound re byId)
    (hresolves : (Frame.mk value (.obj schema) root).Resolves byId)
    (hrec : ∀ f, Calls re byId ⟨value, .obj schema, root⟩ f → ∀ path, Ends (rec f.value f.schema f.root path)) :
    Ends (validateDict re byId rec value schema root path) := by
  have happly {v c : Value} (h : Applies re value schema v c) (path : Path) : Ends (rec v c root path) :=
    hrec _ (.applies h) path
  refine ends_seq (ends_onKeyword fun reference href => ?_) (ends_seq (ends_onKeyword fun v hv => ?_)
    (ends_seq (ends_onKeyword fun v hv => ?_) (ends_seq (ends_onKeyword fun v hv => ?_)
      (ends_seq (ends_onKeyword fun child hchild => ?_) (ends_seq (ends_onKeyword fun child hchild => ?_)
        (ends_seq (ends_onKeyword fun v _ => ends_require _ _ _) (ends_seq (ends_onKeyword fun v hv => ?_)
          (ends_seq (ends_onKeyword fun v hv => ends_validateType (hschema.type v hv)) ?_))))))))
  · obtain ⟨text, rfl⟩ := hschema.ref reference href
    obtain ⟨resolved, hresolved⟩ := hresolves schema text rfl href
    simp only [evalReference, hresolved]
    refine ends_bind (ends_pure resolved) fun r hr => ?_
    obtain rfl := passes_pure.1 hr
    exact hrec _ (.reference href hresolved) path
  · obtain ⟨children, rfl⟩ := list_children hschema (by decide) hv
    refine ends_bind (ends_iterate _) fun cs hcs => ?_
    obtain rfl := hcs.iterate
    exact ends_forEach fun child hchild => happly (.each (by decide) hv hchild) path
  · obtain ⟨children, rfl⟩ := list_children hschema (by decide) hv
    refine ends_bind (ends_iterate _) fun cs hcs => ?_
    obtain rfl := hcs.iterate
    exact ends_bind (ends_anyOf fun child hchild => ends_valid (happly (.each (by decide) hv hchild) path))
      fun _ _ => ends_require _ _ _
  · obtain ⟨children, rfl⟩ := list_children hschema (by decide) hv
    refine ends_bind (ends_iterate _) fun cs hcs => ?_
    obtain rfl := hcs.iterate
    exact ends_bind (ends_count fun child hchild => ends_valid (happly (.each (by decide) hv hchild) path))
      fun _ _ => ends_require _ _ _
  · exact ends_bind (ends_valid (happly (.single (by decide) hchild) path)) fun _ _ => ends_require _ _ _
  · refine ends_bind (ends_valid (happly (.single (by decide) hchild) path)) fun holds _ => ?_
    split
    · exact ends_pure ()
    · rename_i hnull
      have hselected : ∃ name ∈ ["then", "else"], schema.lookup (str name)
          = some (keywordD schema (if holds then "then" else "else") .null) := by
        obtain ⟨v, hv, h⟩ | ⟨-, h⟩ := keywordD_eq schema (if holds then "then" else "else") .null
        · exact ⟨if holds then "then" else "else", by cases holds <;> simp, by rw [hv, h]⟩
        · exact absurd h hnull
      obtain ⟨name, hname, hlookup⟩ := hselected
      exact happly (.single (List.mem_cons_of_mem _ (List.mem_cons_of_mem _ hname)) hlookup) path
  · obtain ⟨xs, rfl⟩ := hschema.enum v hv
    exact ends_bind (ends_iterate _) fun _ _ => ends_require _ _ _
  · cases value with
    | obj members =>
      exact ends_validateObject hschema (fun patterns hne => hsound.compiles members schema patterns rfl hne rfl)
        fun v c h => happly h
    | arr elements => exact ends_validateArray hschema fun v c h => happly h
    | str s =>
      refine ends_bind (ends_countRange hschema _ rfl (by simp) (by simp)) fun _ _ =>
        ends_seq (ends_require _ _ _) (ends_onKeyword fun v hv => ?_)
      obtain ⟨p, found, rfl, hfound⟩ := hschema.pattern v hv
      exact ends_bind (ends_search (by rw [hfound]; rfl) s) fun _ _ => ends_require _ _ _
    | num x => exact ends_validateNumber hschema fun d hd => hsound.divides x d schema rfl rfl hd
    | _ => exact ends_pure ()

end Call

/-! ## A run -/

section Run

variable (re : Str → Option (Str → Bool)) (byId : Documents)

theorem accepted_cases {v : Value} (h : Accepted re v) : (∃ b, v = .bool b) ∨ ∃ schema, v = .obj schema := by
  obtain ⟨limit, path, h⟩ := h
  cases limit with
  | zero => exact absurd h (not_passes_raise _ _)
  | succ limit =>
    cases v with
    | bool b => exact .inl ⟨b, rfl⟩
    | obj schema => exact .inr ⟨schema, rfl⟩
    | _ => exact absurd h (not_passes_raise _ _)

theorem accepted_of_applies {value : Value} {schema : Dict} (hschema : Checked re schema) {v c : Value}
    (h : Applies re value schema v c) : Accepted re c := by
  have hlist {name : String} {children : List Value} {child : Value} (hname : name ∈ schemaListKeywords)
      (h : schema.lookup (str name) = some (.arr children)) (hchild : child ∈ children) :
      Accepted re child := by
    obtain ⟨_, heq, hall⟩ := hschema.list name hname _ h
    obtain rfl := Json.arr.inj heq
    exact hall child hchild
  have hmap {name : String} {ms : Dict} {m : Str × Value} (hname : name ∈ schemaMapKeywords)
      (h : schema.lookup (str name) = some (.obj ms)) (hm : m ∈ ms) : Accepted re m.2 := by
    obtain ⟨_, heq, hall⟩ := hschema.map name hname _ h
    obtain rfl := Json.obj.inj heq
    exact hall m hm
  have heach : ∀ name ∈ ["allOf", "anyOf", "oneOf"], name ∈ schemaListKeywords := by decide
  have hsingle : ∀ name ∈ ["not", "if", "then", "else"], name ∈ schemaValueKeywords := by decide
  cases h with
  | each hname h hchild => exact hlist (heach _ hname) h hchild
  | single hname h => exact hschema.value _ (hsingle _ hname) _ h
  | property hm h hchild => exact hmap (by decide) h (Json.mem_of_lookup hchild)
  | matching hm h hp hfound hmatch => exact hmap (by decide) h hp
  | additional hm h hown hmatch => exact hschema.value _ (by decide) _ h
  | name hm h => exact hschema.value _ (by decide) _ h
  | fixed h hx => exact hlist (by decide) h (List.of_mem_zip hx).2
  | item hx h => exact hschema.value _ (by decide) _ h
  | contained hx h => exact hschema.value _ (by decide) _ h

theorem accepted_of_calls {f g : Frame} (haccepted : Accepted re f.schema) (hsound : f.Sound re byId)
    (hcall : Calls re byId f g) : Accepted re g.schema := by
  cases hcall with
  | applies h => exact accepted_of_applies re (checked_of_accepted re haccepted) h
  | reference h hresolve => exact hsound.target _ _ _ rfl h hresolve

/-- A call ends when the calls it makes do. -/
theorem ends_frame {f : Frame} {left : ℕ} {path : Path} (haccepted : Accepted re f.schema)
    (hsound : f.Sound re byId) (hresolves : f.Resolves byId)
    (hrec : ∀ g, Calls re byId f g → ∀ path, Ends (validateAt re byId left g.value g.schema g.root path)) :
    Ends (validateAt re byId (left + 1) f.value f.schema f.root path) := by
  obtain ⟨value, schema, root⟩ := f
  obtain ⟨b, rfl⟩ | ⟨members, rfl⟩ := accepted_cases re haccepted
  · cases b
    · exact ends_fail path .falseSchema
    · exact ends_pure ()
  · exact ends_validateDict (checked_of_accepted re haccepted) hsound hresolves hrec

/-- Along a chain of calls from a checked schema, each to a frame that meets the conditions, the
validator ends. The induction is on the calls that are left. -/
theorem ends_validateAt {start : Frame} {limit : ℕ}
    (hresolves : ∀ n f, Chain re byId n start f → f.Resolves byId)
    (hshort : ∀ n f, Chain re byId n start f → n ≤ limit)
    (hsound : ∀ n f, Chain re byId n start f → f.Sound re byId) :
    ∀ (left n : ℕ) (f : Frame), n + left = limit → Chain re byId n start f → Accepted re f.schema →
      ∀ path, Ends (validateAt re byId (left + 1) f.value f.schema f.root path) := by
  intro left
  induction left with
  | zero =>
    intro n f hn hchain haccepted path
    refine ends_frame re byId haccepted (hsound n f hchain) (hresolves n f hchain) fun g hcall _ => ?_
    have := hshort (n + 1) g (.snoc hchain hcall)
    omega
  | succ left ih =>
    intro n f hn hchain haccepted path
    refine ends_frame re byId haccepted (hsound n f hchain) (hresolves n f hchain) fun g hcall => ?_
    exact ih (n + 1) g (by omega) (.snoc hchain hcall) (accepted_of_calls re byId haccepted (hsound n f hchain) hcall)

variable {re byId}

/-- The frame that `validate` starts from. -/
def startFrame (value : Value) (members : Dict) : Frame := ⟨value, .obj members, members⟩

/-- `{"not": false}`, checked against null: one call is made, under the false schema. -/
def sampleMembers : Dict := [(str "not", .bool false)]

theorem chain_sample {n : ℕ} {f : Frame}
    (h : Chain (fun _ => none) [] n (startFrame .null sampleMembers) f) :
    (n = 0 ∧ f = startFrame .null sampleMembers)
      ∨ (n = 1 ∧ f = ⟨.null, .bool false, sampleMembers⟩) := by
  have heach : ∀ name ∈ ["allOf", "anyOf", "oneOf"], sampleMembers.lookup (str name) = none := by decide
  have hsingle : ∀ name ∈ ["not", "if", "then", "else"], ∀ child,
      sampleMembers.lookup (str name) = some child → child = .bool false := by
    intro name hname child h
    simp only [List.mem_cons, List.not_mem_nil, or_false] at hname
    obtain rfl | rfl | rfl | rfl := hname
    · exact (Option.some.inj h).symm
    all_goals cases h
  generalize hstart : startFrame .null sampleMembers = start at h
  induction h with
  | nil => exact .inl ⟨rfl, rfl⟩
  | snoc _ hcall ih =>
    subst hstart
    obtain ⟨rfl, rfl⟩ | ⟨-, rfl⟩ := ih rfl
    · refine .inr ⟨rfl, ?_⟩
      cases hcall with
      | applies h =>
        cases h with
        | each hname h hchild =>
          rw [heach _ hname] at h
          cases h
        | single hname h => rw [hsingle _ hname _ h]
      | reference h => cases h
    · cases hcall

/-- `{"patternProperties": {"(": true}}` -/
def openPattern : Dict := [(str "patternProperties", .obj [(str "(", .bool true)])]

def openMember : Value := .obj [(str "a", .null)]

theorem not_calls_openPattern {f : Frame} :
    ¬ Calls (fun _ => none) [] (startFrame openMember openPattern) f := by
  have heach : ∀ name ∈ ["allOf", "anyOf", "oneOf"], openPattern.lookup (str name) = none := by decide
  have hsingle : ∀ name ∈ ["not", "if", "then", "else"], openPattern.lookup (str name) = none := by decide
  intro hcall
  cases hcall with
  | applies h =>
    cases h with
    | each hname h hchild =>
      rw [heach _ hname] at h
      cases h
    | single hname h =>
      rw [hsingle _ hname] at h
      cases h
    | property hm h => cases h
    | matching hm h hp hfound => cases hfound
    | additional hm h => cases h
    | name hm h => cases h
  | reference h => cases h

end Run

end SchemaValidator
