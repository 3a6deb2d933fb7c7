import Jumpship.Capabilities.ValidateSchema
import Jumpship.Proofs.Totality

/-!
# The questions of a schema

Under the keywords that both evaluators know, each asks a value the same questions: one for every
keyword that applies to it or to a part of it, and one for a boolean in the place of a subschema. The
contract validator passes if it takes the answer to all of them, and raises if it does not.
-/

namespace SchemaValidator

open Py Eval

/-! ## Evaluations that do not depend on what was recorded -/

section Decides

variable {α β : Type} {P Q : Prop} {m n : Eval Unit}

/-- The evaluation gives this value. -/
def Gives (m : Eval α) (a : α) : Prop := ∀ t, (m t).1 = .ok a

/-- The evaluation passes if `P` holds and raises if it does not. -/
structure Decides (m : Eval Unit) (P : Prop) : Prop where
  passes : P → Gives m ()
  raises : ¬ P → ∀ t, ∃ e, (m t).1 = .error e

theorem gives_pure (a : α) : Gives (pure a : Eval α) a := fun _ => rfl

theorem run_bind_ok {m : Eval α} {f : α → Eval β} {a : α} {t : Trace} (h : (m t).1 = .ok a) :
    ∃ t', (m >>= f) t = f a t' := by
  rcases hmt : m t with ⟨e | a', t'⟩ <;> rw [hmt] at h <;> cases h
  exact ⟨t', bind_of_ok hmt f⟩

theorem run_bind_error {m : Eval α} {f : α → Eval β} {e : Exc} {t : Trace}
    (h : (m t).1 = .error e) : ((m >>= f) t).1 = .error e := by
  rcases hmt : m t with ⟨e' | a, t'⟩ <;> rw [hmt] at h <;> cases h
  rw [bind_of_error hmt]

theorem eval_pure_bind (a : α) (f : α → Eval β) : (pure a : Eval α) >>= f = f a := rfl

theorem Gives.bind {m : Eval α} {f : α → Eval β} {a : α} {b : β} (hm : Gives m a)
    (hf : Gives (f a) b) : Gives (m >>= f) b := by
  intro t
  obtain ⟨t', ht⟩ := run_bind_ok (f := f) (hm t)
  rw [ht]
  exact hf t'

theorem Decides.congr (h : Decides m P) (hPQ : P ↔ Q) : Decides m Q :=
  ⟨fun hQ => h.passes (hPQ.2 hQ), fun hQ => h.raises fun hP => hQ (hPQ.1 hP)⟩

theorem decides_pure : Decides (pure ()) True := ⟨fun _ _ => rfl, fun h => absurd trivial h⟩

theorem decides_raise (e : Exc) : Decides (raise e) False := ⟨False.elim, fun _ _ => ⟨e, rfl⟩⟩

theorem decides_require (test : Bool) (path : Path) (reason : Reason) :
    Decides (require test path reason) (test = true) := by
  cases test
  · exact (decides_raise _).congr (by simp)
  · exact decides_pure.congr (by simp)

/-- A first part that gives a value, and the rest with it. -/
theorem Gives.decides {m : Eval α} {f : α → Eval Unit} {a : α} (hm : Gives m a)
    (hf : Decides (f a) P) : Decides (m >>= f) P := by
  constructor
  · intro hP t
    obtain ⟨t', ht⟩ := run_bind_ok (f := f) (hm t)
    rw [ht]
    exact hf.passes hP t'
  · intro hP t
    obtain ⟨t', ht⟩ := run_bind_ok (f := f) (hm t)
    rw [ht]
    exact hf.raises hP t'

theorem Decides.seq (hm : Decides m P) (hn : Decides n Q) : Decides (m >>= fun _ => n) (P ∧ Q) := by
  by_cases hP : P
  · exact ((hm.passes hP).decides hn).congr (by simp [hP])
  · refine ⟨fun h => absurd h.1 hP, fun _ t => ?_⟩
    obtain ⟨e, he⟩ := hm.raises hP t
    exact ⟨e, run_bind_error he⟩

theorem decides_forEach {body : α → Eval Unit} {P : α → Prop} :
    ∀ {xs : List α}, (∀ x ∈ xs, Decides (body x) (P x)) →
      Decides (forEach body xs) (∀ x ∈ xs, P x)
  | [], _ => decides_pure.congr (by simp)
  | x :: xs, h => by
    obtain ⟨hx, hxs⟩ := List.forall_mem_cons.1 h
    exact (hx.seq (decides_forEach hxs)).congr List.forall_mem_cons.symm

theorem decides_onKeyword {schema : Dict} {name : String} {body : Value → Eval Unit}
    {P : Value → Prop} (h : ∀ v, schema.lookup (str name) = some v → Decides (body v) (P v)) :
    Decides (onKeyword schema name body) (∀ v, schema.lookup (str name) = some v → P v) := by
  unfold onKeyword keyword
  cases hv : schema.lookup (str name) with
  | none => exact decides_pure.congr (by simp)
  | some v => exact (h v hv).congr (by simp)

/-- A keyword that the schema does not have. -/
theorem decides_absent {schema : Dict} {name : String} {body : Value → Eval Unit}
    (h : schema.lookup (str name) = none) : Decides (onKeyword schema name body) True := by
  unfold onKeyword keyword
  rw [h]
  exact decides_pure

end Decides

end SchemaValidator

namespace Capabilities.Schema

open Py

/-! ## The shared keywords -/

section Shared

variable (search fullmatch : Str → Option (Str → Bool))

/-- The pattern stands between anchors, of which `$` also holds before a last newline. -/
def FullyAnchored (p : Str) : Prop :=
  ∃ found matched, search p = some found ∧ fullmatch p = some matched ∧
    ((∀ s, found s = matched s) ∨ ∀ s, found s = true ↔
      matched s = true ∨ ∃ t : Str, s.codes = t.codes ++ [0x0A] ∧ matched t = true)

def sharedKeywords : List String :=
  ["type", "const", "enum", "minLength", "pattern", "minItems", "uniqueItems", "items", "properties",
    "required", "additionalProperties"]

/-- A schema of these keywords alone, its subschemas too. -/
inductive Shared : Value → Prop
  | bool (b : Bool) : Shared (.bool b)
  | obj {schema : Dict}
      (known : ∀ k ∈ Json.names schema, k ∈ sharedKeywords.map str)
      (closed : ∀ v, schema.lookup (str "additionalProperties") = some v → v = .bool false)
      (pattern : ∀ p, schema.lookup (str "pattern") = some (.str p) → FullyAnchored search fullmatch p)
      (items : ∀ v, schema.lookup (str "items") = some v → Shared v)
      (properties : ∀ ps, schema.lookup (str "properties") = some (.obj ps) → ∀ m ∈ ps, Shared m.2) :
      Shared (.obj schema)

theorem lookup_unknown {schema : Dict} (known : ∀ k ∈ Json.names schema, k ∈ sharedKeywords.map str)
    {name : String} (hname : str name ∉ sharedKeywords.map str) : schema.lookup (str name) = none :=
  Json.lookup_eq_none.2 fun h => hname (known _ h)

end Shared

/-! ## Questions -/

section Questions

/-- What an evaluator asks of a value. -/
inductive Question where
  | type (value : Value) (names : List Str)
  | const (value constant : Value)
  | enum (value : Value) (values : List Value)
  | length (length : ℕ) (least : Value)
  | pattern (pattern text : Str)
  | unique (elements : List Value)
  | required (members : Dict) (names : List Str)
  | closed (members properties : Dict)
  /-- Elements under a boolean in the place of `items`. -/
  | item (schema : Bool)
  /-- A boolean in the place of any other schema. -/
  | schema (schema : Bool)

/-- The names that `type` lists. -/
def typeList : Value → List Str
  | .str name => [name]
  | .arr xs => (SchemaValidator.strings? xs).getD []
  | _ => []

def propertiesOf (schema : Dict) : Dict :=
  match schema.lookup (str "properties") with
  | some (.obj ps) => ps
  | _ => []

/-- The questions a schema asks of a value and, with its subschemas, of the parts of it. -/
inductive Asks : Value → Value → Question → Prop
  | bool (v : Value) (b : Bool) : Asks v (.bool b) (.schema b)
  | type {schema : Dict} {declared : Value} (v : Value)
      (h : schema.lookup (str "type") = some declared) : Asks v (.obj schema) (.type v (typeList declared))
  | const {schema : Dict} {constant : Value} (v : Value)
      (h : schema.lookup (str "const") = some constant) : Asks v (.obj schema) (.const v constant)
  | enum {schema : Dict} {values : List Value} (v : Value)
      (h : schema.lookup (str "enum") = some (.arr values)) : Asks v (.obj schema) (.enum v values)
  | minLength {schema : Dict} {least : Value} (s : Str)
      (h : schema.lookup (str "minLength") = some least) :
      Asks (.str s) (.obj schema) (.length s.length least)
  | pattern {schema : Dict} {p : Str} (s : Str) (h : schema.lookup (str "pattern") = some (.str p)) :
      Asks (.str s) (.obj schema) (.pattern p s)
  | minItems {schema : Dict} {least : Value} (xs : List Value)
      (h : schema.lookup (str "minItems") = some least) :
      Asks (.arr xs) (.obj schema) (.length xs.length least)
  | unique {schema : Dict} {set : Value} (xs : List Value)
      (h : schema.lookup (str "uniqueItems") = some set) (hset : truthy set = true) :
      Asks (.arr xs) (.obj schema) (.unique xs)
  | itemBool {schema : Dict} {b : Bool} {xs : List Value} (hne : xs ≠ [])
      (h : schema.lookup (str "items") = some (.bool b)) : Asks (.arr xs) (.obj schema) (.item b)
  | item {schema child : Dict} {x : Value} {xs : List Value} {q : Question} (hx : x ∈ xs)
      (h : schema.lookup (str "items") = some (.obj child)) (hq : Asks x (.obj child) q) :
      Asks (.arr xs) (.obj schema) q
  | required {schema : Dict} {names : List Str} (members : Dict)
      (h : schema.lookup (str "required") = some (.arr (names.map Json.str))) :
      Asks (.obj members) (.obj schema) (.required members names)
  | closed {schema : Dict} (members : Dict)
      (h : schema.lookup (str "additionalProperties") = some (.bool false)) :
      Asks (.obj members) (.obj schema) (.closed members (propertiesOf schema))
  | property {schema : Dict} {child : Value} {m : Str × Value} {members : Dict} {q : Question}
      (hm : m ∈ members) (h : (propertiesOf schema).lookup m.1 = some child) (hq : Asks m.2 child q) :
      Asks (.obj members) (.obj schema) q

/-- An answer to all that a schema asks of a value by the value's own type. -/
def AsksValue (C : Question → Prop) (schema : Dict) : Value → Prop
  | .str s =>
    (∀ least, schema.lookup (str "minLength") = some least → C (.length s.length least)) ∧
      ∀ p, schema.lookup (str "pattern") = some (.str p) → C (.pattern p s)
  | .arr xs =>
    (∀ least, schema.lookup (str "minItems") = some least → C (.length xs.length least)) ∧
      (∀ set, schema.lookup (str "uniqueItems") = some set → truthy set = true → C (.unique xs)) ∧
      (∀ b, schema.lookup (str "items") = some (.bool b) → xs ≠ [] → C (.item b)) ∧
      ∀ child, schema.lookup (str "items") = some (.obj child) →
        ∀ x ∈ xs, ∀ q, Asks x (.obj child) q → C q
  | .obj ms =>
    (∀ names : List Str, schema.lookup (str "required") = some (.arr (names.map Json.str)) →
        C (.required ms names)) ∧
      (schema.lookup (str "additionalProperties") = some (.bool false) →
        C (.closed ms (propertiesOf schema))) ∧
      ∀ m ∈ ms, ∀ child, (propertiesOf schema).lookup m.1 = some child →
        ∀ q, Asks m.2 child q → C q
  | _ => True

theorem forall_asks {C : Question → Prop} {schema : Dict} {v : Value} :
    (∀ q, Asks v (.obj schema) q → C q) ↔
      (∀ declared, schema.lookup (str "type") = some declared → C (.type v (typeList declared))) ∧
      (∀ constant, schema.lookup (str "const") = some constant → C (.const v constant)) ∧
      (∀ values, schema.lookup (str "enum") = some (.arr values) → C (.enum v values)) ∧
      AsksValue C schema v := by
  constructor
  · intro h
    refine ⟨fun _ hd => h _ (.type v hd), fun _ hc => h _ (.const v hc), fun _ he => h _ (.enum v he), ?_⟩
    cases v with
    | str s => exact ⟨fun _ hl => h _ (.minLength s hl), fun _ hp => h _ (.pattern s hp)⟩
    | arr xs =>
      exact ⟨fun _ hl => h _ (.minItems xs hl), fun _ hu hset => h _ (.unique xs hu hset),
        fun _ hi hne => h _ (.itemBool hne hi), fun _ hi _ hx q hq => h q (.item hx hi hq)⟩
    | obj ms =>
      exact ⟨fun _ hr => h _ (.required ms hr), fun hc => h _ (.closed ms hc),
        fun _ hm _ hp q hq => h q (.property hm hp hq)⟩
    | _ => trivial
  · rintro ⟨htype, hconst, henum, hvalue⟩ q hq
    cases hq with
    | type _ h => exact htype _ h
    | const _ h => exact hconst _ h
    | enum _ h => exact henum _ h
    | minLength _ h => exact hvalue.1 _ h
    | pattern _ h => exact hvalue.2 _ h
    | minItems _ h => exact hvalue.1 _ h
    | unique _ h hset => exact hvalue.2.1 _ h hset
    | itemBool hne h => exact hvalue.2.2.1 _ h hne
    | item hx h hq => exact hvalue.2.2.2 _ h _ hx q hq
    | required _ h => exact hvalue.1 _ h
    | closed _ h => exact hvalue.2.1 h
    | property hm h hq => exact hvalue.2.2 _ hm _ h q hq

theorem not_asks_empty (v : Value) : ∀ q, ¬ Asks v (.obj []) q := by
  refine forall_asks.2 ⟨nofun, nofun, nofun, ?_⟩
  cases v <;> simp [AsksValue, propertiesOf]

theorem forall_asks_bool {C : Question → Prop} {v : Value} {b : Bool} :
    (∀ q, Asks v (.bool b) q → C q) ↔ C (.schema b) :=
  ⟨fun h => h _ (.bool v b), fun h q hq => by
    cases hq
    exact h⟩

variable (search fullmatch : Str → Option (Str → Bool))

/-- The answer that the contract validator takes. -/
def Question.Contract : Question → Prop
  | .type v names => ∃ name ∈ names, SchemaValidator.hasType v name = true
  | .const v constant => SchemaValidator.jsonEqual v constant = true
  | .enum v values => values.any (SchemaValidator.jsonEqual v) = true
  | .length n least => ∀ bound, number? least = some bound → (Number.int n).less bound = false
  | .pattern p s => ∀ found, search p = some found → found s = true
  | .unique xs => SchemaValidator.distinctValues [] xs = true
  | .required members names => ∀ name ∈ names, name ∈ Json.names members
  | .closed members properties => ∀ m ∈ members, m.1 ∈ Json.names properties
  | .item b | .schema b => b = true

/-- The answer that the capability gate takes. It passes over elements under `false`, and fails with an
`AttributeError` under any other boolean. -/
def Question.Capability : Question → Prop
  | .type v names => ∃ name ∈ names, jsonTypeMatches v (.str name) = .ok true
  | .const v constant => equal v constant = true
  | .enum v values => values.any (same v) = true
  | .length n least => ∀ bound, number? least = some bound → (Number.int n).less bound = false
  | .pattern p s => ∀ matched, fullmatch p = some matched → matched s = true
  | .unique xs => (xs.map encoded).Nodup
  | .required members names => ∀ name ∈ names, name ∈ Json.names members
  | .closed members properties => ∀ m ∈ members, m.1 ∈ Json.names properties
  | .item b => b = false
  | .schema _ => False

end Questions

end Capabilities.Schema

namespace SchemaValidator

open Py Eval Capabilities.Schema

/-! ## The contract validator -/

section Contract

variable {re : Str → Option (Str → Bool)} {byId : Documents} {schema root : Dict} {rec : Validator}
  {path : Path}

theorem gives_iterate (xs : List Value) : Gives (iterate (.arr xs)) xs := gives_pure xs

theorem gives_anyOf {α β : Type} {test : β → Eval Bool} {g : α → β} {p : α → Bool} :
    ∀ {xs : List α}, (∀ x ∈ xs, Gives (test (g x)) (p x)) →
      Gives (anyOf test (xs.map g)) (xs.any p)
  | [], _ => gives_pure false
  | x :: xs, h => by
    obtain ⟨hx, hxs⟩ := List.forall_mem_cons.1 h
    refine hx.bind ?_
    rw [List.any_cons]
    cases p x
    · simpa using gives_anyOf hxs
    · exact gives_pure true

theorem gives_filterMap {α β γ : Type} {f : β → Eval (Option γ)} {k : α → β} {g : α → Option γ} :
    ∀ {xs : List α}, (∀ x ∈ xs, Gives (f (k x)) (g x)) →
      Gives (filterMap f (xs.map k)) (xs.filterMap g)
  | [], _ => gives_pure []
  | x :: xs, h => by
    obtain ⟨hx, hxs⟩ := List.forall_mem_cons.1 h
    refine hx.bind ((gives_filterMap hxs).bind ?_)
    cases hg : g x
    · simpa [hg] using gives_pure (xs.filterMap g)
    · simpa [hg] using gives_pure _

theorem decides_validateType {value declared : Value} (h : isTypeDeclaration declared = true) :
    Decides (validateType value declared path)
      (∃ name ∈ typeList declared, hasType value name = true) := by
  obtain ⟨names, hgives, hnames⟩ : ∃ names : List Str,
      Gives (typeNames declared) (names.map Json.str) ∧ typeList declared = names := by
    cases declared with
    | str s => exact ⟨[s], gives_pure _, rfl⟩
    | arr xs =>
      rw [isTypeDeclaration] at h
      cases hxs : strings? xs with
      | none => simp [hxs] at h
      | some names =>
        obtain rfl := strings?_spec hxs
        exact ⟨names, gives_iterate _, by rw [typeList, hxs]; rfl⟩
    | _ => cases h
  have hany : Gives (anyOf (checkType value) (names.map Json.str)) (names.any (hasType value)) :=
    gives_anyOf fun _ _ => gives_pure _
  refine (hgives.decides (hany.decides (decides_require _ _ _))).congr ?_
  rw [hnames, List.any_eq_true]

/-- A count without an upper bound. -/
theorem gives_outOfRange (n : ℕ) {minimum maximum : String} {least : Number}
    (hmin : keywordD schema minimum (int 0) = .num least)
    (hmax : schema.lookup (str maximum) = none) :
    Gives (outOfRange (.int n) schema minimum maximum (int 0)) ((Number.int n).less least) := by
  have hmax' : keywordD schema maximum (infinity false) = infinity false := by
    rw [keywordD, keyword, hmax]
    rfl
  have hbelow : Gives (below (.int n) (keywordD schema minimum (int 0))) ((Number.int n).less least) := by
    rw [hmin]
    exact gives_pure _
  refine hbelow.bind ?_
  cases (Number.int n).less least
  · rw [if_neg Bool.false_ne_true, hmax']
    exact gives_pure _
  · exact gives_pure true

/-- The count that a keyword requires, zero where the schema does not have it. -/
theorem least_count (hschema : Checked re schema) {minimum : String}
    (hmin : minimum ∈ ["minItems", "maxItems", "minLength", "maxLength", "minProperties",
      "maxProperties", "minContains", "maxContains"]) :
    ∃ least, keywordD schema minimum (int 0) = .num least ∧
      ∀ n : ℕ, (Number.int n).less least = false ↔ ∀ v, schema.lookup (str minimum) = some v →
        ∀ bound, number? v = some bound → (Number.int n).less bound = false := by
  obtain ⟨v, hv, h⟩ | ⟨hnone, h⟩ := keywordD_eq schema minimum (int 0)
  · have hcount := hschema.count _ hmin v hv
    cases v with
    | num x => exact ⟨x, h, fun n => by simp [hv, number?]⟩
    | _ => cases hcount
  · refine ⟨.int 0, h, fun n => ?_⟩
    simp [hnone, Number.less, Number.value?]

theorem decides_count (hschema : Checked re schema) (n : ℕ) {minimum maximum : String} {reason : Reason}
    (hmin : minimum ∈ ["minItems", "maxItems", "minLength", "maxLength", "minProperties",
      "maxProperties", "minContains", "maxContains"])
    (hmax : schema.lookup (str maximum) = none) :
    Decides (do
      let out ← outOfRange (.int n) schema minimum maximum (int 0)
      require (!out) path reason)
      (∀ v, schema.lookup (str minimum) = some v → ∀ bound, number? v = some bound →
        (Number.int n).less bound = false) := by
  obtain ⟨least, hleast, hiff⟩ := least_count hschema hmin
  refine ((gives_outOfRange n hleast hmax).decides (decides_require _ _ _)).congr ?_
  rw [Bool.not_eq_true', hiff]

variable (hschema : Checked re schema)
  (known : ∀ k ∈ Json.names schema, k ∈ sharedKeywords.map str)
  (closed : ∀ v, schema.lookup (str "additionalProperties") = some v → v = .bool false)

theorem strings?_map (names : List Str) : strings? (names.map Json.str) = some names := by
  induction names with
  | nil => rfl
  | cons name names ih => rw [List.map_cons, strings?, ih, Option.map_some]

include known in
theorem keywordD_unknown (name : String) (hname : str name ∉ sharedKeywords.map str) (default : Value) :
    keywordD schema name default = default := by
  rw [keywordD, keyword, lookup_unknown known hname]
  rfl

include hschema in
theorem keywordD_properties : keywordD schema "properties" (.obj []) = .obj (propertiesOf schema) := by
  obtain ⟨v, hv, h⟩ | ⟨hnone, h⟩ := keywordD_eq schema "properties" (.obj [])
  · obtain ⟨ps, rfl, -⟩ := hschema.map "properties" (by decide) v hv
    rw [h, propertiesOf, hv]
  · rw [h, propertiesOf, hnone]

include hschema known closed in
/-- A member is held to its own schema, or to none where the schema is not closed. -/
theorem decides_member {P : Value → Prop} (key : Str) {body : Value → Eval Unit}
    (hbody : ∀ c, (propertiesOf schema).lookup key = some c → Decides (body c) (P c)) :
    Decides (do
      let children ← memberSchemas re schema key path
      forEach body children)
      ((∀ c, (propertiesOf schema).lookup key = some c → P c) ∧
        (schema.lookup (str "additionalProperties") = some (.bool false) →
          key ∈ Json.names (propertiesOf schema))) := by
  have hpatterns : keywordD schema "patternProperties" (.obj []) = .obj [] :=
    keywordD_unknown known "patternProperties" (by decide) _
  cases hown : (propertiesOf schema).lookup key with
  | some c =>
    have hmembers : memberSchemas re schema key path = pure [c] := by
      rw [memberSchemas, keywordD_properties hschema, hpatterns]
      simp only [ownProperty, patternMatches, filterMap, eval_pure_bind, hown]
      rfl
    have hmem : key ∈ Json.names (propertiesOf schema) :=
      Json.mem_names.2 ⟨c, Json.mem_of_lookup hown⟩
    rw [hmembers]
    exact ((gives_pure [c]).decides (decides_forEach (P := P) fun x hx => by
      rw [List.mem_singleton.1 hx]
      exact hbody c hown)).congr (by simp [hmem])
  | none =>
    have hnot : key ∉ Json.names (propertiesOf schema) := Json.lookup_eq_none.1 hown
    obtain ⟨v, hv, h⟩ | ⟨hnone, h⟩ := keywordD_eq schema "additionalProperties" (.bool true)
    · obtain rfl := closed v hv
      have hmembers : memberSchemas re schema key path = fail path (.unknownProperty key) := by
        rw [memberSchemas, keywordD_properties hschema, hpatterns, h]
        simp only [ownProperty, patternMatches, filterMap, eval_pure_bind, hown]
        rfl
      rw [hmembers]
      exact ⟨fun hP => absurd (hP.2 hv) hnot, fun _ t => ⟨_, rfl⟩⟩
    · have hmembers : memberSchemas re schema key path = pure [] := by
        rw [memberSchemas, keywordD_properties hschema, hpatterns, h]
        simp only [ownProperty, patternMatches, filterMap, eval_pure_bind, hown]
        rfl
      rw [hmembers]
      exact ((gives_pure ([] : List Value)).decides decides_pure).congr (by simp [hnone])

include hschema known closed in
theorem decides_validateObject {members : Dict} {P : Str × Value → Value → Prop}
    (hrec : ∀ m ∈ members, ∀ c, (propertiesOf schema).lookup m.1 = some c →
      ∀ path, Decides (rec m.2 c root path) (P m c)) :
    Decides (validateObject re rec members schema root path)
      ((∀ names : List Str, schema.lookup (str "required") = some (.arr (names.map Json.str)) →
          ∀ name ∈ names, name ∈ Json.names members) ∧
        ∀ m ∈ members, (∀ c, (propertiesOf schema).lookup m.1 = some c → P m c) ∧
          (schema.lookup (str "additionalProperties") = some (.bool false) →
            m.1 ∈ Json.names (propertiesOf schema))) := by
  obtain ⟨names, hnames, hrequired⟩ : ∃ names : List Str,
      keywordD schema "required" (.arr []) = .arr (names.map Json.str) ∧
        ∀ P : Str → Prop, (∀ name ∈ names, P name) ↔ ∀ names : List Str,
          schema.lookup (str "required") = some (.arr (names.map Json.str)) → ∀ name ∈ names, P name := by
    obtain ⟨v, hv, h⟩ | ⟨hnone, h⟩ := keywordD_eq schema "required" (.arr [])
    · obtain ⟨names, rfl⟩ := isStringSet_spec (hschema.required v hv)
      refine ⟨names, h, fun P => ⟨fun hP names' hnames' => ?_, fun hP => hP names hv⟩⟩
      rw [hv, Option.some.injEq, Json.arr.injEq] at hnames'
      rw [← (List.map_injective_iff.2 fun _ _ h => Json.str.inj h) hnames']
      exact hP
    · exact ⟨[], h, fun P => by simp [hnone]⟩
  have hmissing : Gives (missingFields members (names.map Json.str))
      ((names.filter fun name => name ∉ Json.names members).map Json.str) := by
    have hfilter : ((names.filter fun name => name ∉ Json.names members).map Json.str : List Value) =
        names.filterMap fun name =>
          if name ∈ Json.names members then none else some (Json.str name) := by
      rw [← List.filterMap_eq_filter, List.map_filterMap]
      refine List.filterMap_congr fun name _ => ?_
      by_cases hname : name ∈ Json.names members <;> simp [hname]
    rw [hfilter]
    exact gives_filterMap fun _ _ => gives_pure _
  rw [validateObject, hnames, keywordD_unknown known "dependentRequired" (by decide)]
  refine ((gives_iterate _).decides (hmissing.decides ((decides_require _ _ _).seq
    ((gives_outOfRange members.length (keywordD_unknown known "minProperties" (by decide) _)
      (lookup_unknown known (by decide))).decides ((decides_require _ _ _).seq
    ((decides_forEach fun m hm => decides_member hschema known closed m.1
      fun c hc => hrec m hm c hc _).seq
    ((decides_absent (lookup_unknown known (by decide))).seq decides_pure))))))).congr ?_
  have hcount : (Number.int members.length).less (.int 0) = false := by
    simp [Number.less, Number.value?]
  simp only [hcount, Bool.not_false, true_and, and_true, List.isEmpty_iff, List.map_eq_nil_iff,
    List.filter_eq_nil_iff, decide_not, Bool.not_eq_true', decide_eq_false_iff_not, not_not, hrequired]

include hschema known in
theorem decides_validateArray {elements : List Value} {P : Value → Value → Prop}
    (hrec : ∀ x ∈ elements, ∀ c, schema.lookup (str "items") = some c →
      ∀ path, Decides (rec x c root path) (P x c)) :
    Decides (validateArray rec elements schema root path)
      ((∀ v, schema.lookup (str "minItems") = some v → ∀ bound, number? v = some bound →
          (Number.int elements.length).less bound = false) ∧
        (∀ v, schema.lookup (str "uniqueItems") = some v → truthy v = true →
          distinctValues [] elements = true) ∧
        ∀ c, schema.lookup (str "items") = some c → ∀ x ∈ elements, P x c) := by
  obtain ⟨least, hleast, hcount⟩ := least_count hschema (show "minItems" ∈ ["minItems", "maxItems",
    "minLength", "maxLength", "minProperties", "maxProperties", "minContains", "maxContains"] by decide)
  have hitems : Decides (onKeyword schema "items" fun child =>
      forEach (fun x => rec x.1 child root (path ++ [.index x.2])) ((elements.drop 0).zipIdx 0))
      (∀ c, schema.lookup (str "items") = some c → ∀ x ∈ elements, P x c) := by
    refine decides_onKeyword fun c hc => ?_
    refine (decides_forEach (P := fun x : Value × ℕ => P x.1 c) fun x hx =>
      hrec x.1 (List.fst_mem_of_mem_zipIdx hx) c hc _).congr
        ⟨fun h x hx => ?_, fun h x hx => h x.1 (List.fst_mem_of_mem_zipIdx hx)⟩
    rw [← List.zipIdx_map_fst 0 elements] at hx
    obtain ⟨y, hy, rfl⟩ := List.mem_map.1 hx
    exact h y hy
  rw [validateArray, keywordD_unknown known "prefixItems" (by decide)]
  have hfixed : Decides (forEach (fun x => rec x.1.1 x.1.2 root (path ++ [.index x.2]))
      (elements.zip ([] : List Value)).zipIdx) True := by
    rw [List.zip_nil_right]
    exact decides_pure
  refine ((gives_outOfRange elements.length hleast (lookup_unknown known (by decide))).decides
    ((decides_require _ _ _).seq ((decides_require _ _ _).seq ((gives_iterate []).decides
      (hfixed.seq (hitems.seq (decides_absent (lookup_unknown known (by decide))))))))).congr ?_
  rw [Bool.not_eq_true', hcount, true_and, and_true]
  refine and_congr_right fun _ => and_congr_left fun _ => ?_
  obtain ⟨v, hv, h⟩ | ⟨hnone, h⟩ := keywordD_eq schema "uniqueItems" .null
  · cases htruthy : truthy v <;> simp [h, hv, htruthy]
  · simp [h, hnone, truthy]

include known in
/-- No shared keyword bounds a number. -/
theorem decides_validateNumber (x : Number) : Decides (validateNumber x schema path) True := by
  have hbelow : x.less (.float (.inf true)) = false := by
    rcases x with n | y | _ | b | _ <;> simp [Number.less]
  have habove : (Number.float (.inf false)).less x = false := by
    rcases x with n | y | _ | b | _ <;> simp [Number.less]
  have hout : Gives (outOfRange x schema "minimum" "maximum" (infinity true)) false := by
    rw [outOfRange, keywordD_unknown known "minimum" (by decide),
      keywordD_unknown known "maximum" (by decide)]
    have hbelow' : Gives (below x (infinity true)) (x.less (.float (.inf true))) := gives_pure _
    have habove' : Gives (above x (infinity false)) ((Number.float (.inf false)).less x) := gives_pure _
    rw [hbelow] at hbelow'
    rw [habove] at habove'
    exact hbelow'.bind habove'
  rw [validateNumber]
  refine (hout.decides ((decides_require _ _ _).seq
    ((decides_absent (lookup_unknown known (by decide))).seq
    ((decides_absent (lookup_unknown known (by decide))).seq
      (decides_absent (lookup_unknown known (by decide))))))).congr ?_
  simp

/-- What a run of the validator on a part of the value decides. -/
def DecidesAll (re : Str → Option (Str → Bool)) (rec : Validator) (root : Dict) (v c : Value) : Prop :=
  ∀ path, Decides (rec v c root path) (∀ q, Asks v c q → q.Contract re)

include hschema known in
theorem decides_string (s : Str) : Decides (do
    let out ← outOfRange (.int s.length) schema "minLength" "maxLength" (int 0)
    require (!out) path .stringLength
    onKeyword schema "pattern" fun pattern => do
      let found ← search re pattern s
      require found path .pattern) (AsksValue (Question.Contract re) schema (.str s)) := by
  obtain ⟨least, hleast, hcount⟩ := least_count hschema (show "minLength" ∈ ["minItems", "maxItems",
    "minLength", "maxLength", "minProperties", "maxProperties", "minContains", "maxContains"] by decide)
  have hpattern : Decides (onKeyword schema "pattern" fun pattern => do
      let found ← search re pattern s
      require found path .pattern)
      (∀ v, schema.lookup (str "pattern") = some v → ∀ p, v = .str p → Question.Contract re (.pattern p s)) := by
    refine decides_onKeyword fun v hv => ?_
    obtain ⟨p, found, rfl, hfound⟩ := hschema.pattern v hv
    have hsearch : Gives (search re (.str p) s) (found s) := by
      rw [search, hfound]
      exact gives_pure _
    refine (hsearch.decides (decides_require _ _ _)).congr ?_
    simp [Question.Contract, hfound]
  refine ((gives_outOfRange s.length hleast (lookup_unknown known (by decide))).decides
    ((decides_require _ _ _).seq hpattern)).congr ?_
  rw [Bool.not_eq_true', hcount]
  exact and_congr_right fun _ => ⟨fun h p hp => h _ hp p rfl, fun h v hv p hp => h p (hp ▸ hv)⟩

include hschema known in
theorem decides_array {elements : List Value}
    (hrec : ∀ x ∈ elements, ∀ c, schema.lookup (str "items") = some c →
      DecidesAll re rec root x c) :
    Decides (validateArray rec elements schema root path)
      (AsksValue (Question.Contract re) schema (.arr elements)) := by
  refine (decides_validateArray hschema known hrec).congr
    (and_congr_right fun _ => and_congr_right fun _ => ?_)
  constructor
  · refine fun h => ⟨fun b hb hne => ?_, fun child hchild => h _ hchild⟩
    obtain ⟨x, xs, rfl⟩ := List.exists_cons_of_ne_nil hne
    have hx : Question.Contract re (.schema b) := h _ hb x List.mem_cons_self _ (.bool x b)
    exact hx
  · rintro ⟨hbool, hobj⟩ c hc x hx q hq
    obtain ⟨b, rfl⟩ | ⟨child, rfl⟩ := accepted_cases re (hschema.value "items" (by decide) c hc)
    · cases hq
      exact hbool b hc (List.ne_nil_of_mem hx)
    · exact hobj child hc x hx q hq

include hschema known closed in
theorem decides_object {members : Dict}
    (hrec : ∀ m ∈ members, ∀ c, (propertiesOf schema).lookup m.1 = some c →
      DecidesAll re rec root m.2 c) :
    Decides (validateObject re rec members schema root path)
      (AsksValue (Question.Contract re) schema (.obj members)) := by
  refine (decides_validateObject hschema known closed hrec).congr (and_congr_right fun _ => ?_)
  constructor
  · exact fun h => ⟨fun hclosed m hm => (h m hm).2 hclosed, fun m hm => (h m hm).1⟩
  · exact fun h m hm => ⟨h.2 m hm, fun hclosed => h.1 hclosed m hm⟩

include hschema in
/-- The keywords that apply to a value of any type, and what comes behind them. -/
theorem decides_parts (value : Value) {parts : Eval Unit} {Q : Prop} (hparts : Decides parts Q) :
    Decides (do
      onKeyword schema "const" fun expected => require (jsonEqual value expected) path .const
      onKeyword schema "enum" fun values => do
        let candidates ← iterate values
        require (candidates.any (jsonEqual value)) path .enum
      onKeyword schema "type" fun expected => validateType value expected path
      parts)
      ((∀ declared, schema.lookup (str "type") = some declared →
          Question.Contract re (.type value (typeList declared))) ∧
        (∀ constant, schema.lookup (str "const") = some constant →
          Question.Contract re (.const value constant)) ∧
        (∀ values, schema.lookup (str "enum") = some (.arr values) →
          Question.Contract re (.enum value values)) ∧ Q) := by
  have hconst : Decides (onKeyword schema "const" fun expected =>
      require (jsonEqual value expected) path .const)
      (∀ constant, schema.lookup (str "const") = some constant →
        Question.Contract re (.const value constant)) :=
    decides_onKeyword fun _ _ => decides_require _ _ _
  have henum : Decides (onKeyword schema "enum" fun values => do
      let candidates ← iterate values
      require (candidates.any (jsonEqual value)) path .enum)
      (∀ v, schema.lookup (str "enum") = some v → ∀ values, v = .arr values →
        Question.Contract re (.enum value values)) := by
    refine decides_onKeyword fun v hv => ?_
    obtain ⟨values, rfl⟩ := hschema.enum v hv
    refine ((gives_iterate values).decides (decides_require _ _ _)).congr ?_
    exact ⟨fun h _ heq => Json.arr.inj heq ▸ h, fun h => h values rfl⟩
  have htype : Decides (onKeyword schema "type" fun expected => validateType value expected path)
      (∀ declared, schema.lookup (str "type") = some declared →
        Question.Contract re (.type value (typeList declared))) :=
    decides_onKeyword fun _ hd => decides_validateType (hschema.type _ hd)
  refine (hconst.seq (henum.seq (htype.seq hparts))).congr ?_
  constructor
  · rintro ⟨hconst, henum, htype, hQ⟩
    exact ⟨htype, hconst, fun values hv => henum _ hv values rfl, hQ⟩
  · rintro ⟨htype, hconst, henum, hQ⟩
    exact ⟨hconst, fun v hv values heq => henum values (heq ▸ hv), htype, hQ⟩

include hschema known closed in
/-- Under a checked schema of the shared keywords, the validator passes if every answer is the one it
takes. -/
theorem decides_validateDict {value : Value}
    (hitems : ∀ xs, value = .arr xs → ∀ x ∈ xs, ∀ c, schema.lookup (str "items") = some c →
      DecidesAll re rec root x c)
    (hproperties : ∀ ms, value = .obj ms → ∀ m ∈ ms, ∀ c, (propertiesOf schema).lookup m.1 = some c →
      DecidesAll re rec root m.2 c) :
    Decides (validateDict re byId rec value schema root path)
      (∀ q, Asks value (.obj schema) q → q.Contract re) := by
  have habsent : ∀ (name : String) (body : Value → Eval Unit), str name ∉ sharedKeywords.map str →
      onKeyword schema name body = pure () := fun name body hname => by
    rw [onKeyword, keyword, lookup_unknown known hname]
  unfold validateDict
  rw [habsent "$ref" _ (by decide), habsent "allOf" _ (by decide),
    habsent "anyOf" _ (by decide), habsent "oneOf" _ (by decide), habsent "not" _ (by decide),
    habsent "if" _ (by decide), forall_asks]
  simp only [eval_pure_bind]
  cases value with
  | null => exact decides_parts hschema _ decides_pure
  | bool b => exact decides_parts hschema _ decides_pure
  | num x => exact decides_parts hschema _ (decides_validateNumber known x)
  | str s => exact decides_parts hschema _ (decides_string hschema known s)
  | arr xs => exact decides_parts hschema _ (decides_array hschema known (hitems xs rfl))
  | obj ms => exact decides_parts hschema _ (decides_object hschema known closed (hproperties ms rfl))

/-- A schema whose definition is accepted within so many nested calls. -/
def Within (re : Str → Option (Str → Bool)) (limit : ℕ) (c : Value) : Prop :=
  ∃ path, Passes (validateSchemaDefinition re limit c path) ()

theorem within_children {limit : ℕ} (h : Within re (limit + 1) (.obj schema)) :
    (∀ c, schema.lookup (str "items") = some c → Within re limit c) ∧
      ∀ key c, (propertiesOf schema).lookup key = some c → Within re limit c := by
  obtain ⟨path, h⟩ := h
  -- The checks before those of the subschemas.
  obtain ⟨-, h⟩ := Passes.seq h
  obtain ⟨-, h⟩ := h.seq
  obtain ⟨-, h⟩ := h.seq
  obtain ⟨-, h⟩ := h.seq
  obtain ⟨-, h⟩ := h.seq
  obtain ⟨-, h⟩ := h.seq
  obtain ⟨-, h⟩ := h.seq
  obtain ⟨-, h⟩ := h.seq
  obtain ⟨-, h⟩ := h.seq
  obtain ⟨-, h⟩ := h.seq
  obtain ⟨-, h⟩ := h.seq
  obtain ⟨hmap, h⟩ := h.seq
  obtain ⟨-, h⟩ := h.seq
  obtain ⟨hvalue, -⟩ := h.seq
  refine ⟨fun c hc => ⟨_, (hvalue.forEach "items" (by decide)).onKeyword hc⟩, fun key c hc => ?_⟩
  rw [propertiesOf] at hc
  split at hc
  · rename_i ps hps
    have hbody := (hmap.forEach "properties" (by decide)).onKeyword hps
    exact ⟨_, hbody.forEach (key, c) (Json.mem_of_lookup hc)⟩
  · cases hc

theorem shared_children {fullmatch : Str → Option (Str → Bool)} (h : Shared re fullmatch (.obj schema)) :
    (∀ c, schema.lookup (str "items") = some c → Shared re fullmatch c) ∧
      ∀ key c, (propertiesOf schema).lookup key = some c → Shared re fullmatch c := by
  cases h with
  | obj known closed pattern items properties =>
    refine ⟨items, fun key c hc => ?_⟩
    rw [propertiesOf] at hc
    split at hc
    · rename_i ps hps
      exact properties ps hps _ (Json.mem_of_lookup hc)
    · cases hc

/-- By the number of nested calls, which is enough for a definition that was accepted within it. -/
theorem decidesAll_validateAt {fullmatch : Str → Option (Str → Bool)} :
    ∀ {n limit : ℕ} {v c : Value}, limit ≤ n → Shared re fullmatch c → Within re limit c →
      DecidesAll re (validateAt re byId n) root v c
  | _, 0, _, _, _, _, ⟨_, h⟩ => absurd h (not_passes_raise _ _)
  | 0, _ + 1, _, _, hle, _, _ => absurd hle (by omega)
  | n + 1, limit + 1, v, .bool b, _, _, _ => fun path => by
    cases b
    · exact (decides_raise _).congr (by simp [forall_asks_bool, Question.Contract])
    · exact decides_pure.congr (by simp [forall_asks_bool, Question.Contract])
  | n + 1, limit + 1, v, .obj schema, hle, hshared, hwithin => fun path => by
    obtain ⟨hitems, hproperties⟩ := within_children hwithin
    obtain ⟨hitems', hproperties'⟩ := shared_children hshared
    have hchecked := checked_of_accepted re ⟨_, hwithin⟩
    have hle : limit ≤ n := by omega
    cases hshared with
    | obj known closed _ _ _ =>
      rw [validateAt]
      exact decides_validateDict hchecked known closed
        (fun _ _ x _ c hc => decidesAll_validateAt hle (hitems' c hc) (hitems c hc))
        fun _ _ m _ c hc => decidesAll_validateAt hle (hproperties' _ c hc) (hproperties _ c hc)
  | _ + 1, _ + 1, _, .null, _, h, _ => by cases h
  | _ + 1, _ + 1, _, .num _, _, h, _ => by cases h
  | _ + 1, _ + 1, _, .str _, _, h, _ => by cases h
  | _ + 1, _ + 1, _, .arr _, _, h, _ => by cases h

end Contract

end SchemaValidator
