import Jumpship.Lib.Fallible
import Jumpship.Proofs.FailClosed
import Jumpship.Proofs.PyJson
import Jumpship.Proofs.SchemaQuestions

/-!
# Two evaluators of one schema

The capability gate reports nothing if it takes the answer to all the questions of a schema. The two
take the same answer to most of them; where they do not, the gate compares as Python does, reads the
type of a float from its class and not its value, and has no boolean subschemas.
-/

namespace Capabilities.Schema

open Py Fallible
open SchemaValidator (Checked Within Documents isTypeDeclaration strings? strings?_spec strings?_map
  isStringSet_spec)

/-! ## The capability gate -/

section Gate

theorem report_eq_nil {parts : List Report} : report parts = .ok [] ↔ ∀ part ∈ parts, part = .ok [] := by
  induction parts with
  | nil => exact iff_of_true rfl (by simp)
  | cons part parts ih =>
    simp only [report, bind_eq_ok, pure_eq_ok, List.append_eq_nil_iff, List.forall_mem_cons, ← ih]
    constructor
    · rintro ⟨errors, hpart, rest, hrest, rfl, rfl⟩
      exact ⟨hpart, hrest⟩
    · rintro ⟨hpart, hrest⟩
      exact ⟨[], hpart, [], hrest, rfl, rfl⟩

theorem expect_eq_nil {test : Bool} {location : Location} {problem : Problem} :
    expect test location problem = .ok [] ↔ test = true := by
  cases test <;> simp [expect, pure_eq_ok]

theorem onKeyword_eq_nil {schema : Dict} {name : String} {body : Value → Report} :
    onKeyword schema name body = .ok [] ↔ ∀ v, schema.lookup (str name) = some v → body v = .ok [] := by
  rw [onKeyword, get]
  cases schema.lookup (str name) with
  | none => exact iff_of_true rfl (by simp)
  | some v => simp

theorem jsonTypeMatches_known {name : Str} (h : name ∈ SchemaValidator.jsonTypes.map str) (v : Value) :
    ∃ b, jsonTypeMatches v (.str name) = .ok b := by
  simp only [SchemaValidator.jsonTypes, List.map_cons, List.map_nil, List.mem_cons, List.not_mem_nil,
    or_false] at h
  rcases h with rfl | rfl | rfl | rfl | rfl | rfl | rfl <;> exact ⟨_, rfl⟩

theorem anyType_known {v : Value} {names : List Str}
    (h : ∀ name ∈ names, name ∈ SchemaValidator.jsonTypes.map str) :
    ∃ b, anyType v (names.map Json.str) = .ok b ∧
      (b = true ↔ ∃ name ∈ names, jsonTypeMatches v (.str name) = .ok true) := by
  induction names with
  | nil => exact ⟨false, rfl, by simp⟩
  | cons name names ih =>
    obtain ⟨hname, hnames⟩ := List.forall_mem_cons.1 h
    obtain ⟨b, hb⟩ := jsonTypeMatches_known hname v
    obtain ⟨rest, hrest, hiff⟩ := ih hnames
    rw [List.map_cons, anyType, hb]
    cases b
    · exact ⟨rest, hrest, by simp [hb, hiff]⟩
    · exact ⟨true, rfl, by simp [hb]⟩

variable {search fullmatch : Str → Option (Str → Bool)} {schema : Dict} {rec : Validator}
  {location : Location}

/-- The names of a type declaration, and that the gate knows them. -/
theorem typeList_known {declared : Value} (h : isTypeDeclaration declared = true) :
    declared ≠ .null ∧ expectedTypes declared = .ok ((typeList declared).map Json.str) ∧
      ∀ name ∈ typeList declared, name ∈ SchemaValidator.jsonTypes.map str := by
  cases declared with
  | str s => exact ⟨by simp, rfl, by simpa [isTypeDeclaration, typeList] using h⟩
  | arr xs =>
    rw [isTypeDeclaration] at h
    cases hxs : strings? xs with
    | none => simp [hxs] at h
    | some names =>
      simp only [hxs, Bool.and_eq_true, List.all_eq_true, decide_eq_true_eq] at h
      refine ⟨by simp, ?_, ?_⟩
      · rw [typeList, hxs, expectedTypes, iterate, items?, strings?_spec hxs]
        · rfl
        · simp
      · rw [typeList, hxs]
        exact h.2
  | _ => cases h

variable (hschema : Checked search schema)

include hschema in
theorem validateDict_eq_nil (value : Value) :
    validateDict fullmatch rec value schema location = .ok [] ↔
      (∀ declared, schema.lookup (str "type") = some declared →
        Question.Capability fullmatch (.type value (typeList declared))) ∧
        valueParts fullmatch rec value schema location = .ok [] := by
  unfold validateDict get
  cases hdeclared : schema.lookup (str "type") with
  | none => simp
  | some declared =>
    obtain ⟨hne, hexpected, hknown⟩ := typeList_known (hschema.type declared hdeclared)
    obtain ⟨b, hb, hiff⟩ := anyType_known (v := value) hknown
    have hstep : (do
        let types ← expectedTypes declared
        let found ← anyType value types
        if found then valueParts fullmatch rec value schema location
        else pure [(location, Problem.type types)]) = .ok [] ↔
          b = true ∧ valueParts fullmatch rec value schema location = .ok [] := by
      rw [hexpected]
      change (do
        let found ← anyType value ((typeList declared).map Json.str)
        if found then valueParts fullmatch rec value schema location
        else pure [(location, Problem.type ((typeList declared).map Json.str))]) = .ok [] ↔ _
      rw [hb]
      cases b
      · exact iff_of_false (fun h => by cases h) (by simp)
      · simp only [true_and]
        rfl
    rw [Option.getD_some]
    split
    · exact absurd rfl hne
    · rw [hstep, hiff]
      simp [Question.Capability]

theorem lengthPart_eq_nil {name : String} {length : ℕ} {problem : Problem}
    (hname : name ∈ ["minItems", "maxItems", "minLength", "maxLength", "minProperties",
      "maxProperties", "minContains", "maxContains"]) (hschema : Checked search schema) :
    lengthPart schema name length location problem = .ok [] ↔
      ∀ least, schema.lookup (str name) = some least →
        Question.Capability fullmatch (.length length least) := by
  obtain ⟨least, hleast, hcount⟩ := SchemaValidator.least_count hschema hname
  have hget : (get schema name).getD (int 0) = .num least := hleast
  rw [lengthPart, hget]
  refine Iff.trans ?_ (hcount length)
  change expect (!(Number.int length).less least) location problem = .ok [] ↔ _
  rw [expect_eq_nil, Bool.not_eq_true']

include hschema in
theorem stringPart_eq_nil (text : Str)
    (hpattern : ∀ p, schema.lookup (str "pattern") = some (.str p) → FullyAnchored search fullmatch p) :
    stringPart fullmatch text schema location = .ok [] ↔
      AsksValue (Question.Capability fullmatch) schema (.str text) := by
  simp only [stringPart, report_eq_nil, List.forall_mem_cons, List.not_mem_nil, IsEmpty.forall_iff,
    implies_true, and_true]
  refine and_congr (lengthPart_eq_nil (by decide) hschema) ?_
  rw [get]
  cases hp : schema.lookup (str "pattern") with
  | none => exact iff_of_true rfl (by simp)
  | some v =>
    obtain ⟨p, found, rfl, -⟩ := hschema.pattern v hp
    obtain ⟨-, matched, -, hmatched, -⟩ := hpattern p hp
    rw [Option.getD_some]
    dsimp only
    rw [hmatched]
    simp only [expect_eq_nil, Question.Capability, Option.some.injEq, Json.str.injEq, forall_eq',
      hmatched]

include hschema in
theorem arrayPart_eq_nil {elements : List Value}
    (hbool : ∀ x ∈ elements, ∀ b location, rec x (.bool b) location ≠ .ok [])
    (hrec : ∀ x ∈ elements, ∀ child, schema.lookup (str "items") = some (.obj child) → ∀ location,
      rec x (.obj child) location = .ok [] ↔
        ∀ q, Asks x (.obj child) q → q.Capability fullmatch) :
    arrayPart rec elements schema location = .ok [] ↔
      AsksValue (Question.Capability fullmatch) schema (.arr elements) := by
  have hitems : (onKeyword schema "items" fun item =>
      if truthy item then
        report (elements.zipIdx.map fun x => rec x.1 item (location ++ [.index x.2]))
      else pure []) = .ok [] ↔
      (∀ b, schema.lookup (str "items") = some (.bool b) → elements ≠ [] →
        Question.Capability fullmatch (.item b)) ∧
        ∀ child, schema.lookup (str "items") = some (.obj child) →
          ∀ x ∈ elements, ∀ q, Asks x (.obj child) q → q.Capability fullmatch := by
    have hmap : ∀ item, report (elements.zipIdx.map fun x => rec x.1 item (location ++ [.index x.2]))
        = .ok [] ↔ ∀ x ∈ elements.zipIdx, rec x.1 item (location ++ [.index x.2]) = .ok [] := by
      simp only [report_eq_nil, List.forall_mem_map, implies_true]
    rw [onKeyword_eq_nil]
    constructor
    · refine fun h => ⟨fun b hb hne => ?_, fun child hchild x hx q hq => ?_⟩
      · have hbody := h _ hb
        cases b
        · rfl
        · obtain ⟨x, xs, rfl⟩ := List.exists_cons_of_ne_nil hne
          rw [truthy, if_pos rfl, hmap] at hbody
          exact absurd (hbody (x, 0) (by simp)) (hbool x List.mem_cons_self true _)
      · have hbody := h _ hchild
        cases hempty : child.isEmpty
        · rw [truthy, hempty, Bool.not_false, if_pos rfl, hmap] at hbody
          rw [← List.zipIdx_map_fst 0 elements] at hx
          obtain ⟨y, hy, rfl⟩ := List.mem_map.1 hx
          exact (hrec y.1 (List.fst_mem_of_mem_zipIdx hy) child hchild _).1 (hbody y hy) q hq
        · obtain rfl := List.isEmpty_iff.1 hempty
          exact absurd hq (not_asks_empty x q)
    · rintro ⟨hb, hobj⟩ item hitem
      obtain ⟨b, rfl⟩ | ⟨child, rfl⟩ :=
        SchemaValidator.accepted_cases search (hschema.value "items" (by decide) item hitem)
      · by_cases hne : elements = []
        · subst hne
          cases b <;> rfl
        · obtain rfl : b = false := hb b hitem hne
          rfl
      · split_ifs
        · rw [hmap]
          exact fun x hx => (hrec x.1 (List.fst_mem_of_mem_zipIdx hx) child hitem _).2
            (hobj child hitem x.1 (List.fst_mem_of_mem_zipIdx hx))
        · rfl
  simp only [arrayPart, report_eq_nil, List.forall_mem_cons, List.not_mem_nil, IsEmpty.forall_iff,
    implies_true, and_true]
  refine and_congr (lengthPart_eq_nil (by decide) hschema) (and_congr ?_ hitems)
  rw [expect_eq_nil, get]
  cases schema.lookup (str "uniqueItems") with
  | none => simp [truthy]
  | some set => cases htruthy : truthy set <;> simp [htruthy, Question.Capability]

include hschema in
theorem objectPart_eq_nil {members : Dict}
    (closed : ∀ v, schema.lookup (str "additionalProperties") = some v → v = .bool false)
    (hrec : ∀ m ∈ members, ∀ child, (propertiesOf schema).lookup m.1 = some child → ∀ location,
      rec m.2 child location = .ok [] ↔ ∀ q, Asks m.2 child q → q.Capability fullmatch) :
    objectPart rec members schema location = .ok [] ↔
      AsksValue (Question.Capability fullmatch) schema (.obj members) := by
  have hrequired : (do
      let required ← iterate ((get schema "required").getD (.arr []))
      report (required.map (missingPart members location))) = .ok [] ↔
      ∀ names : List Str, schema.lookup (str "required") = some (.arr (names.map Json.str)) →
        Question.Capability fullmatch (.required members names) := by
    have hnames : ∀ names : List Str, report ((names.map Json.str).map (missingPart members location))
        = .ok [] ↔ ∀ name ∈ names, name ∈ Json.names members := by
      simp [report_eq_nil, missingPart, expect_eq_nil]
    rw [get]
    cases hr : schema.lookup (str "required") with
    | none => exact iff_of_true rfl (by simp)
    | some v =>
      obtain ⟨names, rfl⟩ := isStringSet_spec (hschema.required v hr)
      refine (hnames names).trans ⟨fun h names' heq => ?_, fun h => h names rfl⟩
      rw [Option.some.injEq, Json.arr.injEq] at heq
      rw [← (List.map_injective_iff.2 fun _ _ h => Json.str.inj h) heq]
      exact h
  have hextras : (do
      let known ← keySet (.obj (propertiesOf schema))
      let extras := (Json.sortByName Layout.KeyLE members).filter fun m => m.1 ∉ known
      pure (extras.map fun m => (location, Problem.unexpected m.1)) : Report) = .ok [] ↔
      ∀ m ∈ members, m.1 ∈ Json.names (propertiesOf schema) := by
    simp only [keySet, bind_eq_ok, pure_eq_ok, exists_eq_left', List.map_eq_nil_iff,
      List.filter_eq_nil_iff, (Json.perm_sortByName Layout.KeyLE members).mem_iff, decide_eq_true_eq, not_not]
  have hget : (get schema "properties").getD (.obj []) = .obj (propertiesOf schema) :=
    SchemaValidator.keywordD_properties hschema
  simp only [objectPart, hget, report_eq_nil, List.forall_mem_cons, List.not_mem_nil,
    IsEmpty.forall_iff, implies_true, and_true]
  refine and_congr hrequired (and_congr ?_ (List.forall_mem_map.trans (forall₂_congr fun m hm => ?_)))
  · rw [get]
    cases hc : schema.lookup (str "additionalProperties") with
    | none => exact iff_of_true rfl (by simp)
    | some v =>
      obtain rfl := closed v hc
      simpa [Question.Capability] using hextras
  · have hproperty : propertyOf (.obj (propertiesOf schema)) m.1 =
        .ok ((propertiesOf schema).lookup m.1) := rfl
    rw [hproperty]
    cases hchild : (propertiesOf schema).lookup m.1 with
    | none => exact iff_of_true rfl (by simp)
    | some child =>
      have hchildIff := hrec m hm child hchild (location ++ [.field m.1])
      exact hchildIff.trans ⟨fun h c hc => Option.some.inj hc ▸ h, fun h => h child rfl⟩

include hschema in
theorem valueParts_eq_nil {value : Value} (hvalue : (match value with
      | .str text => stringPart fullmatch text schema location
      | .arr elements => arrayPart rec elements schema location
      | .obj members => objectPart rec members schema location
      | _ => pure [] : Report) = .ok [] ↔ AsksValue (Question.Capability fullmatch) schema value) :
    valueParts fullmatch rec value schema location = .ok [] ↔
      (∀ constant, schema.lookup (str "const") = some constant →
        Question.Capability fullmatch (.const value constant)) ∧
        (∀ values, schema.lookup (str "enum") = some (.arr values) →
          Question.Capability fullmatch (.enum value values)) ∧
        AsksValue (Question.Capability fullmatch) schema value := by
  have henum : (onKeyword schema "enum" fun values => do
      let found ← contains values value
      expect found location .enum) = .ok [] ↔
      ∀ values, schema.lookup (str "enum") = some (.arr values) →
        Question.Capability fullmatch (.enum value values) := by
    have hbody : ∀ values, (do
        let found ← contains (.arr values) value
        expect found location Problem.enum) = .ok [] ↔ values.any (same value) = true :=
      fun values => expect_eq_nil
    rw [onKeyword_eq_nil]
    constructor
    · exact fun h values hv => (hbody values).1 (h _ hv)
    · intro h v hv
      obtain ⟨values, rfl⟩ := hschema.enum v hv
      exact (hbody values).2 (h values hv)
  simp only [valueParts, report_eq_nil, List.forall_mem_cons, List.not_mem_nil, IsEmpty.forall_iff,
    implies_true, and_true]
  refine and_congr ?_ (and_congr henum hvalue)
  simp only [onKeyword_eq_nil, expect_eq_nil, Question.Capability]

/-- By the number of nested calls, as for the contract validator. -/
theorem validateSchema_eq_nil :
    ∀ {n limit : ℕ} {v c : Value} {location : Location}, limit ≤ n → Shared search fullmatch c →
      Within search limit c → (validateSchema fullmatch n v c location = .ok [] ↔
        ∀ q, Asks v c q → q.Capability fullmatch)
  | _, 0, _, _, _, _, _, ⟨_, h⟩ => absurd h (SchemaValidator.not_passes_raise _ _)
  | 0, _ + 1, _, _, _, hle, _, _ => absurd hle (by omega)
  | n + 1, _ + 1, v, .bool b, _, _, _, _ =>
    iff_of_false (fun h => by cases h) fun h => forall_asks_bool.1 h
  | n + 1, limit + 1, v, .obj schema, location, hle, hshared, hwithin => by
    obtain ⟨hitems, hproperties⟩ := SchemaValidator.within_children hwithin
    obtain ⟨hitems', hproperties'⟩ := SchemaValidator.shared_children hshared
    have hchecked := SchemaValidator.checked_of_accepted search ⟨_, hwithin⟩
    have hle : limit ≤ n := by omega
    cases hshared with
    | obj known closed pattern _ _ =>
      rw [validateSchema, validateDict_eq_nil hchecked, forall_asks, valueParts_eq_nil hchecked]
      cases v with
      | str text => exact stringPart_eq_nil hchecked text pattern
      | arr elements =>
        refine arrayPart_eq_nil hchecked (fun x _ b location h => ?_)
          fun x _ child hchild location =>
            validateSchema_eq_nil hle (hitems' _ hchild) (hitems _ hchild)
        cases n <;> cases h
      | obj members =>
        exact objectPart_eq_nil hchecked closed fun m _ child hchild location =>
          validateSchema_eq_nil hle (hproperties' _ child hchild) (hproperties _ child hchild)
      | _ => exact iff_of_true rfl trivial
  | _ + 1, _ + 1, _, .null, _, _, h, _ => by cases h
  | _ + 1, _ + 1, _, .num _, _, _, h, _ => by cases h
  | _ + 1, _ + 1, _, .str _, _, _, h, _ => by cases h
  | _ + 1, _ + 1, _, .arr _, _, _, h, _ => by cases h

end Gate

/-! ## Where the answers differ -/

section Differences

variable {search fullmatch : Str → Option (Str → Bool)}

/-- A number that is an infinity or nan. -/
def NotFinite (v : Value) : Prop := ∃ x, v = .num x ∧ x.isFinite = false

/-- A float without a fractional part. -/
def IntegralFloat (v : Value) : Prop :=
  v = .num (.float .negZero) ∨ ∃ x : Binary64, v = .num (.float (.finite x)) ∧ x.value.den = 1

/-- The gate alone takes the answer: for a number that is not finite, for values that Python calls
equal where one is a `bool` or not finite, for equal elements that are written differently, and for
elements under `false`. -/
def Question.Looser : Question → Prop
  | .type v names => NotFinite v ∧ str "number" ∈ names
  | .const v constant => equal v constant = true ∧ SchemaValidator.jsonEqual v constant = false
  | .enum v values => values.any (same v) = true ∧ values.any (SchemaValidator.jsonEqual v) = false
  | .unique xs => (xs.map encoded).Nodup ∧ SchemaValidator.distinctValues [] xs = false
  | .item b => b = false
  | _ => False

variable (search fullmatch) in
/-- The gate alone refuses the answer: for an integral float, for a text with a newline behind what the
pattern matches, for elements that are written the same and not equal, and for anything under
`true`. -/
def Question.Stricter : Question → Prop
  | .type v names => IntegralFloat v ∧ str "integer" ∈ names ∧ str "number" ∉ names
  | .pattern p s => ∃ found matched, search p = some found ∧ fullmatch p = some matched ∧
    found s = true ∧ matched s = false ∧ ∃ t : Str, s.codes = t.codes ++ [0x0A] ∧ matched t = true
  | .unique xs => ¬ (xs.map encoded).Nodup ∧ SchemaValidator.distinctValues [] xs = true
  | .item b | .schema b => b = true
  | _ => False

theorem Number.same_of_sameValue {x y : Number} (h : x.sameValue y = true) : x.same y = true := by
  have hequal : x.equal y = x.sameValue y := by
    unfold Number.equal
    split
    · cases h
    · rfl
  rw [Number.same, hequal, h, Bool.or_true]

/-- Values that are equal as JSON are equal to Python. -/
theorem same_of_jsonEqual (v : Value) : ∀ w, SchemaValidator.jsonEqual v w = true → same v w = true := by
  induction v using Json.induct with
  | null =>
    intro w h
    cases w <;> first | rfl | cases h
  | bool b =>
    intro w h
    cases w <;> first | cases h | skip
    rename_i c
    obtain rfl : b = c := by simpa [SchemaValidator.jsonEqual] using h
    simp [same, number?, Number.same_refl]
  | num x =>
    intro w h
    cases w <;> first | cases h | skip
    exact Number.same_of_sameValue h
  | str s =>
    intro w h
    cases w <;> first | cases h | skip
    exact h
  | arr xs ih =>
    intro w h
    cases w <;> first | cases h | skip
    rename_i ys
    rw [SchemaValidator.jsonEqual] at h
    rw [same]
    induction xs generalizing ys with
    | nil => cases ys <;> first | rfl | cases h
    | cons x xs ihxs =>
      cases ys with
      | nil => cases h
      | cons y ys =>
        rw [SchemaValidator.listEqual, Bool.and_eq_true] at h
        rw [sameList, ih x List.mem_cons_self y h.1,
          ihxs (fun z hz => ih z (List.mem_cons_of_mem _ hz)) ys h.2]
        rfl
  | obj ms ih =>
    intro w h
    cases w <;> first | cases h | skip
    rename_i ns
    rw [SchemaValidator.jsonEqual, Bool.and_eq_true] at h
    rw [same, h.1, Bool.true_and]
    replace h := h.2
    induction ms with
    | nil => rfl
    | cons m ms ihms =>
      obtain ⟨k, x⟩ := m
      rw [SchemaValidator.membersEqual, Bool.and_eq_true] at h
      obtain ⟨hx, hms⟩ := h
      rw [sameMembers, ihms (fun n hn => ih n (List.mem_cons_of_mem _ hn)) hms, Bool.and_true]
      cases hlookup : ns.lookup k with
      | none => simp [hlookup] at hx
      | some y =>
        rw [hlookup] at hx
        exact ih (k, x) List.mem_cons_self y hx

theorem equal_of_jsonEqual {v w : Value} (h : SchemaValidator.jsonEqual v w = true) :
    equal v w = true := by
  have hnan : isNan v = false := by
    cases v with
    | num x =>
      cases w <;> first | cases h | skip
      rcases x with n | y | _ | b | _ <;> first | rfl | cases h
    | _ => rfl
  rw [equal, hnan, same_of_jsonEqual v w h]
  rfl

theorem any_same_of_jsonEqual {v : Value} {values : List Value}
    (h : values.any (SchemaValidator.jsonEqual v) = true) : values.any (same v) = true := by
  obtain ⟨w, hw, hequal⟩ := List.any_eq_true.1 h
  exact List.any_eq_true.2 ⟨w, hw, same_of_jsonEqual v w hequal⟩

theorem matches_iff (v : Value) (name : Str) : jsonTypeMatches v (.str name) = .ok true ↔
    (name = str "object" ∧ ∃ ms, v = .obj ms) ∨ (name = str "array" ∧ ∃ xs, v = .arr xs) ∨
      (name = str "string" ∧ ∃ s, v = .str s) ∨ (name = str "integer" ∧ ∃ n, v = .num (.int n)) ∨
      (name = str "number" ∧ ∃ x, v = .num x) ∨ (name = str "boolean" ∧ ∃ b, v = .bool b) ∨
      (name = str "null" ∧ v = .null) := by
  simp only [jsonTypeMatches]
  split_ifs with h₁ h₂ h₃ h₄ h₅ h₆ h₇
  · subst h₁
    cases v <;> simp [pure_eq_ok]
  · subst h₂
    cases v <;> simp [pure_eq_ok]
  · subst h₃
    cases v <;> simp [pure_eq_ok]
  · subst h₄
    cases v with
    | num x => cases x <;> simp [pure_eq_ok]
    | _ => simp [pure_eq_ok]
  · subst h₅
    cases v <;> simp [pure_eq_ok]
  · subst h₆
    cases v <;> simp [pure_eq_ok]
  · subst h₇
    cases v <;> simp [pure_eq_ok]
  · simp [h₁, h₂, h₃, h₄, h₅, h₆, h₇]

/-- The type that the two read differently of a value, if it is a float. -/
theorem type_differs (v : Value) (name : Str) :
    (jsonTypeMatches v (.str name) = .ok true ↔ SchemaValidator.hasType v name = true) ∨
      (jsonTypeMatches v (.str name) = .ok true ↔ name = str "number") ∧
        (NotFinite v ∧ SchemaValidator.hasType v name = false ∨
        IntegralFloat v ∧
          (SchemaValidator.hasType v name = true ↔ name = str "number" ∨ name = str "integer")) := by
  rw [matches_iff]
  cases v with
  | num x =>
    rcases x with n | y | _ | b | _
    · exact .inl (by simp [SchemaValidator.hasType])
    · by_cases hden : y.value.den = 1
      · refine .inr ⟨by simp, .inr ⟨.inr ⟨y, rfl, hden⟩, by simp [SchemaValidator.hasType, hden]⟩⟩
      · exact .inl (by simp [SchemaValidator.hasType, hden])
    · exact .inr ⟨by simp, .inr ⟨.inl rfl, by simp [SchemaValidator.hasType]⟩⟩
    · exact .inr ⟨by simp, .inl ⟨⟨_, rfl, rfl⟩, rfl⟩⟩
    · exact .inr ⟨by simp, .inl ⟨⟨_, rfl, rfl⟩, rfl⟩⟩
  | _ => exact .inl (by simp [SchemaValidator.hasType])

theorem looser_type {v : Value} {names : List Str} : Question.Looser (.type v names) ↔
    Question.Capability fullmatch (.type v names) ∧ ¬ Question.Contract search (.type v names) := by
  constructor
  · rintro ⟨hv, hnumber⟩
    have hnone : ∀ name, SchemaValidator.hasType v name = false := by
      obtain ⟨x, rfl, hx⟩ := hv
      intro name
      rcases x with n | y | _ | b | _ <;> first | rfl | cases hx
    refine ⟨⟨_, hnumber, (matches_iff _ _).2 ?_⟩, ?_⟩
    · obtain ⟨x, rfl, -⟩ := hv
      simp
    · rintro ⟨name, -, hname⟩
      rw [hnone] at hname
      cases hname
  · rintro ⟨⟨name, hname, hmatch⟩, hnot⟩
    rcases type_differs v name with hsame | ⟨hnumber, hv⟩
    · exact absurd ⟨name, hname, hsame.1 hmatch⟩ hnot
    · obtain rfl := hnumber.1 hmatch
      rcases hv with ⟨hv, -⟩ | ⟨-, htype⟩
      · exact ⟨hv, hname⟩
      · exact absurd ⟨_, hname, htype.2 (.inl rfl)⟩ hnot

theorem stricter_type {v : Value} {names : List Str} :
    Question.Stricter search fullmatch (.type v names) ↔
      Question.Contract search (.type v names) ∧ ¬ Question.Capability fullmatch (.type v names) := by
  have hfloat : IntegralFloat v → ∀ name, (jsonTypeMatches v (.str name) = .ok true ↔
      name = str "number") ∧ (SchemaValidator.hasType v name = true ↔
        name = str "number" ∨ name = str "integer") := by
    rintro (rfl | ⟨y, rfl, hden⟩) name <;> rw [matches_iff]
    · simp [SchemaValidator.hasType]
    · simp [SchemaValidator.hasType, hden]
  constructor
  · rintro ⟨hv, hinteger, hnumber⟩
    refine ⟨⟨_, hinteger, ((hfloat hv _).2).2 (.inr rfl)⟩, ?_⟩
    rintro ⟨name, hname, hmatch⟩
    exact hnumber ((hfloat hv name).1.1 hmatch ▸ hname)
  · rintro ⟨⟨name, hname, htype⟩, hnot⟩
    rcases type_differs v name with hsame | ⟨hnumber, hv⟩
    · exact absurd ⟨name, hname, hsame.2 htype⟩ hnot
    · rcases hv with ⟨-, hnone⟩ | ⟨hv, hiff⟩
      · rw [hnone] at htype
        cases htype
      · rcases hiff.1 htype with rfl | rfl
        · exact absurd ⟨_, hname, hnumber.2 rfl⟩ hnot
        · exact ⟨hv, hname, fun h => hnot ⟨_, h, (hfloat hv _).1.2 rfl⟩⟩

/-- A pattern that a schema asks about is anchored. -/
theorem anchored_of_asks {v c : Value} {q : Question} (h : Asks v c q) (hc : Shared search fullmatch c) :
    ∀ p s, q = .pattern p s → FullyAnchored search fullmatch p := by
  induction h with
  | pattern s h =>
    rintro p _ heq
    obtain ⟨rfl, -⟩ := Question.pattern.inj heq
    cases hc with
    | obj _ _ pattern _ _ => exact pattern _ h
  | item _ h _ ih => exact ih ((SchemaValidator.shared_children hc).1 _ h)
  | property _ h _ ih => exact ih ((SchemaValidator.shared_children hc).2 _ _ h)
  | _ => nofun

theorem looser_iff {q : Question} (hq : ∀ p s, q = .pattern p s → FullyAnchored search fullmatch p) :
    q.Looser ↔ q.Capability fullmatch ∧ ¬ q.Contract search := by
  cases q with
  | type v names => exact looser_type
  | const v constant => simp [Question.Looser, Question.Capability, Question.Contract]
  | enum v values => simp only [Question.Looser, Question.Capability, Question.Contract, Bool.not_eq_true]
  | pattern p s =>
    obtain ⟨found, matched, hfound, hmatched, h⟩ := hq p s rfl
    simp only [Question.Looser, Question.Capability, Question.Contract, hfound, hmatched,
      Option.some.injEq, forall_eq', false_iff, not_and, not_not]
    rcases h with h | h
    · exact fun hs => h s ▸ hs
    · exact fun hs => (h s).2 (.inl hs)
  | unique xs => simp [Question.Looser, Question.Capability, Question.Contract]
  | item b => cases b <;> simp [Question.Looser, Question.Capability, Question.Contract]
  | length | required | closed =>
    simp only [Question.Looser, Question.Capability, Question.Contract, and_not_self]
  | schema b => simp [Question.Looser, Question.Capability]

theorem stricter_iff {q : Question} (hq : ∀ p s, q = .pattern p s → FullyAnchored search fullmatch p) :
    q.Stricter search fullmatch ↔ q.Contract search ∧ ¬ q.Capability fullmatch := by
  cases q with
  | type v names => exact stricter_type
  | const v constant =>
    simp only [Question.Stricter, Question.Capability, Question.Contract, false_iff, not_and, not_not]
    exact equal_of_jsonEqual
  | enum v values =>
    simp only [Question.Stricter, Question.Capability, Question.Contract, false_iff, not_and, not_not]
    exact any_same_of_jsonEqual
  | pattern p s =>
    obtain ⟨found, matched, hfound, hmatched, h⟩ := hq p s rfl
    simp only [Question.Stricter, Question.Capability, Question.Contract, hfound, hmatched,
      Option.some.injEq, exists_eq_left', forall_eq', exists_and_left, Bool.not_eq_true]
    refine and_congr_right fun hs => and_iff_left_of_imp fun hnot => ?_
    rcases h with h | h
    · rw [h s, hnot] at hs
      cases hs
    · rcases (h s).1 hs with hmatch | ht
      · rw [hnot] at hmatch
        cases hmatch
      · exact ht
  | unique xs =>
    simp only [Question.Stricter, Question.Capability, Question.Contract]
    exact and_comm
  | item b => cases b <;> simp [Question.Stricter, Question.Capability, Question.Contract]
  | length | required | closed =>
    simp only [Question.Stricter, Question.Capability, Question.Contract, and_not_self]
  | schema b => simp [Question.Stricter, Question.Capability, Question.Contract]

end Differences

/-! ## The two verdicts -/

section Verdicts

variable (search fullmatch : Str → Option (Str → Bool)) (byId : Documents) (limit : ℕ) (v c : Value)

/-- `validate_schema` returns no errors. -/
def GatePasses : Prop := validateSchema fullmatch (limit + 1) v c [] = .ok []

/-- `_validate_schema_definition` accepts the schema. -/
def DefinitionAccepted : Prop :=
  (SchemaValidator.validateSchemaDefinition search limit c [] ⟨false, false⟩).1 = .ok ()

/-- Where the two evaluators agree: they read no answer differently, or both refuse some answer. -/
def Alike : Prop :=
  (∀ q, Asks v c q → ¬ q.Looser ∧ ¬ q.Stricter search fullmatch) ∨
    (∃ q, Asks v c q ∧ ¬ q.Capability fullmatch ∧ ¬ q.Contract search) ∨
    (∃ q, Asks v c q ∧ q.Looser) ∧ ∃ q, Asks v c q ∧ q.Stricter search fullmatch

variable {search fullmatch byId limit v c}

theorem gatePasses_iff (hshared : Shared search fullmatch c)
    (haccepted : DefinitionAccepted search limit c) :
    GatePasses fullmatch limit v c ↔ ∀ q, Asks v c q → q.Capability fullmatch :=
  validateSchema_eq_nil (Nat.le_succ limit) hshared ⟨[], _, haccepted⟩

theorem not_raises_iff (hshared : Shared search fullmatch c)
    (haccepted : DefinitionAccepted search limit c) :
    ¬ SchemaValidator.Raises search byId limit v c ↔ ∀ q, Asks v c q → q.Contract search := by
  cases hshared with
  | bool b =>
    rw [forall_asks_bool]
    cases b
    · exact iff_of_false (fun h => h ⟨_, rfl⟩) (by simp [Question.Contract])
    · refine iff_of_true ?_ rfl
      rintro ⟨e, he⟩
      cases he
  | @obj schema known closed pattern items properties =>
    have hrun : SchemaValidator.DecidesAll search
        (SchemaValidator.validateAt search byId (limit + 1)) schema v (.obj schema) :=
      SchemaValidator.decidesAll_validateAt (Nat.le_succ limit)
        (.obj known closed pattern items properties) ⟨[], _, haccepted⟩
    have hbind := SchemaValidator.run_bind_ok
      (f := fun _ => SchemaValidator.validateAt search byId (limit + 1) v (.obj schema) schema [])
      haccepted
    obtain ⟨t, ht⟩ := hbind
    have houtcome : (SchemaValidator.outcome search byId limit v (.obj schema)).1 =
        (SchemaValidator.validateAt search byId (limit + 1) v (.obj schema) schema [] t).1 := by
      rw [← ht]
      rfl
    rw [SchemaValidator.Raises, houtcome]
    by_cases hall : ∀ q, Asks v (.obj schema) q → q.Contract search
    · refine iff_of_true ?_ hall
      rintro ⟨e, he⟩
      rw [(hrun []).passes hall t] at he
      cases he
    · exact iff_of_false (fun h => h ((hrun []).raises hall t)) hall

/-- The two evaluators agree on a value and a schema exactly where they read every answer alike, or
each of them finds an answer to refuse. -/
theorem evaluators_agree_iff (search fullmatch : Str → Option (Str → Bool)) (byId : Documents)
    (limit : ℕ) (v c : Value) (hshared : Shared search fullmatch c)
    (haccepted : DefinitionAccepted search limit c) :
    (GatePasses fullmatch limit v c ↔ ¬ SchemaValidator.Raises search byId limit v c) ↔
      Alike search fullmatch v c := by
  rw [gatePasses_iff hshared haccepted, not_raises_iff hshared haccepted]
  have hlooser := fun q (h : Asks v c q) => looser_iff (anchored_of_asks h hshared)
  have hstricter := fun q (h : Asks v c q) => stricter_iff (anchored_of_asks h hshared)
  constructor
  · intro hiff
    by_contra hnot
    obtain ⟨hdiffers, hboth, hapart⟩ : ¬ (∀ q, Asks v c q → ¬ q.Looser ∧ ¬ q.Stricter search fullmatch) ∧
        ¬ (∃ q, Asks v c q ∧ ¬ q.Capability fullmatch ∧ ¬ q.Contract search) ∧
        ¬ ((∃ q, Asks v c q ∧ q.Looser) ∧ ∃ q, Asks v c q ∧ q.Stricter search fullmatch) := by
      simpa only [Alike, not_or] using hnot
    -- An answer that one refuses is one that the other takes.
    have hlooserOf : ∀ q, Asks v c q → ¬ q.Contract search → q.Looser := fun q hq hcon =>
      (hlooser q hq).2 ⟨by_contra fun hcap => hboth ⟨q, hq, hcap, hcon⟩, hcon⟩
    have hstricterOf : ∀ q, Asks v c q → ¬ q.Capability fullmatch → q.Stricter search fullmatch :=
      fun q hq hcap => (hstricter q hq).2 ⟨by_contra fun hcon => hboth ⟨q, hq, hcap, hcon⟩, hcap⟩
    have hrefuses : (∃ q, Asks v c q ∧ ¬ q.Capability fullmatch) ∧ ∃ q, Asks v c q ∧ ¬ q.Contract search := by
      have hsame : (∃ q, Asks v c q ∧ ¬ q.Capability fullmatch) ↔
          ∃ q, Asks v c q ∧ ¬ q.Contract search := by
        simpa only [not_forall, exists_prop] using not_congr hiff
      simp only [not_forall, not_and_or, not_not] at hdiffers
      obtain ⟨q, hq, hl | hs⟩ := hdiffers
      · have hcon := ((hlooser q hq).1 hl).2
        exact ⟨hsame.2 ⟨q, hq, hcon⟩, q, hq, hcon⟩
      · have hcap := ((hstricter q hq).1 hs).2
        exact ⟨⟨q, hq, hcap⟩, hsame.1 ⟨q, hq, hcap⟩⟩
    obtain ⟨⟨q, hq, hcap⟩, q', hq', hcon⟩ := hrefuses
    exact hapart ⟨⟨q', hq', hlooserOf q' hq' hcon⟩, q, hq, hstricterOf q hq hcap⟩
  · rintro (halike | ⟨q, hq, hcap, hcon⟩ | ⟨⟨q, hq, hl⟩, q', hq', hs⟩)
    · refine forall₂_congr fun q hq => ⟨fun hcap => ?_, fun hcon => ?_⟩
      · exact by_contra fun hcon => (halike q hq).1 ((hlooser q hq).2 ⟨hcap, hcon⟩)
      · exact by_contra fun hcap => (halike q hq).2 ((hstricter q hq).2 ⟨hcon, hcap⟩)
    · exact iff_of_false (fun h => hcap (h q hq)) fun h => hcon (h q hq)
    · exact iff_of_false (fun h => ((hstricter q' hq').1 hs).2 (h q' hq'))
        fun h => ((hlooser q hq).1 hl).2 (h q hq)

/-- `^a$` under `re.search` and under `re.fullmatch`. -/
def searchLetter : Str → Option (Str → Bool) := fun _ => some fun s => s = str "a" || s = str "a\n"

def fullmatchLetter : Str → Option (Str → Bool) := fun _ => some fun s => s = str "a"

def letterSchema : Dict := [(str "type", .str (str "string")), (str "pattern", .str (str "^a$"))]

theorem fullyAnchored_letter (p : Str) : FullyAnchored searchLetter fullmatchLetter p := by
  refine ⟨_, _, rfl, rfl, .inr fun s => ?_⟩
  have hcodes : ∀ s t : Str, s.codes = t.codes → s = t := fun s t h => by
    rw [← ofCodes_codes s, h, ofCodes_codes]
  simp only [Bool.or_eq_true, decide_eq_true_eq]
  refine or_congr_right ⟨?_, ?_⟩
  · rintro rfl
    exact ⟨str "a", rfl, rfl⟩
  · rintro ⟨t, ht, rfl⟩
    exact hcodes _ _ ht

theorem evaluators_agree_letter :
    (GatePasses fullmatchLetter 1 (.str (str "a\n")) (.obj letterSchema) ↔
      ¬ SchemaValidator.Raises searchLetter [] 1 (.str (str "a\n")) (.obj letterSchema)) ↔
      Alike searchLetter fullmatchLetter (.str (str "a\n")) (.obj letterSchema) := by
  refine evaluators_agree_iff searchLetter fullmatchLetter [] 1 _ _ (.obj ?_ ?_ ?_ ?_ ?_) rfl
  · decide
  · intro v hv
    cases hv
  · exact fun p _ => fullyAnchored_letter p
  · intro v hv
    cases hv
  · intro ps hps
    cases hps

/-- `True == 1` in Python, so the gate takes `true` for the constant 1. -/
theorem not_evaluators_agree : ¬ ∀ (search fullmatch : Str → Option (Str → Bool)) (byId : Documents)
    (limit : ℕ) (v c : Value), Shared search fullmatch c → DefinitionAccepted search limit c →
      (GatePasses fullmatch limit v c ↔ ¬ SchemaValidator.Raises search byId limit v c) := by
  intro h
  have hagree := h (fun _ => none) (fun _ => none) [] 1 (.bool true) (.obj [(str "const", int 1)])
    (.obj (by decide) nofun nofun nofun nofun) rfl
  exact hagree.1 rfl ⟨_, rfl⟩

end Verdicts

end Capabilities.Schema
