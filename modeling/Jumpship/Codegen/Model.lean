import Jumpship.Py.Value

/-!
# The shared schema builders

The builders of the contract generator's `model`. A keyword argument left at its default is a field
of the builder's options left at its default; a `dict` with literal keys is a list of them until it
is closed (`dict`).
-/

namespace Codegen

open Py

/-- A `dict` under construction, its keys as the source spells them. -/
abbrev Fields := List (String × Value)

def Fields.entries (fields : Fields) : Dict := fields.map fun f => (str f.1, f.2)

def dict (fields : Fields) : Value := .obj fields.entries

/-- `fields[key] = value` -/
def Fields.set : Fields → String → Value → Fields
  | [], key, value => [(key, value)]
  | (k, v) :: fields, key, value =>
    if k = key then (key, value) :: fields else (k, v) :: Fields.set fields key value

/-- `fields.update(others)` -/
def Fields.update (fields others : Fields) : Fields :=
  others.foldl (fun fields f => fields.set f.1 f.2) fields

def string (s : String) : Value := .str (str s)

def strings (ss : List String) : Value := .arr (ss.map string)

/-! ## Lookups -/

section Lookup

@[simp] theorem lookup_entries (fields : Fields) (key : String) :
    fields.entries.lookup (str key) = fields.lookup key := by
  induction fields with
  | nil => rfl
  | cons f fields ih =>
    unfold Fields.entries at ih ⊢
    rw [List.map_cons, Json.lookup_cons_eq, Json.lookup_cons_eq, ih]
    simp

@[simp] theorem lookup_set (fields : Fields) (key key' : String) (value : Value) :
    (fields.set key value).lookup key' = if key' = key then some value else fields.lookup key' := by
  induction fields with
  | nil => simp [Fields.set, Json.lookup_cons_eq]
  | cons f fields ih =>
    rw [Fields.set]
    by_cases hf : f.1 = key
    · rw [if_pos hf, Json.lookup_cons_eq, Json.lookup_cons_eq, hf]
      split_ifs <;> rfl
    · rw [if_neg hf, Json.lookup_cons_eq, Json.lookup_cons_eq, ih]
      by_cases h : key' = f.1
      · simp [h, hf]
      · simp [h]

theorem names_entries (fields : Fields) :
    Json.names fields.entries = fields.map fun f => str f.1 := by
  simp [Json.names, Fields.entries]

theorem names_set (fields : Fields) (key : String) (value : Value) {k : String}
    (h : k = key ∨ k ∈ fields.map Prod.fst) : k ∈ (fields.set key value).map Prod.fst := by
  induction fields with
  | nil => simpa [Fields.set] using h
  | cons f fields ih =>
    rw [Fields.set]
    by_cases hf : f.1 = key
    · simp only [hf, if_true, List.map_cons, List.mem_cons] at h ⊢
      tauto
    · simp only [hf, if_false, List.map_cons, List.mem_cons] at h ⊢
      tauto

end Lookup

/-! ## Builders -/

def schemaDialect : String := "https://json-schema.org/draft/2020-12/schema"
def contractBase : String := "https://jumpship.dev/contracts/"
def generator : String := "internal/contracts/codegen/generate.py"
def schemaVersion : String := "1.0.0"

def dataClasses : List String :=
  ["public", "internal_operational", "identity_tenant", "shared_migration", "restricted_customer",
    "credential_secret", "security_material"]

def hashPattern : String := "^[0-9a-f]\x7b64\x7d$"
def uuidPattern : String :=
  "^[0-9a-f]\x7b8\x7d-[0-9a-f]\x7b4\x7d-7[0-9a-f]\x7b3\x7d-[89ab][0-9a-f]\x7b3\x7d-[0-9a-f]\x7b12\x7d$"
def rfc3339Pattern : String :=
  "^[0-9]\x7b4\x7d-[0-9]\x7b2\x7d-[0-9]\x7b2\x7dT[0-9]\x7b2\x7d:[0-9]\x7b2\x7d:[0-9]\x7b2\x7d(?:\\.[0-9]\x7b1,9\x7d)?Z$"

/-- A keyword of a builder's result, where its argument is given. -/
def optional (key : String) (value : Option Value) : Fields :=
  (value.map fun v => (key, v)).toList

structure StringOptions where
  enum : Option (List String) := none
  const : Option String := none
  pattern : Option String := none
  fmt : Option String := none
  minLength : Option ℕ := none
  maxLength : Option ℕ := none
  description : Option String := none

def sString (o : StringOptions) : Value :=
  dict (("type", string "string") :: (optional "enum" (o.enum.map strings) ++
    optional "const" (o.const.map string) ++ optional "pattern" (o.pattern.map string) ++
    optional "format" (o.fmt.map string) ++ optional "minLength" (o.minLength.map fun n => int n) ++
    optional "maxLength" (o.maxLength.map fun n => int n) ++
    optional "description" (o.description.map string)))

/-- `s_integer` of a minimum and a maximum. -/
def sInteger (minimum maximum : Option ℤ) : Value :=
  dict (("type", string "integer") :: (optional "minimum" (minimum.map int) ++
    optional "maximum" (maximum.map int)))

def sBoolean : Value := dict [("type", string "boolean")]

structure ArrayOptions where
  minItems : ℕ := 0
  maxItems : ℕ := 256
  unique : Bool := false

def sArray (items : Value) (o : ArrayOptions) : Value :=
  dict ([("type", string "array"), ("items", items), ("minItems", int o.minItems),
    ("maxItems", int o.maxItems)] ++ if o.unique then [("uniqueItems", .bool true)] else [])

def nullable (value : Value) : Value :=
  dict [("anyOf", .arr [value, dict [("type", string "null")]])]

def hashField : Value := sString { pattern := some hashPattern }

def timestampField : Value :=
  sString { pattern := some rfc3339Pattern, fmt := some "date-time" }

inductive BuildError where
  | path (path : String)
  | dataClass (name : String)
  | flowIds (path : String) (ids : List String)
deriving DecidableEq

/-- `F(?:0[1-9]|1[0-9]|2[0-8])`, of the whole text. -/
def isFlowId (id : String) : Bool :=
  match id.toList with
  | ['F', a, b] =>
    (a = '0' && '1' ≤ b && b ≤ '9') || (a = '1' && '0' ≤ b && b ≤ '9') ||
      (a = '2' && '0' ≤ b && b ≤ '8')
  | _ => false

structure SchemaOptions where
  dataClass : String
  maxBytes : ℕ
  flowIds : List String
  description : String
  allOf : List Value := []
  definitions : Fields := []
  schemaVersion : String := Codegen.schemaVersion

/-- The document `schema` builds once its arguments pass. -/
def document (path title : String) (properties : Fields) (required : List String)
    (o : SchemaOptions) : Fields :=
  [("$schema", string schemaDialect),
    ("$id", string (contractBase ++ path)),
    ("title", string title),
    ("description", string o.description),
    ("type", string "object"),
    ("additionalProperties", .bool false),
    ("required", strings ("schema_version" :: required)),
    ("properties", dict (Fields.update
      [("schema_version", dict [("const", string o.schemaVersion)])] properties)),
    ("x-generated-by", string generator),
    ("x-jumpship-data-class", string o.dataClass),
    ("x-jumpship-flow-ids", strings o.flowIds),
    ("x-jumpship-max-bytes", int o.maxBytes),
    ("x-jumpship-compatibility", string "additive-with-versioned-breaking-change")] ++
  (if o.allOf.isEmpty then [] else [("allOf", .arr o.allOf)]) ++
  if o.definitions.isEmpty then [] else [("$defs", dict o.definitions)]

def schema (path title : String) (properties : Fields) (required : List String)
    (o : SchemaOptions) : Except BuildError Fields :=
  if !(".schema.json".toList.isSuffixOf path.toList) then .error (.path path)
  else if o.dataClass ∉ dataClasses then .error (.dataClass o.dataClass)
  else if o.flowIds = [] ∨ ¬ o.flowIds.all isFlowId then .error (.flowIds path o.flowIds)
  else .ok (document path title properties required o)

def commonIdentityProperties : Fields :=
  [("workspace_id", sString { pattern := some uuidPattern }),
    ("migration_id", sString { pattern := some uuidPattern }),
    ("cell_id", sString { pattern := some uuidPattern }),
    ("cell_generation", sInteger (some 1) none),
    ("causation_id", sString { pattern := some uuidPattern }),
    ("correlation_id", sString { pattern := some uuidPattern })]

end Codegen
