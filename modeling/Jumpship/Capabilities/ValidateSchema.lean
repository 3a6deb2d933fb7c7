import Jumpship.Py.Equality
import Jumpship.Py.Json

/-!
# The schema subset of the capability contracts

`_json_type_matches` and `validate_schema`, over any JSON value in the place of a schema. `fullmatch`
is `re.fullmatch` with a pattern, none where it does not compile, and the number is that of the nested
calls the interpreter allows.
-/

namespace Capabilities.Schema

open Py

/-! ## Errors -/

inductive Segment where
  | field (name : Str)
  | index (n : ℕ)

/-- The location of an error below `$`. -/
abbrev Location := List Segment

inductive Problem where
  | type (expected : List Value)
  | const (constant : Value)
  | enum
  | minLength
  | pattern (pattern : Value)
  | minItems
  | unique
  | missing (required : Value)
  | unexpected (extra : Str)

inductive Exc where
  /-- `CapabilityError`: an unsupported schema type. -/
  | unsupportedType (expected : Value)
  | attribute
  | type
  | regex
  | recursion

abbrev Report := Except Exc (List (Location × Problem))

/-- The errors of one part after those of another. -/
def report : List Report → Report
  | [] => pure []
  | part :: parts => do
    let errors ← part
    let rest ← report parts
    pure (errors ++ rest)

/-- One error unless the test holds. -/
def expect (test : Bool) (location : Location) (problem : Problem) : Report :=
  pure (if test then [] else [(location, problem)])

/-! ## Parts -/

/-- `schema.get(name)` -/
def get (schema : Dict) (name : String) : Option Value := schema.lookup (str name)

/-- The errors of a keyword, where the schema has it. -/
def onKeyword (schema : Dict) (name : String) (body : Value → Report) : Report :=
  match get schema name with
  | some value => body value
  | none => pure []

/-- `_json_type_matches` -/
def jsonTypeMatches (value expected : Value) : Except Exc Bool :=
  match expected with
  | .str name =>
    if name = str "object" then pure (match value with | .obj _ => true | _ => false)
    else if name = str "array" then pure (match value with | .arr _ => true | _ => false)
    else if name = str "string" then pure (match value with | .str _ => true | _ => false)
    else if name = str "integer" then pure (match value with | .num (.int _) => true | _ => false)
    else if name = str "number" then pure (match value with | .num _ => true | _ => false)
    else if name = str "boolean" then pure (match value with | .bool _ => true | _ => false)
    else if name = str "null" then pure (match value with | .null => true | _ => false)
    else throw (.unsupportedType expected)
  | _ => throw (.unsupportedType expected)

def iterate (value : Value) : Except Exc (List Value) :=
  match items? value with
  | some xs => pure xs
  | none => throw .type

/-- `[expected] if isinstance(expected, str) else expected` -/
def expectedTypes : Value → Except Exc (List Value)
  | .str s => pure [.str s]
  | expected => iterate expected

/-- `any(_json_type_matches(value, item) for item in expected_types)` -/
def anyType (value : Value) : List Value → Except Exc Bool
  | [] => pure false
  | expected :: rest => do
    if ← jsonTypeMatches value expected then pure true else anyType value rest

/-- `element in container` -/
def contains (container element : Value) : Except Exc Bool :=
  match container with
  | .arr xs => pure (xs.any (same element))
  | .obj ms =>
    match element with
    | .str s => pure (decide (s ∈ Json.names ms))
    | _ => if hashable element then pure false else throw .type
  | .str s =>
    match element with
    | .str part => pure (part.hasInfix s)
    | _ => throw .type
  | _ => throw .type

/-- `length < least` fails to hold. -/
def atLeast (length : ℕ) (least : Value) : Except Exc Bool :=
  match number? least with
  | some bound => pure (!(Number.int length).less bound)
  | none => throw .type

/-- The errors of a length below the least that the keyword gives. -/
def lengthPart (schema : Dict) (name : String) (length : ℕ) (location : Location) (problem : Problem) :
    Report := do
  let holds ← atLeast length ((get schema name).getD (int 0))
  expect holds location problem

/-- `json.dumps(item, sort_keys=True, separators=(",", ":"))` -/
def encoded (item : Value) : String :=
  String.ofList (dumps ⟨none, [','], [':'], true⟩ item)

/-- `set(properties)` -/
def keySet (properties : Value) : Except Exc (List Str) :=
  match properties with
  | .obj ms => pure (Json.names ms)
  | .arr xs =>
    if xs.all hashable then
      pure (xs.filterMap fun x => match x with | .str s => some s | _ => none)
    else throw .type
  | .str s => pure (s.codes.map fun c => .ofCodes [c])
  | _ => throw .type

/-- `properties[key]` where `key in properties`. -/
def propertyOf (properties : Value) (key : Str) : Except Exc (Option Value) :=
  match properties with
  | .obj ms => pure (ms.lookup key)
  | .arr xs =>
    if xs.any (fun x => match x with | .str s => s = key | _ => false) then throw .type else pure none
  | .str s => if key.hasInfix s then throw .type else pure none
  | _ => throw .type

/-! ## validate_schema -/

section Validate

variable (fullmatch : Str → Option (Str → Bool))

/-- `validate_schema` at a location, of a value and a schema. -/
abbrev Validator := Value → Value → Location → Report

def stringPart (text : Str) (schema : Dict) (location : Location) : Report :=
  report [lengthPart schema "minLength" text.length location .minLength,
    match (get schema "pattern").getD .null with
    | .null => pure []
    | .str pattern =>
      match fullmatch pattern with
      | some matched => expect (matched text) location (.pattern (.str pattern))
      | none => throw .regex
    | _ => throw .type]

def arrayPart (rec : Validator) (elements : List Value) (schema : Dict) (location : Location) : Report :=
  report [lengthPart schema "minItems" elements.length location .minItems,
    expect (!truthy ((get schema "uniqueItems").getD .null) ||
      decide (elements.map encoded).Nodup) location .unique,
    onKeyword schema "items" fun item =>
      if truthy item then
        report (elements.zipIdx.map fun x => rec x.1 item (location ++ [.index x.2]))
      else pure []]

def missingPart (members : Dict) (location : Location) (required : Value) : Report :=
  match required with
  | .str name => expect (decide (name ∈ Json.names members)) location (.missing required)
  | _ => if hashable required then expect false location (.missing required) else throw .type

def objectPart (rec : Validator) (members schema : Dict) (location : Location) : Report :=
  let properties := (get schema "properties").getD (.obj [])
  report [
    (do
      let required ← iterate ((get schema "required").getD (.arr []))
      report (required.map (missingPart members location))),
    match get schema "additionalProperties" with
    | some (.bool false) => do
      let known ← keySet properties
      let extras := (Json.sortByName Layout.KeyLE members).filter fun m => m.1 ∉ known
      pure (extras.map fun m => (location, .unexpected m.1))
    | _ => pure [],
    report (members.map fun m => do
      match ← propertyOf properties m.1 with
      | some child => rec m.2 child (location ++ [.field m.1])
      | none => pure [])]

/-- What `validate_schema` goes on with under a schema object, its type matched. -/
def valueParts (rec : Validator) (value : Value) (schema : Dict) (location : Location) : Report :=
  report [
    onKeyword schema "const" fun constant => expect (equal value constant) location (.const constant),
    onKeyword schema "enum" fun values => do
      let found ← contains values value
      expect found location .enum,
    match value with
    | .str text => stringPart fullmatch text schema location
    | .arr elements => arrayPart rec elements schema location
    | .obj members => objectPart rec members schema location
    | _ => pure []]

def validateDict (rec : Validator) (value : Value) (schema : Dict) (location : Location) : Report :=
  match (get schema "type").getD .null with
  | .null => valueParts fullmatch rec value schema location
  | expected => do
    let types ← expectedTypes expected
    let found ← anyType value types
    if found then valueParts fullmatch rec value schema location
    else pure [(location, .type types)]

/-- `validate_schema`; only a `dict` has a `get`. -/
def validateSchema : ℕ → Value → Value → Location → Report
  | 0, _, _, _ => throw .recursion
  | limit + 1, value, .obj schema, location =>
    validateDict fullmatch (validateSchema limit) value schema location
  | _ + 1, _, _, _ => throw .attribute

end Validate

end Capabilities.Schema
