import Jumpship.Py.Value

/-!
# The contract schema validator

`validate` of the contract tests, over any JSON value in the place of a schema: a reference may lead
to one that was never checked. `re` is Python's regular expression engine, none where a pattern does
not compile, and the recursion limit is the number of nested calls the interpreter allows.

`Trace` is no part of the source. It records the references that did not resolve and whether `_valid`
turned one into an answer; nothing reads it.
-/

namespace SchemaValidator

open Py

/-! ## Errors -/

inductive Segment where
  | field (name : Str)
  | name
  | index (n : ℕ)
  | item
  | keyword (name : String)
deriving DecidableEq

/-- The path of an error, outermost segment first. -/
abbrev Path := List Segment

inductive Reason where
  | falseSchema
  | noAnyOf
  | oneOf (count : ℕ)
  | forbidden
  | const
  | enum
  | stringLength
  | pattern
  | type
  | missing (fields : List Value)
  | propertyCount
  | unknownProperty (key : Str)
  | requires (key : Str) (fields : List Value)
  | arrayLength
  | duplicateItem
  | containsCount
  | numberRange
  | exclusiveMinimum
  | exclusiveMaximum
  | multiple
  | notSchema
  | unsupportedKeywords (keys : List Str)
  | expectedString
  | typeDeclaration
  | expectedArray
  | expectedUnique
  | expectedCount
  | exceeds (minimum maximum : String)
  | expectedNumber
  | expectedPositive
  | invalidPattern
  | expectedBoolean
  | expectedObject
  | expectedSchemas

/-- Why a reference did not resolve. -/
inductive Failure where
  | unknownDocument
  | unsupportedFragment
  | key
  | subscript
  | notSchema
deriving DecidableEq

inductive Exc where
  | validation (path : Path) (reason : Reason)
  | reference (text : Str) (failure : Failure)
  | type
  | attribute
  | value
  | overflow
  | zeroDivision
  | regex
  | recursion

/-- The exceptions `_valid` catches: `ValidationError`, `KeyError` and `TypeError`. -/
def Exc.caught : Exc → Bool
  | .validation _ _ | .reference _ _ | .type => true
  | _ => false

def Exc.isReference : Exc → Bool
  | .reference _ _ => true
  | _ => false

structure Trace where
  unresolved : Bool
  swallowed : Bool

/-! ## Evaluation -/

def Eval (α : Type) := Trace → Except Exc α × Trace

namespace Eval

variable {α β : Type}

instance : Monad Eval where
  pure a := fun t => (.ok a, t)
  bind m f := fun t =>
    match m t with
    | (.ok a, t) => f a t
    | (.error e, t) => (.error e, t)

theorem bind_of_ok {m : Eval α} {t t' : Trace} {a : α} (h : m t = (.ok a, t')) (f : α → Eval β) :
    (m >>= f) t = f a t' := by
  show (match m t with
    | (.ok a, t) => f a t
    | (.error e, t) => (.error e, t)) = f a t'
  rw [h]

theorem bind_of_error {m : Eval α} {t t' : Trace} {e : Exc} (h : m t = (.error e, t'))
    (f : α → Eval β) : (m >>= f) t = (.error e, t') := by
  show (match m t with
    | (.ok a, t) => f a t
    | (.error e, t) => (.error e, t)) = (.error e, t')
  rw [h]

def raise (e : Exc) : Eval α := fun t => (.error e, t)

def fail (path : Path) (reason : Reason) : Eval α := raise (.validation path reason)

/-- Fails unless the test holds. -/
def require (test : Bool) (path : Path) (reason : Reason) : Eval Unit :=
  if test then pure () else fail path reason

def forEach (body : α → Eval Unit) : List α → Eval Unit
  | [] => pure ()
  | x :: xs => do
    body x
    forEach body xs

/-- `any(test(x) for x in xs)` -/
def anyOf (test : α → Eval Bool) : List α → Eval Bool
  | [] => pure false
  | x :: xs => do
    if ← test x then pure true else anyOf test xs

/-- `sum(test(x) for x in xs)` -/
def count (test : α → Eval Bool) : List α → Eval ℕ
  | [] => pure 0
  | x :: xs => do
    let b ← test x
    let n ← count test xs
    pure (b.toNat + n)

def filterMap (f : α → Eval (Option β)) : List α → Eval (List β)
  | [] => pure []
  | x :: xs => do
    let y ← f x
    let ys ← filterMap f xs
    pure (y.toList ++ ys)

/-- `_valid` -/
def valid (run : Eval Unit) : Eval Bool := fun t =>
  match run t with
  | (.ok (), t) => (.ok true, t)
  | (.error e, t) =>
    if e.caught then (.ok false, { t with swallowed := t.swallowed || e.isReference })
    else (.error e, t)

theorem valid_of_ok {run : Eval Unit} {t t' : Trace} (h : run t = (.ok (), t')) :
    valid run t = (.ok true, t') := by
  rw [valid, h]

theorem valid_of_error {run : Eval Unit} {t t' : Trace} {e : Exc} (h : run t = (.error e, t')) :
    valid run t =
      if e.caught then (.ok false, { t' with swallowed := t'.swallowed || e.isReference })
      else (.error e, t') := by
  rw [valid, h]

end Eval

open Eval

def iterate (value : Value) : Eval (List Value) :=
  match items? value with
  | some xs => pure xs
  | none => raise .type

/-- `left < right`, for a left operand that is a number. -/
def below (left : Number) (right : Value) : Eval Bool :=
  match number? right with
  | some r => pure (left.less r)
  | none => raise .type

/-- `left > right`, for a left operand that is a number. -/
def above (left : Number) (right : Value) : Eval Bool :=
  match number? right with
  | some r => pure (r.less left)
  | none => raise .type

/-- The keyword's value, where the schema has it. -/
def keyword (schema : Dict) (name : String) : Option Value := schema.lookup (str name)

def keywordD (schema : Dict) (name : String) (default : Value) : Value :=
  (keyword schema name).getD default

/-- The part of a check that runs if the schema has the keyword. -/
def onKeyword (schema : Dict) (name : String) (body : Value → Eval Unit) : Eval Unit :=
  match keyword schema name with
  | some value => body value
  | none => pure ()

def infinity (negative : Bool) : Value := .num (.float (.inf negative))

/-- A length or count against its two bounds. -/
def outOfRange (n : Number) (schema : Dict) (minimum maximum : String) (least : Value) : Eval Bool := do
  if ← below n (keywordD schema minimum least) then pure true
  else above n (keywordD schema maximum (infinity false))

/-! ## Equality and types -/

mutual
/-- `_json_equal` -/
def jsonEqual : Value → Value → Bool
  | .null, .null => true
  | .bool b, .bool c => b = c
  | .num x, .num y => x.sameValue y
  | .str s, .str t => s = t
  | .arr xs, .arr ys => listEqual xs ys
  | .obj ms, .obj ns => ms.length = ns.length && membersEqual ms ns
  | _, _ => false
def listEqual : List Value → List Value → Bool
  | [], [] => true
  | x :: xs, y :: ys => jsonEqual x y && listEqual xs ys
  | _, _ => false
/-- Each member of the left object is in the right one, with an equal value. -/
def membersEqual : Dict → Dict → Bool
  | [], _ => true
  | (k, x) :: ms, ns =>
    (match ns.lookup k with
      | some y => jsonEqual x y
      | none => false) && membersEqual ms ns
end

/-- One entry of `checks`, false where there is none of this name. -/
def hasType (value : Value) (name : Str) : Bool :=
  match value with
  | .null => name = str "null"
  | .bool _ => name = str "boolean"
  | .num (.int _) => name = str "integer" || name = str "number"
  | .num (.float (.finite x)) => name = str "number" || (name = str "integer" && x.value.den = 1)
  | .num (.float .negZero) => name = str "number" || name = str "integer"
  | .num (.float _) => false
  | .str _ => name = str "string"
  | .arr _ => name = str "array"
  | .obj _ => name = str "object"

/-- The types `type` lists. -/
def typeNames : Value → Eval (List Value)
  | .str s => pure [.str s]
  | expected => iterate expected

/-- `checks.get(name, False)` -/
def checkType (value : Value) : Value → Eval Bool
  | .str s => pure (hasType value s)
  | name => if hashable name then pure false else raise .type

/-- `_validate_type` -/
def validateType (value expected : Value) (path : Path) : Eval Unit := do
  let names ← typeNames expected
  let found ← anyOf (checkType value) names
  require found path .type

/-! ## Numbers -/

def toFloat : Number → Eval Double
  | .float x => pure x.unsigned
  | .int n =>
    match Binary64.nearest n with
    | some x => pure (.finite x)
    | none => raise .overflow

/-- The quotient of two doubles, the divisor not zero. -/
def divide : Double → Double → Double
  | .finite x, .finite y =>
    match Binary64.nearest (x.value / y.value) with
    | some z => .finite z
    | none => .inf (x.value / y.value < 0)
  | .inf negative, .finite y => .inf (negative != decide (y.value < 0))
  | .finite _, .inf _ => .finite 0
  | _, _ => .nan

/-- `left / right` -/
def trueDiv (left right : Number) : Eval Double :=
  match left, right with
  | .int m, .int n =>
    if n = 0 then raise .zeroDivision
    else
      match Binary64.nearest ((m : ℚ) / n) with
      | some x => pure (.finite x)
      | none => raise .overflow
  | _, _ => do
    let x ← toFloat left
    let y ← toFloat right
    if y = .finite 0 then raise .zeroDivision else pure (divide x y)

/-- `round(x)` -/
def round : Double → Eval ℤ
  | .finite x => pure (Binary64.roundHalfEven x.value)
  | .negZero => pure 0
  | .inf _ => raise .overflow
  | .nan => raise .value

/-- `math.isclose(x, n)` at its default tolerances. -/
def isClose (x : Double) (n : ℤ) : Bool :=
  match x with
  | .finite x =>
    let rel := Binary64.roundMagnitude (1 / 10 ^ 9)
    let diff := Binary64.roundMagnitude |(n : ℚ) - x.value|
    x.value = n || diff ≤ Binary64.roundMagnitude (rel * |(n : ℚ)|) ||
      diff ≤ Binary64.roundMagnitude (rel * |x.value|)
  | _ => false

/-- `_validate_number` -/
def validateNumber (x : Number) (schema : Dict) (path : Path) : Eval Unit := do
  let out ← outOfRange x schema "minimum" "maximum" (infinity true)
  require (!out) path .numberRange
  onKeyword schema "exclusiveMinimum" fun bound =>
    match number? bound with
    | some b => require (!x.atMost b) path .exclusiveMinimum
    | none => raise .type
  onKeyword schema "exclusiveMaximum" fun bound =>
    match number? bound with
    | some b => require (!b.atMost x) path .exclusiveMaximum
    | none => raise .type
  onKeyword schema "multipleOf" fun divisor =>
    match number? divisor with
    | none => raise .type
    | some d => do
      let q ← trueDiv x d
      let n ← round q
      require (isClose q n) path .multiple

/-! ## The schema definition -/

def assertionKeywords : List String :=
  ["$ref", "type", "const", "enum", "required", "properties", "additionalProperties",
    "patternProperties", "propertyNames", "minProperties", "maxProperties", "items", "prefixItems",
    "minItems", "maxItems", "uniqueItems", "contains", "minContains", "maxContains", "minimum",
    "maximum", "exclusiveMinimum", "exclusiveMaximum", "multipleOf", "minLength", "maxLength",
    "pattern", "allOf", "anyOf", "oneOf", "not", "if", "then", "else", "dependentRequired"]

def annotationKeywords : List String :=
  ["$comment", "$id", "$schema", "$defs", "title", "description", "default", "examples",
    "deprecated", "readOnly", "writeOnly", "format", "contentEncoding", "contentMediaType"]

def schemaMapKeywords : List String := ["$defs", "properties", "patternProperties"]

def schemaListKeywords : List String := ["allOf", "anyOf", "oneOf", "prefixItems"]

def schemaValueKeywords : List String :=
  ["additionalProperties", "contains", "else", "if", "items", "not", "propertyNames", "then"]

def supported (key : Str) : Bool :=
  key ∈ (assertionKeywords ++ annotationKeywords).map str || (str "x-").startsWith key

def strings? : List Value → Option (List Str)
  | [] => some []
  | .str s :: xs => (strings? xs).map (s :: ·)
  | _ :: _ => none

/-- An array of distinct strings. -/
def isStringSet (value : Value) : Bool :=
  match value with
  | .arr xs =>
    match strings? xs with
    | some names => names.Nodup
    | none => false
  | _ => false

def jsonTypes : List String :=
  ["array", "boolean", "integer", "null", "number", "object", "string"]

def isTypeDeclaration (declared : Value) : Bool :=
  match declared with
  | .str s => s ∈ jsonTypes.map str
  | .arr xs =>
    match strings? xs with
    | some names => names ≠ [] && names.Nodup && names.all (· ∈ jsonTypes.map str)
    | none => false
  | _ => false

def isCount : Value → Bool
  | .num (.int n) => 0 ≤ n
  | _ => false

def isFiniteNumber : Value → Bool
  | .num x => x.isFinite
  | _ => false

/-- No value of the list equals one of `prior` or an earlier one. -/
def distinctValues (prior : List Value) : List Value → Bool
  | [] => true
  | x :: xs => !prior.any (jsonEqual x) && distinctValues (prior ++ [x]) xs

section Definition

variable (re : Str → Option (Str → Bool))

def checkKeyword (schema : Dict) (path : Path) (test : Value → Bool) (reason : Reason)
    (name : String) : Eval Unit :=
  onKeyword schema name fun value => require (test value) (path ++ [.keyword name]) reason

def checkBounds (schema : Dict) (path : Path) (bounds : String × String) : Eval Unit :=
  onKeyword schema bounds.1 fun low => onKeyword schema bounds.2 fun high =>
    match number? low, number? high with
    | some l, some h => require (!h.less l) path (.exceeds bounds.1 bounds.2)
    | _, _ => raise .type

/-- The checks of one schema object, `rec` being the call on a schema inside it. A Python set is gone
through in some order; which error comes first is all that depends on it. -/
def checkDict (rec : Value → Path → Eval Unit) (schema : Dict) (path : Path) : Eval Unit := do
  let unknown := (Json.names schema).filter fun key => !supported key
  require (unknown = []) path (.unsupportedKeywords unknown)
  checkKeyword schema path (fun v => match v with | .str _ => true | _ => false) .expectedString "$ref"
  checkKeyword schema path isTypeDeclaration .typeDeclaration "type"
  onKeyword schema "enum" fun values =>
    match values with
    | .arr xs => do
      require (!xs.isEmpty) (path ++ [.keyword "enum"]) .expectedArray
      require (distinctValues [] xs) (path ++ [.keyword "enum"]) .expectedUnique
    | _ => fail (path ++ [.keyword "enum"]) .expectedArray
  checkKeyword schema path isStringSet .expectedUnique "required"
  forEach (checkKeyword schema path isCount .expectedCount)
    ["minItems", "maxItems", "minLength", "maxLength", "minProperties", "maxProperties",
      "minContains", "maxContains"]
  forEach (checkBounds schema path)
    [("minItems", "maxItems"), ("minLength", "maxLength"), ("minProperties", "maxProperties"),
      ("minContains", "maxContains")]
  forEach (checkKeyword schema path isFiniteNumber .expectedNumber)
    ["minimum", "maximum", "exclusiveMinimum", "exclusiveMaximum", "multipleOf"]
  checkKeyword schema path
    (fun v => match number? v with | some x => (Number.int 0).less x | none => false)
    .expectedPositive "multipleOf"
  onKeyword schema "pattern" fun pattern =>
    match pattern with
    | .str p => require (re p).isSome (path ++ [.keyword "pattern"]) .invalidPattern
    | _ => fail (path ++ [.keyword "pattern"]) .expectedString
  checkKeyword schema path (fun v => match v with | .bool _ => true | _ => false) .expectedBoolean
    "uniqueItems"
  forEach (fun name => onKeyword schema name fun children =>
    match children with
    | .obj ms => forEach (fun m => rec m.2 (path ++ [.keyword name, .field m.1])) ms
    | _ => fail (path ++ [.keyword name]) .expectedObject) schemaMapKeywords
  forEach (fun name => onKeyword schema name fun children =>
    match children with
    | .arr xs => do
      require (!xs.isEmpty) (path ++ [.keyword name]) .expectedSchemas
      forEach (fun x => rec x.1 (path ++ [.keyword name, .index x.2])) xs.zipIdx
    | _ => fail (path ++ [.keyword name]) .expectedSchemas) schemaListKeywords
  forEach (fun name => onKeyword schema name fun child => rec child (path ++ [.keyword name]))
    schemaValueKeywords
  onKeyword schema "dependentRequired" fun dependencies =>
    match dependencies with
    | .obj ms =>
      require (ms.all fun m => isStringSet m.2) (path ++ [.keyword "dependentRequired"])
        .expectedUnique
    | _ => fail (path ++ [.keyword "dependentRequired"]) .expectedUnique

/-- `_validate_schema_definition` -/
def validateSchemaDefinition : ℕ → Value → Path → Eval Unit
  | 0, _, _ => raise .recursion
  | _ + 1, .bool _, _ => pure ()
  | limit + 1, .obj schema, path => checkDict re (validateSchemaDefinition limit) schema path
  | _ + 1, _, path => fail path .notSchema

end Definition

/-! ## References -/

/-- A pair of code points replaced by one, left to right. -/
def replacePair (a b c : ℕ) : List ℕ → List ℕ
  | x :: y :: s => if x = a ∧ y = b then c :: replacePair a b c s else x :: replacePair a b c (y :: s)
  | s => s

/-- The tokens of a JSON pointer after its first slash. -/
def pointerTokens (pointer : List ℕ) : List Str :=
  (pointer.splitOn 0x2F).map fun token =>
    .ofCodes (replacePair 0x7E 0x30 0x7E (replacePair 0x7E 0x31 0x2F token))

def follow : Value → List Str → Except Failure Value
  | current, [] => .ok current
  | .obj ms, token :: tokens =>
    match ms.lookup token with
    | some child => follow child tokens
    | none => .error .key
  | _, _ :: _ => .error .subscript

/-- The value a fragment of the document names. -/
def resolveFragment (document : Dict) (fragment : List ℕ) : Except Failure Value :=
  match fragment with
  | [] => .ok (.obj document)
  | 0x2F :: pointer =>
    match follow (.obj document) (pointerTokens pointer) with
    | .error failure => .error failure
    | .ok (.obj ms) => .ok (.obj ms)
    | .ok (.bool b) => .ok (.bool b)
    | .ok _ => .error .notSchema
  | _ => .error .unsupportedFragment

/-- The documents `Registry` holds, by identifier. -/
abbrev Documents := List (Str × Dict)

/-- `Registry.resolve`, and the root that references inside the answer start from. -/
def resolve (byId : Documents) (reference : Str) (root : Dict) : Except Failure (Value × Dict) :=
  match reference.codes with
  | 0x23 :: fragment => (resolveFragment root fragment).map fun v => (v, root)
  | _ =>
    let (base, _, fragment) := partition 0x23 reference.codes
    match byId.lookup (.ofCodes base) with
    | none => .error .unknownDocument
    | some document => (resolveFragment document fragment).map fun v => (v, document)

def evalReference (byId : Documents) (reference : Value) (root : Dict) : Eval (Value × Dict) :=
  match reference with
  | .str text =>
    match resolve byId text root with
    | .ok resolved => pure resolved
    | .error failure => fun t => (.error (.reference text failure), { t with unresolved := true })
  | _ => raise .attribute

/-! ## validate -/

/-- `validate` of an instance, a schema and a root, at a path. -/
abbrev Validator := Value → Value → Dict → Path → Eval Unit

section Validate

variable (re : Str → Option (Str → Bool)) (byId : Documents)

def search (pattern : Value) (text : Str) : Eval Bool :=
  match pattern with
  | .str p =>
    match re p with
    | some found => pure (found text)
    | none => raise .regex
  | _ => raise .type

/-- The elements of `fields` that are no member of the instance. -/
def missingFields (members : Dict) (fields : List Value) : Eval (List Value) :=
  filterMap (fun field =>
    match field with
    | .str name => pure (if name ∈ Json.names members then none else some field)
    | _ => if hashable field then pure (some field) else raise .type) fields

/-- `properties[key]` where `key in properties`. -/
def ownProperty (properties : Value) (key : Str) : Eval (List Value) :=
  match properties with
  | .obj ms => pure (ms.lookup key).toList
  | .str s => if key.hasInfix s then raise .type else pure []
  | .arr xs => if xs.any (fun x => match x with | .str s => s = key | _ => false) then raise .type
      else pure []
  | _ => raise .type

/-- The subschemas of `patternProperties` whose pattern is found in the key. -/
def patternMatches (patterns : Value) (key : Str) : Eval (List Value) :=
  match patterns with
  | .obj ms => filterMap (fun m => do
      if ← search re (.str m.1) key then pure (some m.2) else pure none) ms
  | _ => raise .attribute

/-- The subschemas a member is held to. -/
def memberSchemas (schema : Dict) (key : Str) (path : Path) : Eval (List Value) := do
  let own ← ownProperty (keywordD schema "properties" (.obj [])) key
  let matched ← patternMatches re (keywordD schema "patternProperties" (.obj [])) key
  if !(own ++ matched).isEmpty then pure (own ++ matched)
  else
    match keywordD schema "additionalProperties" (.bool true) with
    | .bool false => fail path (.unknownProperty key)
    | .obj ms => pure [.obj ms]
    | _ => pure []

/-- `_validate_object` -/
def validateObject (rec : Validator) (members : Dict) (schema root : Dict) (path : Path) :
    Eval Unit := do
  let missing ← missingFields members (← iterate (keywordD schema "required" (.arr [])))
  require missing.isEmpty path (.missing missing)
  let out ← outOfRange (.int members.length) schema "minProperties" "maxProperties" (int 0)
  require (!out) path .propertyCount
  forEach (fun m => do
    let children ← memberSchemas re schema m.1 path
    forEach (fun child => rec m.2 child root (path ++ [.field m.1])) children) members
  onKeyword schema "propertyNames" fun child =>
    forEach (fun m => rec (.str m.1) child root (path ++ [.name])) members
  match keywordD schema "dependentRequired" (.obj []) with
  | .obj dependencies =>
    forEach (fun d =>
      if d.1 ∈ Json.names members then do
        let missing ← missingFields members (← iterate d.2)
        require missing.isEmpty path (.requires d.1 missing)
      else pure ()) dependencies
  | _ => raise .attribute

/-- `_validate_array` -/
def validateArray (rec : Validator) (elements : List Value) (schema root : Dict) (path : Path) :
    Eval Unit := do
  let out ← outOfRange (.int elements.length) schema "minItems" "maxItems" (int 0)
  require (!out) path .arrayLength
  require (!truthy (keywordD schema "uniqueItems" .null) || distinctValues [] elements) path
    .duplicateItem
  let fixed ← iterate (keywordD schema "prefixItems" (.arr []))
  forEach (fun x => rec x.1.1 x.1.2 root (path ++ [.index x.2])) (elements.zip fixed).zipIdx
  onKeyword schema "items" fun child =>
    forEach (fun x => rec x.1 child root (path ++ [.index x.2]))
      ((elements.drop fixed.length).zipIdx fixed.length)
  onKeyword schema "contains" fun child => do
    let found ← count (fun x => valid (rec x child root (path ++ [.item]))) elements
    let out ← outOfRange (.int found) schema "minContains" "maxContains" (int 1)
    require (!out) path .containsCount

/-- The checks of `validate` under a schema object, in the order of the source. -/
def validateDict (rec : Validator) (value : Value) (schema root : Dict) (path : Path) :
    Eval Unit := do
  onKeyword schema "$ref" fun reference => do
    let resolved ← evalReference byId reference root
    rec value resolved.1 resolved.2 path
  onKeyword schema "allOf" fun children => do
    forEach (fun child => rec value child root path) (← iterate children)
  onKeyword schema "anyOf" fun children => do
    let matched ← anyOf (fun child => valid (rec value child root path)) (← iterate children)
    require matched path .noAnyOf
  onKeyword schema "oneOf" fun children => do
    let n ← count (fun child => valid (rec value child root path)) (← iterate children)
    require (n = 1) path (.oneOf n)
  onKeyword schema "not" fun child => do
    let holds ← valid (rec value child root path)
    require (!holds) path .forbidden
  onKeyword schema "if" fun condition => do
    let holds ← valid (rec value condition root path)
    match keywordD schema (if holds then "then" else "else") .null with
    | .null => pure ()
    | selected => rec value selected root path
  onKeyword schema "const" fun expected =>
    require (jsonEqual value expected) path .const
  onKeyword schema "enum" fun values => do
    let candidates ← iterate values
    require (candidates.any (jsonEqual value)) path .enum
  onKeyword schema "type" fun expected => validateType value expected path
  match value with
  | .obj members => validateObject re rec members schema root path
  | .arr elements => validateArray rec elements schema root path
  | .str s => do
    let out ← outOfRange (.int s.length) schema "minLength" "maxLength" (int 0)
    require (!out) path .stringLength
    onKeyword schema "pattern" fun pattern => do
      let found ← search re pattern s
      require found path .pattern
  | .num x => validateNumber x schema path
  | _ => pure ()

/-- The keywords that `validate` asks any schema for. -/
def askedKeywords : List String :=
  ["$ref", "allOf", "anyOf", "oneOf", "not", "if", "const", "enum", "type"]

/-- `validate` under a string or an array in the place of a schema: a keyword found in it cannot be
read, and `get` is no attribute of it. -/
def validateOther (value schema : Value) : Eval Unit :=
  let found := match schema with
    | .str s => askedKeywords.any fun k => (str k).hasInfix s
    | .arr xs => askedKeywords.any fun k =>
        xs.any fun x => match x with | .str s => s = str k | _ => false
    | _ => true
  if found then raise .type
  else
    match value with
    | .null | .bool _ => pure ()
    | _ => raise .attribute

def validateAt : ℕ → Validator
  | 0, _, _, _, _ => raise .recursion
  | _ + 1, _, .bool true, _, _ => pure ()
  | _ + 1, _, .bool false, _, path => fail path .falseSchema
  | limit + 1, value, .obj schema, root, path =>
    validateDict re byId (validateAt limit) value schema root path
  | _ + 1, value, schema, _, _ => validateOther value schema

/-- `validate` as a test calls it, without a root. -/
def validate (limit : ℕ) (value schema : Value) : Eval Unit :=
  match schema with
  | .bool true => pure ()
  | .bool false => fail [] .falseSchema
  | .obj members => do
    validateSchemaDefinition re limit schema []
    validateAt re byId (limit + 1) value schema members []
  | _ => validateSchemaDefinition re (limit + 1) schema []

end Validate

end SchemaValidator
