import Jumpship.Codegen.Model
import Jumpship.Codegen.ProtoSurface
import Jumpship.Py.Equality
import Jumpship.Py.Json
import Jumpship.Lib.Unicode

/-!
# The contract compatibility gate

`_compatibility_surface` and `_compare_compatibility` of the contract generator. An artifact is its
content; its JSON is read as UTF-8. A mapping's keys are in insertion order, and a finding is the
text the generator reports.
-/

namespace Codegen

open Py

inductive Exc where
  | attribute
  | key
  | type
  | value
deriving DecidableEq

def concat (parts : List Str) : Str := .ofCodes (parts.flatMap Str.codes)

def sortedKeys (keys : List Str) : List Str := keys.insertionSort Layout.KeyLE

/-- A value that has the methods of a `dict`. -/
def asDict : Value → Except Exc Dict
  | .obj d => .ok d
  | _ => .error .attribute

/-- `d.get(key, default)` -/
def getOr (d : Dict) (key : String) (default : Value) : Value := (d.lookup (str key)).getD default

/-! ## Surfaces -/

section Surfaces

def schemaAnnotations : List String :=
  ["$comment", "$schema", "default", "deprecated", "description", "examples", "readOnly", "title",
    "writeOnly"]

/-- A member that `_schema_assertions` drops, wherever it stands. -/
def isAnnotated (key : Str) : Bool :=
  key ∈ schemaAnnotations.map str || (str "x-").startsWith key

mutual
/-- `_schema_assertions` -/
def schemaAssertions : Value → Value
  | .obj ms => .obj (Json.sortByName Layout.KeyLE (assertionsMembers ms))
  | .arr xs => .arr (assertionsList xs)
  | v => v
def assertionsMembers : List (Str × Value) → List (Str × Value)
  | [] => []
  | (key, child) :: ms =>
    if isAnnotated key then assertionsMembers ms
    else (key, schemaAssertions child) :: assertionsMembers ms
def assertionsList : List Value → List Value
  | [] => []
  | x :: xs => schemaAssertions x :: assertionsList xs
end

structure SchemaSurface where
  root : Dict
  properties : Value

structure OpenapiSurface where
  version : Value
  servers : Value
  operations : List (Str × Value)
  components : Value

structure Surface where
  jsonSchemas : List (Str × SchemaSurface)
  openapi : OpenapiSurface
  protobuf : ProtoSurface

def schemaSurface (document : Value) : Except Exc SchemaSurface := do
  let assertions ← asDict (schemaAssertions document)
  pure ⟨assertions.filter fun m => m.1 ≠ str "properties", getOr assertions "properties" (.obj [])⟩

def httpMethods : List String :=
  ["delete", "get", "head", "options", "patch", "post", "put", "trace"]

def operationKeys : List String :=
  ["callbacks", "deprecated", "operationId", "parameters", "requestBody", "responses", "security",
    "x-jumpship-policy"]

/-- `operation[key]` if `key in operation` -/
def operationItem (operation : Value) (key : String) : Except Exc (Option Value) :=
  match operation with
  | .obj d => .ok (d.lookup (str key))
  | .arr xs => if xs.any (same (.str (str key))) then .error .type else .ok none
  | .str s => if (str key).hasInfix s then .error .type else .ok none
  | _ => .error .type

def operationSurface (operation : Value) : List String → Except Exc Dict
  | [] => pure []
  | key :: keys => do
    let found ← operationItem operation key
    let rest ← operationSurface operation keys
    pure ((found.map fun v => (str key, v)).toList ++ rest)

/-- `method.upper()` of a method in lower case. -/
def upper (s : Str) : Str :=
  .ofCodes (s.codes.map fun c => if 'a'.toNat ≤ c ∧ c ≤ 'z'.toNat then c - 32 else c)

def pathOperations (path : Str) : Dict → Except Exc (List (Str × Value))
  | [] => pure []
  | (method, operation) :: items => do
    if method ∈ httpMethods.map str then
      let surface ← operationSurface operation operationKeys
      let rest ← pathOperations path items
      pure ((concat [upper method, str " ", path], .obj surface) :: rest)
    else pathOperations path items

def operations : Dict → Except Exc (List (Str × Value))
  | [] => pure []
  | (path, item) :: items => do
    let item ← asDict item
    let ops ← pathOperations path (Json.sortByName Layout.KeyLE item)
    let rest ← operations items
    pure (ops ++ rest)

/-- `_openapi_surface` -/
def openapiSurface (document : Value) : Except Exc OpenapiSurface := do
  let document ← asDict document
  let paths ← asDict (getOr document "paths" (.obj []))
  let ops ← operations (Json.sortByName Layout.KeyLE paths)
  pure ⟨getOr document "openapi" .null, getOr document "servers" (.arr []), ofEntries ops,
    getOr document "components" (.obj [])⟩

/-- `json.loads(content)` -/
def loadsContent (content : List UInt8) : Except Exc Value :=
  match (Unicode.utf8Decode content).bind loads with
  | some value => .ok value
  | none => .error .value

def schemaSurfaces : List (Str × List UInt8) → Except Exc (List (Str × SchemaSurface))
  | [] => pure []
  | (path, content) :: artifacts => do
    if ".schema.json".toList.map Char.toNat <:+ path.codes then
      let document ← loadsContent content
      let surface ← schemaSurface document
      let rest ← schemaSurfaces artifacts
      pure ((path, surface) :: rest)
    else schemaSurfaces artifacts

def artifact (artifacts : List (Str × List UInt8)) (path : String) : Except Exc (List UInt8) :=
  match artifacts.lookup (str path) with
  | some content => .ok content
  | none => .error .key

/-- `_compatibility_surface` -/
def compatibilitySurface (l : Letters) (artifacts : List (Str × List UInt8)) :
    Except Exc Surface := do
  let schemas ← schemaSurfaces (Json.sortByName Layout.KeyLE artifacts)
  let openapiContent ← artifact artifacts "contracts/openapi/openapi.yaml"
  let document ← loadsContent openapiContent
  let protoContent ← artifact artifacts "contracts/proto/jumpship/cell/v1/cell.proto"
  match Unicode.utf8Decode protoContent with
  | none => .error .value
  | some proto => do
    let openapi ← openapiSurface document
    pure ⟨schemas, openapi, protoSurface l (proto.map Char.toNat)⟩

end Surfaces

/-! ## Comparing -/

section Comparing

structure Findings where
  changes : List Str
  breaking : List Str
deriving DecidableEq

namespace Findings

def empty : Findings := ⟨[], []⟩

def change (parts : List Str) : Findings := ⟨[concat parts], []⟩

def breaks (parts : List Str) : Findings := ⟨[], [concat parts]⟩

def append (f g : Findings) : Findings := ⟨f.changes ++ g.changes, f.breaking ++ g.breaking⟩

instance instAppend : Append Findings := ⟨append⟩

/-- What a loop finds. -/
def each {α : Type} (f : α → Findings) : List α → Findings
  | [] => empty
  | x :: xs => f x ++ each f xs

/-- What a loop finds that can raise. -/
def eachM {α : Type} (f : α → Except Exc Findings) : List α → Except Exc Findings
  | [] => pure empty
  | x :: xs => do
    let found ← f x
    let rest ← eachM f xs
    pure (found ++ rest)

end Findings

open Findings

variable {α : Type}

def removedKeys (baseline current : List (Str × α)) : List Str :=
  sortedKeys ((Json.names baseline).filter (· ∉ Json.names current))

def commonKeys (baseline current : List (Str × α)) : List Str :=
  sortedKeys ((Json.names baseline).filter (· ∈ Json.names current))

/-- `_compare_exact_additive_map`, by what makes two values differ. -/
def compareExactAdditiveMap (differ : α → α → Bool) (label : Str)
    (baseline current : List (Str × α)) (approvedReplacements : List (String × String)) :
    Findings :=
  each (fun key => breaks [str "removed ", label, str " ", key]) (removedKeys baseline current) ++
  each (fun key =>
    match baseline.lookup key, current.lookup key with
    | some old, some new =>
      if differ old new then
        match (approvedReplacements.map fun r => (str r.1, str r.2)).lookup key with
        | none => breaks [str "changed ", label, str " ", key]
        | some authority =>
          change [str "approved replacement of ", label, str " ", key, str " under ", authority]
      else empty
    | _, _ => empty) (commonKeys baseline current) ++
  each (fun key => change [str "added ", label, str " ", key]) (removedKeys current baseline)

structure Replacement where
  fromVersion : String
  toVersion : String
  authority : String

def approvedVersionedSchemaReplacements : List (String × Replacement) :=
  [("contracts/client/customer-incapability-catalog.schema.json",
    ⟨"1.0.0", "2.0.0", "P02-CATALOG-RU-HASH-CYCLE"⟩)]

def replacementOf (path : Str) : Option Replacement :=
  (approvedVersionedSchemaReplacements.map fun r => (str r.1, r.2)).lookup path

def approvedOpenapiComponentReplacements : List (String × String) :=
  [("GetEnvironmentAgentIncapabilitiesResponse", "P02-CATALOG-RU-HASH-CYCLE"),
    ("GetMigrationAgentIncapabilitiesResponse", "P02-CATALOG-RU-HASH-CYCLE")]

/-- `left != right` -/
def differ (left right : Value) : Bool := !equal left right

/-- `properties.get("schema_version", {}).get("const")` -/
def versionOf (properties : Value) : Except Exc Value := do
  let properties ← asDict properties
  let version ← asDict (getOr properties "schema_version" (.obj []))
  pure (getOr version "const" .null)

def compareSchema (path : Str) (old new : SchemaSurface) : Except Exc Findings :=
  if differ (.obj old.root) (.obj new.root) then do
    let oldVersion ← versionOf old.properties
    let newVersion ← versionOf new.properties
    match replacementOf path with
    | none => pure (breaks [str "changed JSON Schema assertions ", path])
    | some replacement =>
      if differ oldVersion (string replacement.fromVersion) ||
          differ newVersion (string replacement.toVersion) then
        pure (breaks [str "changed JSON Schema assertions ", path])
      else
        pure (change [str "approved versioned replacement of JSON Schema ", path, str " ",
          str replacement.fromVersion, str "->", str replacement.toVersion, str " under ",
          str replacement.authority])
  else do
    let oldProperties ← asDict old.properties
    let newProperties ← asDict new.properties
    pure (compareExactAdditiveMap differ (concat [str "optional property in ", path])
      oldProperties newProperties [])

def compareSchemas (old new : List (Str × SchemaSurface)) : Except Exc Findings := do
  let found ← eachM (fun path =>
    match old.lookup path, new.lookup path with
    | some oldSchema, some newSchema => compareSchema path oldSchema newSchema
    | _, _ => pure empty) (commonKeys old new)
  pure (each (fun path => breaks [str "removed JSON Schema ", path]) (removedKeys old new) ++
    each (fun path => change [str "added JSON Schema ", path]) (removedKeys new old) ++ found)

def compareCategory (category : Str) (old new : Value) : Findings :=
  match old, new with
  | .obj oldCategory, .obj newCategory =>
    compareExactAdditiveMap differ (concat [str "OpenAPI ", category, str " component"])
      oldCategory newCategory
      (if category = str "schemas" then approvedOpenapiComponentReplacements else [])
  | _, _ =>
    if differ old new then breaks [str "changed OpenAPI component category ", category] else empty

def compareOpenapi (old new : OpenapiSurface) : Except Exc Findings := do
  let oldComponents ← asDict old.components
  let newComponents ← asDict new.components
  pure ((if differ old.version new.version then breaks [str "changed OpenAPI version"] else empty) ++
    (if differ old.servers new.servers then breaks [str "changed OpenAPI servers"] else empty) ++
    compareExactAdditiveMap differ (str "OpenAPI operation") old.operations new.operations [] ++
    each (fun category =>
      compareCategory category ((oldComponents.lookup category).getD (.obj []))
        ((newComponents.lookup category).getD (.obj [])))
      (sortedKeys (Json.names oldComponents ++ (Json.names newComponents).filter
        (· ∉ Json.names oldComponents))))

/-- One category of the protobuf surface. -/
def compareGroups [DecidableEq α] (group memberLabel : String)
    (old new : List (Str × List (Str × α))) : Findings :=
  each (fun name => breaks [str "removed protobuf ", str group, str " ", name])
    (removedKeys old new) ++
  each (fun name => change [str "added protobuf ", str group, str " ", name])
    (removedKeys new old) ++
  each (fun name =>
    match old.lookup name, new.lookup name with
    | some oldGroup, some newGroup =>
      compareExactAdditiveMap (fun x y => x ≠ y)
        (concat [str "protobuf ", str memberLabel, str " in ", name]) oldGroup newGroup []
    | _, _ => empty) (commonKeys old new)

def compareProtobuf (old new : ProtoSurface) : Findings :=
  (if old.protoSyntax ≠ new.protoSyntax then breaks [str "changed protobuf syntax"] else empty) ++
  (if old.package ≠ new.package then breaks [str "changed protobuf package"] else empty) ++
  compareGroups "enum" "enum value" old.enums new.enums ++
  compareGroups "message" "field number" old.messages new.messages ++
  compareGroups "service" "RPC method" old.services new.services

/-- `_compare_compatibility` -/
def compareCompatibility (baseline current : Surface) : Except Exc Findings := do
  let schemas ← compareSchemas baseline.jsonSchemas current.jsonSchemas
  let openapi ← compareOpenapi baseline.openapi current.openapi
  pure (schemas ++ openapi ++ compareProtobuf baseline.protobuf current.protobuf)

end Comparing

end Codegen
