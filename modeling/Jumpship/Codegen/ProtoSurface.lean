import Jumpship.Lib.Matching
import Jumpship.Py.Text

/-!
# The protobuf surface

`_proto_surface` of the contract generator: what its regular expressions find in a proto file. What
`\w` and `\d` are beyond ASCII is left open.
-/

namespace Codegen

open Py Matching

/-- The character classes of `re`. -/
structure Letters where
  word : ℕ → Bool
  /-- The value `int` reads of a digit. -/
  digit : ℕ → Option ℕ
  word_ascii : ∀ c < 128, word c =
    (('a'.toNat ≤ c && c ≤ 'z'.toNat) || ('A'.toNat ≤ c && c ≤ 'Z'.toNat) ||
      ('0'.toNat ≤ c && c ≤ '9'.toNat) || c = '_'.toNat)
  digit_ascii : ∀ c < 128, digit c =
    if '0'.toNat ≤ c ∧ c ≤ '9'.toNat then some (c - '0'.toNat) else Option.none

/-- `re.ASCII` -/
def Letters.ascii : Letters where
  word c := ('a'.toNat ≤ c && c ≤ 'z'.toNat) || ('A'.toNat ≤ c && c ≤ 'Z'.toNat) ||
    ('0'.toNat ≤ c && c ≤ '9'.toNat) || c = '_'.toNat
  digit c := if '0'.toNat ≤ c ∧ c ≤ '9'.toNat then some (c - '0'.toNat) else Option.none
  word_ascii _ _ := rfl
  digit_ascii _ _ := rfl

/-! ## Dicts -/

section Dicts

variable {α : Type}

/-- `d[key] = value` -/
def put (d : List (Str × α)) (key : Str) (value : α) : List (Str × α) :=
  match d with
  | [] => [(key, value)]
  | (k, v) :: d => if k = key then (k, value) :: d else (k, v) :: put d key value

/-- `{key: value for key, value in entries}` -/
def ofEntries (entries : List (Str × α)) : List (Str × α) :=
  entries.foldl (fun d entry => put d entry.1 entry.2) []

end Dicts

/-! ## Surfaces -/

/-- A field of a message, at its number. -/
structure FieldSurface where
  name : Str
  type : Str
  qualifier : Str
  oneof : Option Str
deriving DecidableEq

structure MethodSurface where
  request : Str
  requestStream : Bool
  response : Str
  responseStream : Bool
deriving DecidableEq

structure ProtoSurface where
  protoSyntax : Option Str
  package : Option Str
  enums : List (Str × List (Str × ℕ))
  messages : List (Str × List (Str × FieldSurface))
  services : List (Str × List (Str × MethodSurface))

/-! ## What the expressions find -/

section Expressions

variable (l : Letters)

def newline : ℕ := '\n'.toNat

def spaces : Matcher (List ℕ) := many isSpaceCode

def spaces1 : Matcher (List ℕ) := many1 isSpaceCode

/-- `(\w+)` -/
def wordName : Matcher Str := Str.ofCodes <$> many1 l.word

/-- `(\d+)` -/
def digits : Matcher (List ℕ) := many1 fun c => (l.digit c).isSome

/-- `int(digits)` -/
def intOf (ds : List ℕ) : ℕ := ds.foldl (fun n c => 10 * n + (l.digit c).getD 0) 0

/-- `keyword\s+(\w+)\s*\{(.*?)\n\}` -/
def block (keyword : String) : Matcher (Str × List ℕ) := do
  literal keyword
  let _ ← spaces1
  let name ← wordName l
  let _ ← spaces
  literal "\x7b"
  let body ← anything
  literal "\n\x7d"
  pure (name, body)

/-- `oneof\s+(\w+)\s*\{(.*?)\n\s*\}` -/
def oneofBlock : Matcher (Str × List ℕ) := do
  literal "oneof"
  let _ ← spaces1
  let name ← wordName l
  let _ ← spaces
  literal "\x7b"
  let body ← anything
  literal "\n"
  let _ ← spaces
  literal "\x7d"
  pure (name, body)

/-- `(?m)^\s*(\w+)\s*=\s*(\d+)\s*;` -/
def enumEntry : Matcher (Str × List ℕ) := do
  lineStart
  let _ ← spaces
  let entry ← wordName l
  let _ ← spaces
  literal "="
  let _ ← spaces
  let number ← digits l
  let _ ← spaces
  literal ";"
  pure (entry, number)

def isTypeStart (c : ℕ) : Bool :=
  c = '.'.toNat || ('A'.toNat ≤ c && c ≤ 'Z'.toNat) || ('a'.toNat ≤ c && c ≤ 'z'.toNat) ||
    c = '_'.toNat

def isTypePart (c : ℕ) : Bool := isTypeStart c || ('0'.toNat ≤ c && c ≤ '9'.toNat)

/-- `map<[^>]+>` -/
def mapType : Matcher (List ℕ) := do
  literal "map<"
  let inner ← many1 (· ≠ '>'.toNat)
  literal ">"
  pure ("map<".toList.map Char.toNat ++ inner ++ ['>'.toNat])

/-- `[.A-Za-z_][.A-Za-z0-9_]*` -/
def plainType : Matcher (List ℕ) := do
  let c ← oneOf isTypeStart
  let cs ← many isTypePart
  pure (c :: cs)

/-- `(?:(repeated|optional)\s+)?` -/
def qualifier : Matcher (Option Str) := Matching.optional do
  let word ← either (do literal "repeated"; pure (str "repeated"))
    (do literal "optional"; pure (str "optional"))
  let _ ← spaces1
  pure word

/-- `field_pattern` -/
def fieldPattern : Matcher (Option Str × Str × Str × List ℕ) := do
  lineStart
  let _ ← spaces
  let qualifier ← qualifier
  let type ← either mapType plainType
  let _ ← spaces1
  let field ← wordName l
  let _ ← spaces
  literal "="
  let _ ← spaces
  let number ← digits l
  let _ ← spaces
  literal ";"
  pure (qualifier, .ofCodes type, field, number)

/-- `(stream\s+)?` -/
def stream : Matcher Bool := Option.isSome <$> Matching.optional do
  literal "stream"
  spaces1

/-- `([.\w]+)` -/
def typeName : Matcher Str := Str.ofCodes <$> many1 fun c => c = '.'.toNat || l.word c

def rpc : Matcher (Str × MethodSurface) := do
  literal "rpc"
  let _ ← spaces1
  let method ← wordName l
  let _ ← spaces
  literal "("
  let _ ← spaces
  let requestStream ← stream
  let request ← typeName l
  let _ ← spaces
  literal ")"
  let _ ← spaces1
  literal "returns"
  let _ ← spaces
  literal "("
  let _ ← spaces
  let responseStream ← stream
  let response ← typeName l
  let _ ← spaces
  literal ")"
  let _ ← spaces
  literal ";"
  pure (method, ⟨request, requestStream, response, responseStream⟩)

/-- `(?m)^package\s+([.\w]+)\s*;` -/
def packageDeclaration : Matcher Str := do
  lineStart
  literal "package"
  let _ ← spaces1
  let name ← typeName l
  let _ ← spaces
  literal ";"
  pure name

/-- `(?m)^syntax\s*=\s*"([^"]+)"\s*;` -/
def syntaxDeclaration : Matcher Str := do
  lineStart
  literal "syntax"
  let _ ← spaces
  literal "="
  let _ ← spaces
  literal "\""
  let value ← many1 (· ≠ '"'.toNat)
  literal "\""
  let _ ← spaces
  literal ";"
  pure (.ofCodes value)

/-- `oneof_numbers` -/
def oneofNumbers (body : List ℕ) : List (Str × Str) :=
  ofEntries ((findAll (oneofBlock l) body).flatMap fun oneof =>
    (findAll (fieldPattern l) oneof.2).map fun field => (.ofCodes field.2.2.2, oneof.1))

def messageFields (body : List ℕ) : List (Str × FieldSurface) :=
  ofEntries ((findAll (fieldPattern l) body).map fun field =>
    let number := Str.ofCodes field.2.2.2
    (number, ⟨field.2.2.1, field.2.1, field.1.getD (str "singular"),
      (oneofNumbers l body).lookup number⟩))

def protoSurface (proto : List ℕ) : ProtoSurface where
  protoSyntax := find syntaxDeclaration proto
  package := find (packageDeclaration l) proto
  enums := ofEntries ((findAll (block l "enum") proto).map fun (name, body) =>
    (name, ofEntries ((findAll (enumEntry l) body).map fun entry => (entry.1, intOf l entry.2))))
  messages := ofEntries ((findAll (block l "message") proto).map fun (name, body) =>
    (name, messageFields l body))
  services := ofEntries ((findAll (block l "service") proto).map fun (name, body) =>
    (name, ofEntries (findAll (rpc l) body)))

end Expressions

end Codegen
