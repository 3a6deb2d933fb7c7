import Jumpship.Go.Url
import Jumpship.Js.Url

/-!
# Where the generated clients send a request

The path of an operation with its parameters filled in, and the URL it is resolved to: `NewClient`
and `Do` of the generated Go client, the constructor and `call` of the generated TypeScript client.
-/

namespace Codegen.Requests

open UrlPath

/-! ## Operations -/

def isNameByte (b : UInt8) : Bool := (97 ≤ b && b ≤ 122) || (48 ≤ b && b ≤ 57) || b ∈ [0x2D, 0x5F]

/-- A path of the contract: a literal segment, then literals and parameters. -/
structure Template where
  segments : List Segment
  first : ∃ s segs, segments = .literal s :: segs
  names : ∀ s ∈ segments, s.content ≠ [] ∧ ∀ b ∈ s.content, isNameByte b = true

def Template.path (template : Template) : List UInt8 := pathOf template.segments

def ascii (s : String) : List UInt8 := s.toList.map fun c => UInt8.ofNat c.toNat

def isBrace (b : UInt8) : Bool := b = openBrace || b = closeBrace

/-- `strings.TrimPrefix(path, "/")`, `path.replace(/^[/]/, "")` -/
def trimSlash : List UInt8 → List UInt8
  | b :: path => if b = slash then path else b :: path
  | [] => []

/-! ## The Go client -/

section GoClient

variable (parseAuthority : List UInt8 → Option (Bool × List UInt8))

def http : List UInt8 := [0x68, 0x74, 0x74, 0x70]

def https : List UInt8 := [0x68, 0x74, 0x74, 0x70, 0x73]

def newClient (baseURL : List UInt8) : Option Go.URL := do
  let parsed ← Go.parse parseAuthority baseURL
  if (parsed.scheme ≠ http ∧ parsed.scheme ≠ https) ∨ parsed.host = [] ∨ parsed.user ∨
      parsed.fragment ≠ [] then
    none
  else if [slash] <:+ parsed.path then some parsed
  else some { parsed with path := parsed.path ++ [slash] }

/-- What `Do` requests, the parameters in the order they are ranged over. -/
def requestURL (client : Go.URL) (template : Template) (pathParameters : List (List UInt8 × List UInt8))
    (query : List UInt8) : Option Go.URL :=
  let rendered := pathParameters.foldl
    (fun rendered p => replaceAll (braced p.1) (Go.pathEscape p.2) rendered) template.path
  if rendered.any isBrace then none
  else do
    let relative ← Go.parse parseAuthority (trimSlash rendered)
    some (client.resolveReference { relative with rawQuery := query })

end GoClient

/-! ## The TypeScript client -/

section TypeScriptClient

variable (parser : Js.URLParser)

def withSlash (baseURL : List ℕ) : List ℕ :=
  if [slash.toNat] <:+ baseURL then baseURL else baseURL ++ [slash.toNat]

/-- What `call` fetches. No replacement pattern can stand in what `encodeURIComponent` returns, which
has no `$`. -/
def callURL (baseURL : List ℕ) (template : Template) (pathParameters : List (List UInt8 × List ℕ)) :
    Option Js.URLRecord := do
  let path ← pathParameters.foldlM
    (fun path p => (Js.encodeURIComponent p.2).map fun s => replaceAll (braced p.1) s path) template.path
  if path.any isBrace then none
  else do
    let base ← parser.parse (withSlash baseURL)
    parser.parseWith base (trimSlash path)

end TypeScriptClient

end Codegen.Requests
