import Jumpship.Lib.UrlPath

/-!
# net/url

What of a URL its path depends on. A string is its bytes, the empty one where a part is not there;
`parseAuthority` reads what stands between the two slashes and the path.
-/

namespace Go

open UrlPath

/-! ## Escaping -/

def isUnreserved (b : UInt8) : Bool :=
  (97 ≤ b && b ≤ 122) || (65 ≤ b && b ≤ 90) || (48 ≤ b && b ≤ 57) ||
    b ∈ [0x2D, 0x5F, 0x2E, 0x7E]

/-- What `shouldEscape` leaves of a path: the unreserved characters and `$ & + , / : ; = @`. -/
def keepsPath (b : UInt8) : Bool :=
  isUnreserved b || b ∈ [0x24, 0x26, 0x2B, 0x2C, 0x2F, 0x3A, 0x3B, 0x3D, 0x40]

/-- In a segment the slash, the semicolon and the comma are escaped as well. -/
def keepsSegment (b : UInt8) : Bool :=
  isUnreserved b || b ∈ [0x24, 0x26, 0x2B, 0x3A, 0x3D, 0x40]

def pathEscape (s : List UInt8) : List UInt8 := encode keepsSegment s

def unescape (s : List UInt8) : Option (List UInt8) := decode? s

/-- `validEncoded` of a path, which takes `! ' ( ) * [ ] %` too. -/
def validEncoded (s : List UInt8) : Bool :=
  s.all fun b => keepsPath b || b ∈ [0x21, 0x27, 0x28, 0x29, 0x2A, 0x5B, 0x5D, 0x25]

/-! ## URLs -/

structure URL where
  scheme : List UInt8 := []
  opaquePart : List UInt8 := []
  user : Bool := false
  host : List UInt8 := []
  path : List UInt8 := []
  rawPath : List UInt8 := []
  rawQuery : List UInt8 := []
  fragment : List UInt8 := []
deriving DecidableEq

namespace URL

def setPath (url : URL) (p : List UInt8) : Option URL := do
  let path ← unescape p
  some { url with path, rawPath := if p = encode keepsPath path then [] else p }

def escapedPath (url : URL) : List UInt8 :=
  if url.rawPath ≠ [] ∧ validEncoded url.rawPath ∧ unescape url.rawPath = some url.path then url.rawPath
  else if url.path = [0x2A] then [0x2A]
  else encode keepsPath url.path

end URL

/-! ## Parsing -/

section Parsing

/-- What comes before the separator, and what after it. -/
def cut (separator : UInt8) (s : List UInt8) : List UInt8 × List UInt8 :=
  ((s.span (· ≠ separator)).1, (s.span (· ≠ separator)).2.tail)

def isLetter (b : UInt8) : Bool := (97 ≤ b && b ≤ 122) || (65 ≤ b && b ≤ 90)

def isSchemeByte (b : UInt8) : Bool := isLetter b || (48 ≤ b && b ≤ 57) || b ∈ [0x2B, 0x2D, 0x2E]

/-- The scheme and the rest; none is a missing protocol scheme. -/
def getScheme (rawURL : List UInt8) : Option (List UInt8 × List UInt8) :=
  match rawURL.span isSchemeByte with
  | (scheme, 0x3A :: rest) =>
    match scheme with
    | [] => none
    | b :: _ => if isLetter b then some (scheme, rest) else some ([], rawURL)
  | _ => some ([], rawURL)

def toLower (s : List UInt8) : List UInt8 := s.map fun b => if 65 ≤ b && b ≤ 90 then b + 32 else b

def isControl (b : UInt8) : Bool := b < 0x20 || b = 0x7F

variable (parseAuthority : List UInt8 → Option (Bool × List UInt8))

/-- `parse` of a text that holds no `#`. -/
def parseWithoutFragment (rawURL : List UInt8) : Option URL :=
  if rawURL.any isControl then none
  else if rawURL = [0x2A] then some { path := [0x2A] }
  else do
    let (scheme, rest) ← getScheme rawURL
    let scheme := toLower scheme
    let (rest, rawQuery) := cut 0x3F rest
    let url : URL := { scheme, rawQuery }
    if ¬ [slash] <+: rest then
      if scheme ≠ [] then some { url with opaquePart := rest }
      else if 0x3A ∈ (cut slash rest).1 then none
      else url.setPath rest
    else if (scheme ≠ [] ∨ ¬ [slash, slash, slash] <+: rest) ∧ [slash, slash] <+: rest then do
      let (authority, rest) := (rest.drop 2).span (· ≠ slash)
      let (user, host) ← parseAuthority authority
      { url with user, host }.setPath rest
    else url.setPath rest

def parse (rawURL : List UInt8) : Option URL := do
  let (u, fragment) := cut 0x23 rawURL
  let url ← parseWithoutFragment parseAuthority u
  let fragment ← unescape fragment
  some { url with fragment }

end Parsing

/-! ## Resolving -/

section Resolving

/-- What comes before the last slash. -/
def beforeLastSlash (s : List UInt8) : List UInt8 := [slash].intercalate (segments s).dropLast

/-- What the builder of `resolvePath` holds, and its `first`. -/
structure Builder where
  dst : List UInt8
  first : Bool

/-- One round of the loop over the elements. -/
def Builder.step (builder : Builder) (elem : List UInt8) : Builder :=
  if elem = [dot] then { builder with first := false }
  else if elem = [dot, dot] then
    let str := builder.dst.tail
    if slash ∈ str then { builder with dst := slash :: beforeLastSlash str }
    else { dst := [slash], first := true }
  else if builder.first then ⟨builder.dst ++ elem, false⟩
  else ⟨builder.dst ++ slash :: elem, false⟩

def fullPath (base ref : List UInt8) : List UInt8 :=
  if ref = [] then base
  else if [slash] <+: ref then ref
  else if slash ∈ base then beforeLastSlash base ++ slash :: ref
  else ref

/-- The path without the second of two slashes it starts with. -/
def withoutDoubleSlash : List UInt8 → List UInt8
  | a :: b :: r => if b = slash then b :: r else a :: b :: r
  | r => r

def resolvePath (base ref : List UInt8) : List UInt8 :=
  let full := fullPath base ref
  if full = [] then []
  else
    let elems := segments full
    let builder := elems.foldl Builder.step ⟨[slash], true⟩
    let dotted := elems.getLast? = some [dot] ∨ elems.getLast? = some [dot, dot]
    withoutDoubleSlash (if dotted then builder.dst ++ [slash] else builder.dst)

/-- `setPath` on what `resolvePath` returns, an error left as it is. -/
def URL.setResolved (url : URL) (p : List UInt8) : URL := (url.setPath p).getD url

def URL.resolveReference (u ref : URL) : URL :=
  let url := if ref.scheme = [] then { ref with scheme := u.scheme } else ref
  if ref.scheme ≠ [] ∨ ref.host ≠ [] ∨ ref.user then
    url.setResolved (resolvePath ref.escapedPath [])
  else if ref.opaquePart ≠ [] then { url with user := false, host := [], path := [] }
  else
    let url :=
      if ref.path = [] ∧ ref.rawQuery = [] then
        { url with rawQuery := u.rawQuery, fragment := if ref.fragment = [] then u.fragment else ref.fragment }
      else url
    if ref.path = [] ∧ u.opaquePart ≠ [] then
      { url with opaquePart := u.opaquePart, user := false, host := [] }
    else { url with host := u.host, user := u.user }.setResolved
      (resolvePath u.escapedPath ref.escapedPath)

end Resolving

end Go
