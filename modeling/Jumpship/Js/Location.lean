import Jumpship.Js.Url

/-!
# The URL of a location

What the `URL` constructor makes of a location that starts with a slash: the relative slash state
and the states behind it, on a text that none of them rewrites.
-/

namespace Js

open Unicode UrlPath

structure Location where
  scheme : List Char
  host : List Char
  port : Option ℕ
  path : List (List UInt8)
  query : Option (List Char)
deriving DecidableEq

/-- The special schemes, `file` apart. -/
def specialSchemes : List (List Char) :=
  [['h', 't', 't', 'p'], ['h', 't', 't', 'p', 's'], ['w', 's'], ['w', 's', 's'], ['f', 't', 'p']]

/-- The path state and the query state. -/
def withPath (url : Location) (text : List Char) : Location :=
  let (path, query) := text.span (· ≠ '?')
  { url with
    path := pathState false [] (segments (utf8 path))
    query := if query = [] then none else some (query.drop 1) }

/-- What stands behind the first slash. A second one ends the path and starts an authority, all
further ones are passed over, and the host is what comes then, if there is one. -/
def relativeSlash (parseHost : List Char → Option (List Char)) (base : Location) :
    List Char → Option Location
  | '/' :: text =>
    let (host, rest) := (text.dropWhile (· = '/')).span fun c => c ∉ ['/', '?']
    if host = [] then none
    else do
      let host ← parseHost host
      -- the path start state passes over a slash
      some (withPath { base with host, port := none }
        (if rest.head? = some '/' then rest.drop 1 else rest))
  | text => some (withPath base text)

/-- Letters, digits and `-_.%=&/?`: no state ends at one of them but at `/` and `?`, and none is
rewritten. -/
def isPlain (c : Char) : Bool := c.isAlphanum || c ∈ ['-', '_', '.', '%', '=', '&', '/', '?']

/-- The URL standard's parser relative to a URL, and the host parser it uses. -/
structure LocationParser where
  parseHost : List Char → Option (List Char)
  parseWith : Location → List Char → Option Location
  parseWith_slash : ∀ {base : Location} {text : List Char}, base.scheme ∈ specialSchemes →
    (∀ c ∈ text, isPlain c = true) →
      parseWith base ('/' :: text) = relativeSlash parseHost base text

/-- Scheme, host and port of a URL. -/
def Location.origin (url : Location) : List Char × List Char × Option ℕ :=
  (url.scheme, url.host, url.port)

variable {parseHost : List Char → Option (List Char)} {base url : Location} {text : List Char}

@[simp] theorem origin_withPath : (withPath base text).origin = base.origin := rfl

/-- A path of its own leaves the origin to the base. -/
theorem relativeSlash_path (h : text.head? ≠ some '/') :
    relativeSlash parseHost base text = some (withPath base text) := by
  unfold relativeSlash
  split
  · exact absurd rfl h
  · rfl

/-- Behind a second slash the host is read from the text, whatever the base is. -/
theorem relativeSlash_host (h : relativeSlash parseHost base ('/' :: text) = some url) :
    parseHost ((text.dropWhile (· = '/')).takeWhile fun c => c ∉ ['/', '?']) = some url.host := by
  simp only [relativeSlash, List.span_eq_takeWhile_dropWhile] at h
  by_cases hempty : (text.dropWhile (· = '/')).takeWhile (fun c => c ∉ ['/', '?']) = []
  · rw [if_pos hempty] at h
    cases h
  · rw [if_neg hempty] at h
    obtain ⟨host, hhost, hurl⟩ := Option.bind_eq_some_iff.1 h
    rw [hhost, ← Option.some.inj hurl]
    rfl

end Js
