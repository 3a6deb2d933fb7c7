import Mathlib

/-!
# Uniform resource identifiers

RFC 3986: how a reference is taken apart (appendix B), the authority in it (section 3.2), and how it
is resolved against a base (section 5.2).
-/

namespace Reference

/-! ## References -/

structure URI where
  scheme : Option (List Char) := none
  authority : Option (List Char) := none
  path : List Char := []
  query : Option (List Char) := none
  fragment : Option (List Char) := none
deriving DecidableEq

/-- What stands before the first `mark`, and behind it. -/
def splitOff (mark : Char) (s : List Char) : List Char × Option (List Char) :=
  match s.span (· ≠ mark) with
  | (before, _ :: behind) => (before, some behind)
  | (before, []) => (before, none)

/-- `([^:/?#]+):` -/
def splitScheme (s : List Char) : Option (List Char) × List Char :=
  match s.span fun c => c ∉ [':', '/', '?', '#'] with
  | (b :: before, ':' :: behind) => (some (b :: before), behind)
  | _ => (none, s)

/-- `//([^/?#]*)` -/
def splitAuthority : List Char → Option (List Char) × List Char
  | '/' :: '/' :: s =>
    let (authority, behind) := s.span fun c => c ∉ ['/', '?', '#']
    (some authority, behind)
  | s => (none, s)

def parse (s : List Char) : URI :=
  let (scheme, s) := splitScheme s
  let (authority, s) := splitAuthority s
  let (s, fragment) := splitOff '#' s
  let (path, query) := splitOff '?' s
  { scheme, authority, path, query, fragment }

/-! ## The authority -/

/-- The host and the port, as they are written. -/
def hostPort (authority : List Char) : List Char × Option (List Char) :=
  match (splitOff '@' authority).2.getD authority with
  | '[' :: s =>
    let (address, behind) := s.span (· ≠ ']')
    ('[' :: address ++ behind.take 1, (splitOff ':' (behind.drop 1)).2)
  | s => splitOff ':' s

/-- The port a URL of the scheme https has. -/
def httpsPort : Option (List Char) → List Char
  | none | some [] => ['4', '4', '3']
  | some port => port

/-- Scheme, host and port: two URIs that agree in these are of one origin. -/
def URI.origin (u : URI) : Option (List Char) × Option (List Char × List Char) :=
  (u.scheme.map (·.map Char.toLower), u.authority.map fun authority =>
    ((hostPort authority).1.map Char.toLower, httpsPort (hostPort authority).2))

/-! ## Resolution -/

/-- A path without its last segment, the slash before it too. -/
def dropSegment (path : List Char) : List Char :=
  ((path.reverse.dropWhile (· ≠ '/')).drop 1).reverse

/-- Section 5.2.4, step by step: `output` is what has been moved so far. -/
def removeDots (output : List Char) : List Char → List Char
  | '.' :: '.' :: '/' :: rest => removeDots output rest
  | '.' :: '/' :: rest => removeDots output rest
  | '/' :: '.' :: '/' :: rest => removeDots output ('/' :: rest)
  | ['/', '.'] => output ++ ['/']
  | '/' :: '.' :: '.' :: '/' :: rest => removeDots (dropSegment output) ('/' :: rest)
  | ['/', '.', '.'] => dropSegment output ++ ['/']
  | ['.'] | ['.', '.'] | [] => output
  | c :: rest =>
    removeDots (output ++ c :: rest.takeWhile (· ≠ '/')) (rest.dropWhile (· ≠ '/'))
termination_by input => input.length
decreasing_by
  all_goals simp only [List.length_cons]
  all_goals first
    | omega
    | exact Nat.lt_succ_of_le (List.dropWhile_sublist _).length_le

def removeDotSegments (path : List Char) : List Char := removeDots [] path

/-- Section 5.2.3. -/
def merge (base : URI) (path : List Char) : List Char :=
  if base.authority.isSome ∧ base.path = [] then '/' :: path
  else (base.path.reverse.dropWhile (· ≠ '/')).reverse ++ path

/-- Section 5.2.2, a strict parser's. -/
def transform (base r : URI) : URI :=
  if r.scheme.isSome then { r with path := removeDotSegments r.path }
  else if r.authority.isSome then
    { r with scheme := base.scheme, path := removeDotSegments r.path }
  else if r.path = [] then
    { base with query := r.query.or base.query, fragment := r.fragment }
  else
    let path := if r.path.head? = some '/' then r.path else merge base r.path
    { base with path := removeDotSegments path, query := r.query, fragment := r.fragment }

def resolve (base text : List Char) : URI := transform (parse base) (parse text)

/-! ## Paths that start with one slash -/

section Paths

variable {base rest : List Char}

/-- Nothing stands before the first slash that could be a scheme. -/
theorem splitScheme_slash : splitScheme ('/' :: rest) = (none, '/' :: rest) := by
  simp [splitScheme, List.span_eq_takeWhile_dropWhile]

theorem splitAuthority_slash (h : rest.head? ≠ some '/') :
    splitAuthority ('/' :: rest) = (none, '/' :: rest) := by
  unfold splitAuthority
  split
  · rename_i s heq
    obtain rfl := (List.cons.inj heq).2
    exact absurd rfl h
  · rfl

/-- A path of its own leaves the scheme and the authority to the base. -/
theorem resolve_slash (h : rest.head? ≠ some '/') :
    (resolve base ('/' :: rest)).scheme = (parse base).scheme ∧
      (resolve base ('/' :: rest)).authority = (parse base).authority := by
  have hscheme : (parse ('/' :: rest)).scheme = none := by
    simp [parse, splitScheme_slash]
  have hauthority : (parse ('/' :: rest)).authority = none := by
    simp [parse, splitScheme_slash, splitAuthority_slash h]
  simp only [resolve, transform, hscheme, hauthority, Option.isSome_none, Bool.false_eq_true, if_false]
  split_ifs <;> exact ⟨rfl, rfl⟩

theorem origin_resolve_slash (h : rest.head? ≠ some '/') :
    (resolve base ('/' :: rest)).origin = (parse base).origin := by
  obtain ⟨hscheme, hauthority⟩ := resolve_slash h
  rw [URI.origin, hscheme, hauthority, URI.origin]

/-- Behind two slashes stands an authority, which is the result's whatever the base is. -/
theorem authority_resolve_slashes :
    (resolve base ('/' :: '/' :: rest)).authority =
      some (rest.takeWhile fun c => c ∉ ['/', '?', '#']) := by
  have hscheme : (parse ('/' :: '/' :: rest)).scheme = none := by
    simp [parse, splitScheme_slash]
  have hauthority : (parse ('/' :: '/' :: rest)).authority =
      some (rest.takeWhile fun c => c ∉ ['/', '?', '#']) := by
    simp [parse, splitScheme_slash, splitAuthority, List.span_eq_takeWhile_dropWhile]
  simp [resolve, transform, hscheme, hauthority]

end Paths

end Reference
