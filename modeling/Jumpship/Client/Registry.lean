import Jumpship.Canonical.Registry

/-!
# The supersession links of a registry in the browser

The part of `validatePublicKeyRegistry` of the generated TypeScript client that follows the links
from key to key.
-/

namespace Client

open Canonical (RegistryKey)

/-- The checks of the link of one candidate. -/
def validLink (keys : List RegistryKey) (candidate : RegistryKey) : Bool :=
  match candidate.supersedesKid with
  | none => true
  | some parent =>
    if parent = candidate.kid then false
    else
      match keys.find? fun item => item.kid = parent with
      | none => false
      | some prior =>
        prior.status = "superseded".toList && prior.algorithm = candidate.algorithm

/-- `parentByKid.get(kid)`: what was set last. -/
def parentByKid (keys : List RegistryKey) (kid : List Char) : Option (List Char) :=
  (keys.reverse.find? fun candidate => candidate.kid = kid && candidate.supersedesKid.isSome).bind
    (·.supersedesKid)

/-- The inner loop, for so many rounds: `some none` is the return of false. -/
def walkPath (parent : List Char → Option (List Char)) (visited : List (List Char)) :
    ℕ → List (List Char) → Option (List Char) → Option (Option (List (List Char)))
  | _, path, none => some (some path)
  | 0, _, some _ => none
  | fuel + 1, path, some current =>
    if visited.contains current then some (some path)
    else if path.contains current then some none
    else walkPath parent visited fuel (path ++ [current]) (parent current)

/-- The outer loop over the kids. -/
def walkAll (parent : List Char → Option (List Char)) (fuel : ℕ) :
    List (List Char) → List (List Char) → Option Bool
  | _, [] => some true
  | visited, kid :: kids =>
    match walkPath parent visited fuel [] (some kid) with
    | none => none
    | some none => some false
    | some (some path) => walkAll parent fuel (visited ++ path) kids

/-- The verdict on the links. -/
def validSupersession (keys : List RegistryKey) : Option Bool :=
  if keys.all (validLink keys) then
    walkAll (parentByKid keys) (keys.length + 1) [] (keys.map RegistryKey.kid)
  else some false

end Client
