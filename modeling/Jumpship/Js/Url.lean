import Jumpship.Lib.Unicode
import Jumpship.Lib.UrlPath

/-!
# URLs

`encodeURIComponent` and what of the `URL` constructor the path of a relative reference takes. A
string is its code units, ASCII text its bytes.
-/

namespace Js

open Unicode UrlPath

/-! ## Escaping -/

/-- `A-Z a-z 0-9 - _ . ! ~ * ' ( )` -/
def keepsComponent (b : UInt8) : Bool :=
  (97 ≤ b && b ≤ 122) || (65 ≤ b && b ≤ 90) || (48 ≤ b && b ≤ 57) ||
    b ∈ [0x2D, 0x5F, 0x2E, 0x21, 0x7E, 0x2A, 0x27, 0x28, 0x29]

/-- None is the `URIError` of a lone surrogate. -/
def encodeURIComponent (value : List ℕ) : Option (List UInt8) :=
  (utf16Decode value).map fun s => encode keepsComponent (utf8 s)

/-! ## The constructor -/

structure URLRecord where
  isFile : Bool
  hasOpaquePath : Bool
  path : List (List UInt8)
deriving DecidableEq

def singleDots : List (List UInt8) := [[dot], [percent, 0x32, 0x65], [percent, 0x32, 0x45]]

def doubleDots : List (List UInt8) := singleDots.flatMap fun a => singleDots.map (a ++ ·)

def IsDots (s : List UInt8) : Prop := s ∈ singleDots ∨ s ∈ doubleDots

instance decidableIsDots (s : List UInt8) : Decidable (IsDots s) :=
  inferInstanceAs (Decidable (_ ∨ _))

def isDriveLetter : List UInt8 → Bool
  | [b, c] => ((97 ≤ b && b ≤ 122) || (65 ≤ b && b ≤ 90)) && c = 0x3A
  | _ => false

/-- A file keeps its drive. -/
def shorten (isFile : Bool) (path : List (List UInt8)) : List (List UInt8) :=
  if isFile && path.length = 1 && path.all isDriveLetter then path else path.dropLast

/-- The path state, on the segments of a text that it leaves as it is. -/
def pathState (isFile : Bool) (path : List (List UInt8)) : List (List UInt8) → List (List UInt8)
  | [] => path
  | [s] =>
    if s ∈ doubleDots then shorten isFile path ++ [[]]
    else if s ∈ singleDots then path ++ [[]]
    else path ++ [s]
  | s :: segs =>
    if s ∈ doubleDots then pathState isFile (shorten isFile path) segs
    else if s ∈ singleDots then pathState isFile path segs
    else pathState isFile (path ++ [s]) segs

/-- A text that has no scheme and starts a path of its own, no byte of which the parser rewrites. -/
structure IsRelative (text : List UInt8) : Prop where
  starts : ∃ b rest, text = b :: rest ∧ keepsComponent b = true
  plain : ∀ b ∈ text, keepsComponent b = true ∨ b = percent ∨ b = slash

/-- The URL standard's parser: on a text alone, and on a text relative to a URL. -/
structure URLParser where
  parse : List ℕ → Option URLRecord
  parseWith : URLRecord → List UInt8 → Option URLRecord
  not_isDots : ∀ {text url}, parse text = some url → ∀ s ∈ url.path, ¬ IsDots s
  parseWith_of_isRelative : ∀ {text} (base : URLRecord), IsRelative text →
    parseWith base text =
      if base.hasOpaquePath then none
      else some { base with
        path := pathState base.isFile (shorten base.isFile base.path) (segments text) }

end Js
