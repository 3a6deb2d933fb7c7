import Jumpship.Lib.Base64

/-!
# atob and btoa

Over code units. The characters `atob` answers and `btoa` is given are bytes.
-/

namespace Js

open Base64

def isAsciiWhitespace (u : ℕ) : Bool := u = 0x09 || u = 0x0A || u = 0x0C || u = 0x0D || u = 0x20

/-- Data of a length that four divides without one or two padding characters at its end. -/
def stripPadding (data : List ℕ) : List ℕ :=
  if data.length % 4 = 0 then
    if [pad, pad] <:+ data then data.take (data.length - 2)
    else if [pad] <:+ data then data.take (data.length - 1)
    else data
  else data

/-- The bytes that groups of six bits write, what is left of them at the end discarded. -/
def decodeBits : List ℕ → List UInt8
  | w :: x :: y :: z :: rest => byte₁ w x :: byte₂ x y :: byte₃ y z :: decodeBits rest
  | [w, x, y] => [byte₁ w x, byte₂ x y]
  | [w, x] => [byte₁ w x]
  | _ => []

def atob (data : List ℕ) : Option (List UInt8) :=
  let data := stripPadding (data.filter fun u => !isAsciiWhitespace u)
  if data.length % 4 = 1 then none else (data.mapM digit?).map decodeBits

def btoa (bytes : List UInt8) : List ℕ := encode bytes

end Js
