import Jumpship.Lib.Base64

/-!
# encoding/base64

`StdEncoding.Strict().DecodeString`: the padding is required and its bits have to be zero. Line
breaks are left out of what is read.
-/

namespace Go

open Base64

def decodeGroups : List ℕ → Option (List UInt8)
  | [] => some []
  | a :: b :: c :: d :: rest => do
    let w ← digit? a
    let x ← digit? b
    if c = pad then
      if d = pad && rest = [] && x % 16 = 0 then some [byte₁ w x] else none
    else
      let y ← digit? c
      if d = pad then
        if rest = [] && y % 4 = 0 then some [byte₁ w x, byte₂ x y] else none
      else
        let z ← digit? d
        let bytes ← decodeGroups rest
        some (byte₁ w x :: byte₂ x y :: byte₃ y z :: bytes)
  | _ => none

def isLineBreak (b : UInt8) : Bool := b = 0x0A || b = 0x0D

def strictDecodeString (s : List UInt8) : Option (List UInt8) :=
  decodeGroups ((s.filter fun b => !isLineBreak b).map UInt8.toNat)

end Go
