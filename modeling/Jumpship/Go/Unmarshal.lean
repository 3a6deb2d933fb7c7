import Jumpship.Lib.Binary64
import Jumpship.Lib.Json

/-!
# encoding/json's decoding into Go values

A type is decoded into the value that is there already; `none` is an error. A JSON number is kept
as a double: no type here takes one.
-/

namespace Go

abbrev Tree := Json (List Char) Binary64

/-- What decoding into a type does with a value it holds. -/
abbrev Decoding (α : Type) := Tree → α → Option α

/-! ## Nesting -/

mutual
def depth : Tree → ℕ
  | .arr xs => depthList xs + 1
  | .obj ms => depthMembers ms + 1
  | _ => 0
def depthList : List Tree → ℕ
  | [] => 0
  | x :: xs => max (depth x) (depthList xs)
def depthMembers : List (List Char × Tree) → ℕ
  | [] => 0
  | (_, x) :: ms => max (depth x) (depthMembers ms)
end

/-- How deep the arrays and objects of a text may nest. -/
def maxNestingDepth : ℕ := 10000

/-! ## Scalars and slices -/

section Slices

variable {α : Type}

def decodeString : Decoding (List Char)
  | .null, s => some s
  | .str s, _ => some s
  | _, _ => none

def decodeBool : Decoding Bool
  | .null, b => some b
  | .bool b, _ => some b
  | _, _ => none

/-- A pointer: null sets it to nil, and a value is decoded into what it points to. -/
def decodePointer (zero : α) (decode : Decoding α) : Decoding (Option α)
  | .null, _ => some none
  | v, p => (decode v (p.getD zero)).map some

/-- `json.RawMessage` -/
def decodeRaw : Decoding Tree := fun v _ => some v

/-- A slice, with what is left in its array beyond its length. -/
structure Slice (α : Type) where
  elems : List α
  spare : List α
deriving DecidableEq

def Slice.nil : Slice α := ⟨[], []⟩

/-- The elements of an array, into the array of the slice while it lasts. -/
def decodeElements (zero : α) (decode : Decoding α) :
    List Tree → List α → Option (List α × List α)
  | [], array => some ([], array)
  | x :: xs, array => do
    let a ← decode x (array.head?.getD zero)
    let (elems, spare) ← decodeElements zero decode xs array.tail
    some (a :: elems, spare)

def decodeSlice (zero : α) (decode : Decoding α) : Decoding (Slice α)
  | .null, _ => some .nil
  | .arr [], _ => some .nil
  | .arr xs, s => (decodeElements zero decode xs (s.elems ++ s.spare)).map fun p => ⟨p.1, p.2⟩
  | _, _ => none

def decodeStrings : Decoding (Slice (List Char)) := decodeSlice [] decodeString

end Slices

/-! ## Structs -/

section Structs

variable {σ α : Type}

/-- The upper case of a letter. Beyond ASCII these two alone have a letter of a field name in their
case orbit. -/
def foldRune (c : Char) : Char :=
  if 'a' ≤ c ∧ c ≤ 'z' then Char.ofNat (c.toNat - 32)
  else if c = 'ſ' then 'S'
  else if c = 'K' then 'K'
  else c

def foldName (name : List Char) : List Char := name.map foldRune

/-- A field of a struct, by its tag. -/
structure StructField (σ : Type) where
  name : String
  decode : Decoding σ

def field (name : String) (get : σ → α) (set : σ → α → σ) (decode : Decoding α) : StructField σ :=
  ⟨name, fun v s => (decode v (get s)).map (set s)⟩

/-- The field a member is decoded into: that of its name, or the first that differs from it in the
case of letters only. -/
def fieldFor (fields : List (StructField σ)) (key : List Char) : Option (StructField σ) :=
  (fields.find? fun f => f.name.toList = key).or
    (fields.find? fun f => foldName f.name.toList = foldName key)

def decodeMembers (fields : List (StructField σ)) (disallowUnknownFields : Bool) :
    List (List Char × Tree) → σ → Option σ
  | [], s => some s
  | (key, v) :: ms, s =>
    match fieldFor fields key with
    | some f => (f.decode v s).bind (decodeMembers fields disallowUnknownFields ms)
    | none =>
      if disallowUnknownFields then none else decodeMembers fields disallowUnknownFields ms s

def decodeStruct (fields : List (StructField σ)) (disallowUnknownFields : Bool) : Decoding σ
  | .null, s => some s
  | .obj ms, s => decodeMembers fields disallowUnknownFields ms s
  | _, _ => none

end Structs

end Go
