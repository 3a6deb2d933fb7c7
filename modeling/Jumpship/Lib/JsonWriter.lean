import Jumpship.Lib.JsonText

/-!
# Writing JSON texts

`write` puts a value on one line without whitespace. How a character is escaped and how a number is
written is left open; a writer whose escapes and numbers read back writes texts of the value it is
given (`text_write`).
-/

namespace JsonText

open Unicode

section Write

variable {ν : Type} (escape : Char → List Char) (number : ν → List Char)

def writeString (s : List Char) : List Char := '"' :: (s.flatMap escape ++ ['"'])

def joinComma (texts : List (List Char)) : List Char := List.intercalate [','] texts

/-- A name and the text of its value. -/
def writeMember (m : List Char × List Char) : List Char := writeString escape m.1 ++ ':' :: m.2

mutual
def write : Json (List Char) ν → List Char
  | .null => ['n', 'u', 'l', 'l']
  | .bool true => ['t', 'r', 'u', 'e']
  | .bool false => ['f', 'a', 'l', 's', 'e']
  | .num n => number n
  | .str s => writeString escape s
  | .arr xs => '[' :: (joinComma (writeElements xs) ++ [']'])
  | .obj ms => '{' :: (joinComma ((writeMembers ms).map (writeMember escape)) ++ ['}'])
def writeElements : List (Json (List Char) ν) → List (List Char)
  | [] => []
  | x :: xs => write x :: writeElements xs
def writeMembers : List (List Char × Json (List Char) ν) → List (List Char × List Char)
  | [] => []
  | (k, x) :: ms => (k, write x) :: writeMembers ms
end

theorem writeElements_eq (xs : List (Json (List Char) ν)) :
    writeElements escape number xs = xs.map (write escape number) := by
  induction xs with
  | nil => rfl
  | cons x xs ih => rw [writeElements, ih, List.map_cons]

theorem writeMembers_eq (ms : List (List Char × Json (List Char) ν)) :
    writeMembers escape number ms = ms.map fun m => (m.1, write escape number m.2) := by
  induction ms with
  | nil => rfl
  | cons m ms ih => rw [writeMembers, ih, List.map_cons]

@[simp] theorem joinComma_nil : joinComma [] = [] := rfl

@[simp] theorem joinComma_singleton (t : List Char) : joinComma [t] = t := by
  simp [joinComma, List.intercalate]

@[simp] theorem joinComma_cons_cons (t u : List Char) (ts : List (List Char)) :
    joinComma (t :: u :: ts) = t ++ ',' :: joinComma (u :: ts) := by
  simp [joinComma, List.intercalate]

end Write

/-! ## What is written reads back -/

section Reads

variable {ν : Type} {escape : Char → List Char} {number : ν → List Char}
  {N : List Char → ν → List Char → Prop}

/-- What is written for a character denotes the character in a string literal. -/
def Escapes (escape : Char → List Char) : Prop :=
  ∀ {c : Char} {t : List Char} {us : List ℕ} {r : List Char},
    StringBody t us r → StringBody (escape c ++ t) (utf16Char c ++ us) r

theorem stringOf_escape (h : Escapes escape) (s r : List Char) :
    StringOf (s.flatMap escape ++ '"' :: r) s r := by
  induction s with
  | nil => exact .close r
  | cons c s ih =>
    rw [List.flatMap_cons, List.append_assoc]
    exact h ih

theorem writeString_append (s r : List Char) :
    writeString escape s ++ r = '"' :: (s.flatMap escape ++ '"' :: r) := by
  simp [writeString]

theorem reads_elements {xs : List (Json (List Char) ν)} (hne : xs ≠ [])
    (ih : ∀ x ∈ xs, ∀ r, Reads StringOf N (.value x) (write escape number x ++ r) r)
    (r : List Char) :
    Reads StringOf N (.elements xs) (joinComma (writeElements escape number xs) ++ r) r := by
  rw [writeElements_eq]
  induction xs with
  | nil => exact absurd rfl hne
  | cons x xs ihxs =>
    obtain ⟨hx, hxs⟩ := List.forall_mem_cons.1 ih
    rcases xs with _ | ⟨y, ys⟩
    · rw [List.map_cons, List.map_nil, joinComma_singleton]
      exact .lastElement (.nil _) (hx r) (.nil r)
    · rw [List.map_cons, List.map_cons, joinComma_cons_cons, List.append_assoc, List.cons_append]
      exact .element (.nil _) (hx _) (.nil _) (ihxs (by simp) hxs)

theorem reads_members (he : Escapes escape) {ms : List (List Char × Json (List Char) ν)}
    (hne : ms ≠ [])
    (ih : ∀ m ∈ ms, ∀ r, Reads StringOf N (.value m.2) (write escape number m.2 ++ r) r)
    (r : List Char) :
    Reads StringOf N (.members ms)
      (joinComma ((writeMembers escape number ms).map (writeMember escape)) ++ r) r := by
  rw [writeMembers_eq, List.map_map]
  induction ms with
  | nil => exact absurd rfl hne
  | cons m ms ihms =>
    obtain ⟨k, x⟩ := m
    obtain ⟨hx, hms⟩ := List.forall_mem_cons.1 ih
    rcases ms with _ | ⟨m', ms⟩
    · rw [List.map_cons, List.map_nil, joinComma_singleton, Function.comp, writeMember,
        List.append_assoc, writeString_append, List.cons_append]
      exact .lastMember (.nil _) (stringOf_escape he k _) (.nil _) (.nil _) (hx r) (.nil r)
    · rw [List.map_cons, List.map_cons, joinComma_cons_cons, List.append_assoc, List.cons_append]
      nth_rewrite 1 [Function.comp]
      rw [writeMember, List.append_assoc, writeString_append, List.cons_append]
      exact .member (.nil _) (stringOf_escape he k _) (.nil _) (.nil _) (hx _) (.nil _)
        (ihms (by simp) hms)

variable (he : Escapes escape) (hN : ∀ n r, N (number n ++ r) n r)
include he hN

theorem reads_write (v : Json (List Char) ν) :
    ∀ r, Reads StringOf N (.value v) (write escape number v ++ r) r := by
  induction v with
  | null => exact fun r => .null r
  | bool b =>
    rcases b with _ | _
    · exact fun r => .false r
    · exact fun r => .true r
  | num n => exact fun r => .num (hN n r)
  | str s =>
    intro r
    rw [write, writeString_append]
    exact .str (stringOf_escape he s r)
  | arr xs ih =>
    intro r
    rw [write, List.cons_append, List.append_assoc, List.singleton_append]
    by_cases hne : xs = []
    · subst hne
      exact .emptyArr (.nil _)
    · exact .arr (reads_elements hne ih _)
  | obj ms ih =>
    intro r
    rw [write, List.cons_append, List.append_assoc, List.singleton_append]
    by_cases hne : ms = []
    · subst hne
      exact .emptyObj (.nil _)
    · exact .obj (reads_members he hne ih _)

theorem text_write (v : Json (List Char) ν) : Text StringOf N v (write escape number v) :=
  ⟨_, [], .nil _, by simpa using reads_write he hN v [], .nil []⟩

end Reads

end JsonText
