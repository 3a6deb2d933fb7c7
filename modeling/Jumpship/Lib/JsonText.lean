import Jumpship.Lib.Json
import Jumpship.Lib.Decimal
import Jumpship.Lib.Unicode

/-!
# The grammar of JSON texts

RFC 8259 as a relation: `Reads S N (.value v) t r` says that `t` is a JSON text of `v` followed by
`r`. What a string denotes is left to `S` and what a number denotes to `N`, so that a reader that
keeps number literals and one that rounds them share one grammar. A string literal denotes UTF-16
code units (`StringBody`); `StringOf` keeps the literals whose surrogates are paired, which denote
texts.
-/

namespace JsonText

open Unicode

/-! ## Number literals -/

section Numbers

def digitChar (d : Digit) : Char := Char.ofNat (48 + d)

/-- The digit a character writes. -/
def digit? (c : Char) : Option Digit :=
  if h : 48 ≤ c.toNat ∧ c.toNat < 58 then some ⟨c.toNat - 48, by omega⟩ else none

@[simp] theorem digit?_digitChar (d : Digit) : digit? (digitChar d) = some d := by
  revert d
  decide

theorem digit?_eq_some {c : Char} {d : Digit} : digit? c = some d ↔ c = digitChar d := by
  constructor
  · intro h
    unfold digit? at h
    split_ifs at h with hc
    obtain rfl := Option.some.inj h
    have : 48 + (c.toNat - 48) = c.toNat := by omega
    rw [digitChar, this, Char.ofNat_toNat]
  · rintro rfl
    exact digit?_digitChar d

structure Exponent where
  upper : Bool
  /-- The sign written, if any: `some true` is a minus. -/
  sign : Option Bool
  digits : List Digit
  digits_ne : digits ≠ []
deriving DecidableEq

/-- A number literal. An absent fraction is the empty one. -/
structure Number where
  neg : Bool
  int : List Digit
  frac : List Digit
  exp : Option Exponent
  int_ne : int ≠ []
  /-- No leading zero. -/
  int_zero : ∀ ds, int = 0 :: ds → ds = []
deriving DecidableEq

def signText : Option Bool → List Char
  | none => []
  | some false => ['+']
  | some true => ['-']

def Exponent.text (e : Exponent) : List Char :=
  (if e.upper then 'E' else 'e') :: (signText e.sign ++ e.digits.map digitChar)

def Exponent.value (e : Exponent) : ℤ :=
  if e.sign = some true then -(Decimal.toNat e.digits : ℤ) else Decimal.toNat e.digits

def fracText (ds : List Digit) : List Char := if ds = [] then [] else '.' :: ds.map digitChar

def expText : Option Exponent → List Char
  | none => []
  | some e => e.text

def Number.text (n : Number) : List Char :=
  (if n.neg then ['-'] else []) ++ (n.int.map digitChar ++ (fracText n.frac ++ expText n.exp))

/-- The rational a literal writes. -/
def Number.value (n : Number) : ℚ :=
  (if n.neg then -1 else 1) * (Decimal.toNat (n.int ++ n.frac)
    * 10 ^ ((n.exp.elim 0 Exponent.value) - (n.frac.length : ℤ)))

theorem int_eq_cons (n : Number) : ∃ d ds, n.int = d :: ds := by
  rcases h : n.int with _ | ⟨d, ds⟩
  · exact absurd h n.int_ne
  · exact ⟨d, ds, rfl⟩

end Numbers

/-! ## String literals -/

section Strings

def hexDigit? (c : Char) : Option ℕ :=
  let n := c.toNat
  if 48 ≤ n ∧ n < 58 then some (n - 48)
  else if 97 ≤ n ∧ n < 103 then some (n - 87)
  else if 65 ≤ n ∧ n < 71 then some (n - 55)
  else none

/-- The code unit four hexadecimal digits write. -/
def hex4 (a b c d : Char) : Option ℕ := do
  let w ← hexDigit? a
  let x ← hexDigit? b
  let y ← hexDigit? c
  let z ← hexDigit? d
  some (((w * 16 + x) * 16 + y) * 16 + z)

/-- The code unit of a two-character escape. -/
def simpleEscape? : Char → Option ℕ
  | '"' => some 0x22
  | '\\' => some 0x5C
  | '/' => some 0x2F
  | 'b' => some 0x08
  | 'f' => some 0x0C
  | 'n' => some 0x0A
  | 'r' => some 0x0D
  | 't' => some 0x09
  | _ => none

/-- A character that stands for itself in a string literal. -/
def IsPlain (c : Char) : Prop := 0x20 ≤ c.toNat ∧ c ≠ '"' ∧ c ≠ '\\'

instance (c : Char) : Decidable (IsPlain c) := by unfold IsPlain; infer_instance

/-- `StringBody t us r`: `t` is the rest of a string literal, its closing quote and then `r`, and
the literal's rest denotes the code units `us`. -/
inductive StringBody : List Char → List ℕ → List Char → Prop
  | close (r : List Char) : StringBody ('"' :: r) [] r
  | plain {c : Char} {t : List Char} {us : List ℕ} {r : List Char} :
      IsPlain c → StringBody t us r → StringBody (c :: t) (utf16Char c ++ us) r
  | escape {e : Char} {u : ℕ} {t : List Char} {us : List ℕ} {r : List Char} :
      simpleEscape? e = some u → StringBody t us r → StringBody ('\\' :: e :: t) (u :: us) r
  | unicode {a b c d : Char} {u : ℕ} {t : List Char} {us : List ℕ} {r : List Char} :
      hex4 a b c d = some u → StringBody t us r →
      StringBody ('\\' :: 'u' :: a :: b :: c :: d :: t) (u :: us) r

/-- The rest of a string literal that denotes the text `s`. -/
def StringOf (t : List Char) (s : List Char) (r : List Char) : Prop := StringBody t (utf16 s) r

theorem hexDigit?_lt {c : Char} {n : ℕ} (h : hexDigit? c = some n) : n < 16 := by
  unfold hexDigit? at h
  dsimp only at h
  split_ifs at h <;> obtain rfl := Option.some.inj h <;> omega

theorem hex4_eq_some {a b c d : Char} {u : ℕ} : hex4 a b c d = some u ↔
    ∃ w x y z, hexDigit? a = some w ∧ hexDigit? b = some x ∧ hexDigit? c = some y ∧
      hexDigit? d = some z ∧ u = ((w * 16 + x) * 16 + y) * 16 + z := by
  simp only [hex4, Option.bind_eq_bind, Option.bind_eq_some_iff, Option.some.injEq]
  constructor
  · rintro ⟨w, hw, x, hx, y, hy, z, hz, rfl⟩
    exact ⟨w, x, y, z, hw, hx, hy, hz, rfl⟩
  · rintro ⟨w, x, y, z, hw, hx, hy, hz, rfl⟩
    exact ⟨w, hw, x, hx, y, hy, z, hz, rfl⟩

theorem hex4_lt {a b c d : Char} {u : ℕ} (h : hex4 a b c d = some u) : u < 0x10000 := by
  obtain ⟨w, x, y, z, hw, hx, hy, hz, rfl⟩ := hex4_eq_some.1 h
  have := hexDigit?_lt hw
  have := hexDigit?_lt hx
  have := hexDigit?_lt hy
  have := hexDigit?_lt hz
  omega

theorem simpleEscape?_lt {e : Char} {u : ℕ} (h : simpleEscape? e = some u) : u < 0x80 := by
  unfold simpleEscape? at h
  split at h <;> simp only [Option.some.injEq, reduceCtorEq] at h <;> omega

/-- Every code unit of a literal is a code unit. -/
theorem StringBody.lt {t : List Char} {us : List ℕ} {r : List Char} (h : StringBody t us r) :
    ∀ u ∈ us, u < 0x10000 := by
  induction h with
  | close => simp
  | @plain c t us r hc _ ih =>
    intro u hu
    rcases List.mem_append.1 hu with hu | hu
    · exact utf16_lt [c] u (by simpa [utf16] using hu)
    · exact ih u hu
  | escape he _ ih =>
    refine List.forall_mem_cons.2 ⟨?_, ih⟩
    have := simpleEscape?_lt he
    omega
  | unicode hx _ ih => exact List.forall_mem_cons.2 ⟨hex4_lt hx, ih⟩

end Strings

/-! ## Whitespace -/

section Whitespace

def isSpace (c : Char) : Bool := c = ' ' || c = '\t' || c = '\n' || c = '\r'

/-- `t` is whitespace and then `r`. -/
inductive Ws : List Char → List Char → Prop
  | nil (r : List Char) : Ws r r
  | cons {c : Char} {t r : List Char} : isSpace c = true → Ws t r → Ws (c :: t) r

theorem Ws.trans {t u r : List Char} (h : Ws t u) (h' : Ws u r) : Ws t r := by
  induction h with
  | nil => exact h'
  | cons hc _ ih => exact .cons hc (ih h')

/-- The text without the whitespace it starts with. -/
def skipSpace : List Char → List Char
  | [] => []
  | c :: t => if isSpace c then skipSpace t else c :: t

theorem ws_skipSpace (t : List Char) : Ws t (skipSpace t) := by
  induction t with
  | nil => exact .nil []
  | cons c t ih =>
    unfold skipSpace
    split_ifs with hc
    · exact .cons hc ih
    · exact .nil _

theorem Ws.skipSpace_eq {t r : List Char} (h : Ws t r) : skipSpace t = skipSpace r := by
  induction h with
  | nil => rfl
  | cons hc _ ih => rw [skipSpace, if_pos hc, ih]

theorem skipSpace_cons {c : Char} (hc : isSpace c = false) (t : List Char) :
    skipSpace (c :: t) = c :: t := by
  simp [skipSpace, hc]

theorem skipSpace_idem (t : List Char) : skipSpace (skipSpace t) = skipSpace t :=
  (ws_skipSpace t).skipSpace_eq.symm

theorem skipSpace_eq_cons {t r : List Char} {c : Char} (h : skipSpace t = c :: r) :
    isSpace c = false := by
  induction t with
  | nil => simp [skipSpace] at h
  | cons d t ih =>
    unfold skipSpace at h
    split_ifs at h with hd
    · exact ih h
    · rw [List.cons.injEq] at h
      rw [← h.1]
      exact Bool.eq_false_iff.2 hd

theorem length_skipSpace (t : List Char) : (skipSpace t).length ≤ t.length := by
  induction t with
  | nil => simp [skipSpace]
  | cons c t ih =>
    unfold skipSpace
    split_ifs
    · simp only [List.length_cons]
      omega
    · exact le_rfl

end Whitespace

/-! ## Texts -/

section Texts

variable {σ ν : Type}

/-- What a piece of text can be: a value, the elements of an array, the members of an object. -/
inductive Symbol (σ ν : Type) where
  | value (v : Json σ ν)
  | elements (xs : List (Json σ ν))
  | members (ms : List (σ × Json σ ν))

/-- `Reads S N g t r`: `t` is a text of `g` followed by `r`. Elements and members come with the
whitespace around them, and there is at least one. -/
inductive Reads (S : List Char → σ → List Char → Prop) (N : List Char → ν → List Char → Prop) :
    Symbol σ ν → List Char → List Char → Prop
  | null (r : List Char) : Reads S N (.value .null) ('n' :: 'u' :: 'l' :: 'l' :: r) r
  | true (r : List Char) : Reads S N (.value (.bool true)) ('t' :: 'r' :: 'u' :: 'e' :: r) r
  | false (r : List Char) :
      Reads S N (.value (.bool false)) ('f' :: 'a' :: 'l' :: 's' :: 'e' :: r) r
  | num {n : ν} {t r : List Char} : N t n r → Reads S N (.value (.num n)) t r
  | str {s : σ} {t r : List Char} : S t s r → Reads S N (.value (.str s)) ('"' :: t) r
  | emptyArr {t r : List Char} : Ws t (']' :: r) → Reads S N (.value (.arr [])) ('[' :: t) r
  | arr {xs : List (Json σ ν)} {t r : List Char} :
      Reads S N (.elements xs) t (']' :: r) → Reads S N (.value (.arr xs)) ('[' :: t) r
  | emptyObj {t r : List Char} : Ws t ('}' :: r) → Reads S N (.value (.obj [])) ('{' :: t) r
  | obj {ms : List (σ × Json σ ν)} {t r : List Char} :
      Reads S N (.members ms) t ('}' :: r) → Reads S N (.value (.obj ms)) ('{' :: t) r
  | lastElement {x : Json σ ν} {t t₁ t₂ r : List Char} :
      Ws t t₁ → Reads S N (.value x) t₁ t₂ → Ws t₂ r → Reads S N (.elements [x]) t r
  | element {x : Json σ ν} {xs : List (Json σ ν)} {t t₁ t₂ t₃ r : List Char} :
      Ws t t₁ → Reads S N (.value x) t₁ t₂ → Ws t₂ (',' :: t₃) → Reads S N (.elements xs) t₃ r →
      Reads S N (.elements (x :: xs)) t r
  | lastMember {k : σ} {x : Json σ ν} {t t₁ t₂ t₃ t₄ t₅ r : List Char} :
      Ws t ('"' :: t₁) → S t₁ k t₂ → Ws t₂ (':' :: t₃) → Ws t₃ t₄ → Reads S N (.value x) t₄ t₅ →
      Ws t₅ r → Reads S N (.members [(k, x)]) t r
  | member {k : σ} {x : Json σ ν} {ms : List (σ × Json σ ν)} {t t₁ t₂ t₃ t₄ t₅ t₆ r : List Char} :
      Ws t ('"' :: t₁) → S t₁ k t₂ → Ws t₂ (':' :: t₃) → Ws t₃ t₄ → Reads S N (.value x) t₄ t₅ →
      Ws t₅ (',' :: t₆) → Reads S N (.members ms) t₆ r → Reads S N (.members ((k, x) :: ms)) t r

/-- `t` is a JSON text of `v`. -/
def Text (S : List Char → σ → List Char → Prop) (N : List Char → ν → List Char → Prop)
    (v : Json σ ν) (t : List Char) : Prop :=
  ∃ t₁ t₂, Ws t t₁ ∧ Reads S N (.value v) t₁ t₂ ∧ Ws t₂ []

/-- A number literal that denotes itself. -/
def LiteralOf (t : List Char) (n : Number) (r : List Char) : Prop := t = n.text ++ r

/-- A number literal that denotes the double it rounds to. -/
def NumberOf (t : List Char) (x : Binary64) (r : List Char) : Prop :=
  ∃ n : Number, t = n.text ++ r ∧ Binary64.nearest n.value = some x

end Texts

/-! ## Where a text starts and ends -/

section Ends

variable {σ ν : Type}

/-- Strings are read from string literals and numbers from number literals. -/
structure Lexical (S : List Char → σ → List Char → Prop) (N : List Char → ν → List Char → Prop) :
    Prop where
  string : ∀ {t s r}, S t s r → ∃ us, StringBody t us r
  number : ∀ {t n r}, N t n r → ∃ m : Number, t = m.text ++ r

/-- A character that ends a value or a name, whitespace apart. -/
def IsSeparator (c : Char) : Prop := c = ',' ∨ c = ':' ∨ c = ']' ∨ c = '}'

theorem digitChar_start (d : Digit) :
    isSpace (digitChar d) = false ∧ ¬ IsSeparator (digitChar d) := by
  revert d
  unfold IsSeparator
  decide

theorem Number.text_start (n : Number) (r : List Char) :
    ∃ c t, n.text ++ r = c :: t ∧ isSpace c = false ∧ ¬ IsSeparator c := by
  obtain ⟨d, ds, h⟩ := int_eq_cons n
  unfold Number.text
  rw [h]
  split_ifs
  · exact ⟨'-', _, rfl, by decide, by unfold IsSeparator; decide⟩
  · exact ⟨digitChar d, _, rfl, digitChar_start d⟩

theorem StringBody.length_lt {t : List Char} {us : List ℕ} {r : List Char}
    (h : StringBody t us r) : r.length < t.length := by
  induction h with
  | close => simp
  | plain _ _ ih => exact ih.trans (Nat.lt_succ_self _)
  | escape _ _ ih =>
    simp only [List.length_cons]
    omega
  | unicode _ _ ih =>
    simp only [List.length_cons]
    omega

theorem Ws.length_le {t r : List Char} (h : Ws t r) : r.length ≤ t.length := by
  induction h with
  | nil => exact le_rfl
  | cons _ _ ih => exact ih.trans (Nat.le_succ _)

variable {S : List Char → σ → List Char → Prop} {N : List Char → ν → List Char → Prop}
  {t r : List Char}

theorem Reads.value_start (hSN : Lexical S N) {v : Json σ ν} (h : Reads S N (.value v) t r) :
    ∃ c t', t = c :: t' ∧ isSpace c = Bool.false ∧ ¬ IsSeparator c := by
  cases h with
  | num hn =>
    obtain ⟨m, rfl⟩ := hSN.number hn
    exact m.text_start r
  | null | true | false | str | emptyArr | arr | emptyObj | obj =>
    exact ⟨_, _, rfl, by decide, by unfold IsSeparator; decide⟩

theorem Reads.length_lt (hSN : Lexical S N) {g : Symbol σ ν} (h : Reads S N g t r) :
    r.length < t.length := by
  induction h with
  | null | true | false =>
    simp only [List.length_cons]
    omega
  | num hn =>
    obtain ⟨m, rfl⟩ := hSN.number hn
    obtain ⟨c, t, h, -⟩ := m.text_start []
    rw [List.append_nil] at h
    rw [h, List.cons_append, List.length_cons, List.length_append]
    omega
  | str hs =>
    obtain ⟨us, hs⟩ := hSN.string hs
    have := hs.length_lt
    rw [List.length_cons]
    omega
  | emptyArr h | emptyObj h =>
    have := h.length_le
    simp only [List.length_cons] at *
    omega
  | arr _ ih | obj _ ih =>
    simp only [List.length_cons] at *
    omega
  | lastElement hw _ hw' ih =>
    have := hw.length_le
    have := hw'.length_le
    omega
  | element hw _ hw' _ ih ih' =>
    have := hw.length_le
    have := hw'.length_le
    simp only [List.length_cons] at *
    omega
  | lastMember hw hs hcolon hw' _ hend ih =>
    obtain ⟨us, hs⟩ := hSN.string hs
    have := hs.length_lt
    have := hw.length_le
    have := hcolon.length_le
    have := hw'.length_le
    have := hend.length_le
    simp only [List.length_cons] at *
    omega
  | member hw hs hcolon hw' _ hcomma _ ih ih' =>
    obtain ⟨us, hs⟩ := hSN.string hs
    have := hs.length_lt
    have := hw.length_le
    have := hcolon.length_le
    have := hw'.length_le
    have := hcomma.length_le
    simp only [List.length_cons] at *
    omega

end Ends

end JsonText
