import Jumpship.Lib.JsonText

/-!
# JSON with comments

The grammar of JSON texts with other gaps between the tokens: `Reads W E g t r` takes a gap of `W`
where a JSON text has whitespace, and one of `E` before the bracket that closes an array or an object
with something in it. A text is read as the tree of its tokens, each string and number as it is
spelled.
-/

namespace Jsonc

open JsonText

/-! ## Gaps -/

section Gaps

/-- `t` is whitespace, line comments and block comments and then `r`. -/
inductive Trivia : List Char → List Char → Prop
  | nil (r : List Char) : Trivia r r
  | space {c : Char} {t r : List Char} : isSpace c = true → Trivia t r → Trivia (c :: t) r
  | line {text t r : List Char} : '\n' ∉ text → Trivia t r →
      Trivia ('/' :: '/' :: (text ++ '\n' :: t)) r
  | block {text t r : List Char} : ¬ ['*', '/'] <:+: text → Trivia t r →
      Trivia ('/' :: '*' :: (text ++ '*' :: '/' :: t)) r

/-- A gap with at most one comma in it. -/
inductive Ended (W : List Char → List Char → Prop) : List Char → List Char → Prop
  | plain {t r : List Char} : W t r → Ended W t r
  | comma {t u r : List Char} : W t (',' :: u) → W u r → Ended W t r

end Gaps

/-! ## Texts -/

section Texts

/-- The rest of a string literal, down to its closing quote. -/
def Body (s : List Char) : Prop := ∃ us, StringBody s us []

/-- A string literal that denotes its own spelling. -/
def SpellingOf (t s r : List Char) : Prop := Body s ∧ t = s ++ r

/-- The tokens of a text, in the structure it gives them. -/
abbrev Tokens := Json (List Char) Number

/-- As `JsonText.Reads`; elements and members come with the bracket that closes them. -/
inductive Reads (W E : List Char → List Char → Prop) :
    JsonText.Symbol (List Char) Number → List Char → List Char → Prop
  | null (r : List Char) : Reads W E (.value .null) ('n' :: 'u' :: 'l' :: 'l' :: r) r
  | true (r : List Char) : Reads W E (.value (.bool true)) ('t' :: 'r' :: 'u' :: 'e' :: r) r
  | false (r : List Char) :
      Reads W E (.value (.bool false)) ('f' :: 'a' :: 'l' :: 's' :: 'e' :: r) r
  | num (n : Number) (r : List Char) : Reads W E (.value (.num n)) (n.text ++ r) r
  | str {s : List Char} (r : List Char) : Body s → Reads W E (.value (.str s)) ('"' :: (s ++ r)) r
  | emptyArr {t r : List Char} : W t (']' :: r) → Reads W E (.value (.arr [])) ('[' :: t) r
  | arr {xs : List Tokens} {t r : List Char} :
      Reads W E (.elements xs) t r → Reads W E (.value (.arr xs)) ('[' :: t) r
  | emptyObj {t r : List Char} : W t ('}' :: r) → Reads W E (.value (.obj [])) ('{' :: t) r
  | obj {ms : List (List Char × Tokens)} {t r : List Char} :
      Reads W E (.members ms) t r → Reads W E (.value (.obj ms)) ('{' :: t) r
  | lastElement {x : Tokens} {t t₁ t₂ r : List Char} :
      W t t₁ → Reads W E (.value x) t₁ t₂ → E t₂ (']' :: r) → Reads W E (.elements [x]) t r
  | element {x : Tokens} {xs : List Tokens} {t t₁ t₂ t₃ r : List Char} :
      W t t₁ → Reads W E (.value x) t₁ t₂ → W t₂ (',' :: t₃) → Reads W E (.elements xs) t₃ r →
      Reads W E (.elements (x :: xs)) t r
  | lastMember {k : List Char} {x : Tokens} {t t₂ t₃ t₄ t₅ r : List Char} :
      W t ('"' :: (k ++ t₂)) → Body k → W t₂ (':' :: t₃) → W t₃ t₄ → Reads W E (.value x) t₄ t₅ →
      E t₅ ('}' :: r) → Reads W E (.members [(k, x)]) t r
  | member {k : List Char} {x : Tokens} {ms : List (List Char × Tokens)}
      {t t₂ t₃ t₄ t₅ t₆ r : List Char} :
      W t ('"' :: (k ++ t₂)) → Body k → W t₂ (':' :: t₃) → W t₃ t₄ → Reads W E (.value x) t₄ t₅ →
      W t₅ (',' :: t₆) → Reads W E (.members ms) t₆ r → Reads W E (.members ((k, x) :: ms)) t r

/-- `t` is a text of the tokens `d`, with these gaps between them. -/
def TextOf (W E : List Char → List Char → Prop) (d : Tokens) (t : List Char) : Prop :=
  ∃ t₁ t₂, W t t₁ ∧ Reads W E (.value d) t₁ t₂ ∧ W t₂ []

/-- `t` is a text of the tokens `d` with comments between them, and a comma after the last element or
member where there is one. -/
def Text : Tokens → List Char → Prop := TextOf Trivia (Ended Trivia)

/-- `t` is a JSON text. -/
def IsJson (t : List Char) : Prop := ∃ d, JsonText.Text SpellingOf LiteralOf d t

/-- `t` has the tokens of the JSON text `j` in the same structure, with whitespace and comments
between them and a comma after the last element or member where there is one. -/
def Commented (j t : List Char) : Prop := ∃ d, JsonText.Text SpellingOf LiteralOf d j ∧ Text d t

/-- What a JSON text is, as a text with these gaps. -/
def Closes : JsonText.Symbol (List Char) Number → List Char → List Char → Prop
  | .value d, t, r => Reads Ws Ws (.value d) t r
  | .elements xs, t, r => ∀ r', r = ']' :: r' → Reads Ws Ws (.elements xs) t r'
  | .members ms, t, r => ∀ r', r = '}' :: r' → Reads Ws Ws (.members ms) t r'

theorem closes_of_reads {g : JsonText.Symbol (List Char) Number} {t r : List Char}
    (h : JsonText.Reads SpellingOf LiteralOf g t r) : Closes g t r := by
  induction h with
  | null r => exact .null r
  | true r => exact .true r
  | false r => exact .false r
  | num h =>
    obtain rfl := h
    exact .num _ _
  | str h =>
    obtain ⟨hs, rfl⟩ := h
    exact .str _ hs
  | emptyArr h => exact .emptyArr h
  | arr _ ih => exact .arr (ih _ rfl)
  | emptyObj h => exact .emptyObj h
  | obj _ ih => exact .obj (ih _ rfl)
  | lastElement hw _ hend ih =>
    rintro r' rfl
    exact .lastElement hw ih hend
  | element hw _ hcomma _ ih ih' =>
    rintro r' rfl
    exact .element hw ih hcomma (ih' r' rfl)
  | lastMember hw hs hcolon hw' _ hend ih =>
    obtain ⟨hk, rfl⟩ := hs
    rintro r' rfl
    exact .lastMember hw hk hcolon hw' ih hend
  | member hw hs hcolon hw' _ hcomma _ ih ih' =>
    obtain ⟨hk, rfl⟩ := hs
    rintro r' rfl
    exact .member hw hk hcolon hw' ih hcomma (ih' r' rfl)

/-- What a text with these gaps is, as a JSON text. -/
def Opens : JsonText.Symbol (List Char) Number → List Char → List Char → Prop
  | .value d, t, r => JsonText.Reads SpellingOf LiteralOf (.value d) t r
  | .elements xs, t, r => JsonText.Reads SpellingOf LiteralOf (.elements xs) t (']' :: r)
  | .members ms, t, r => JsonText.Reads SpellingOf LiteralOf (.members ms) t ('}' :: r)

theorem opens_of_reads {g : JsonText.Symbol (List Char) Number} {t r : List Char}
    (h : Reads Ws Ws g t r) : Opens g t r := by
  induction h with
  | null r => exact .null r
  | true r => exact .true r
  | false r => exact .false r
  | num n r => exact .num rfl
  | str r hs => exact .str ⟨hs, rfl⟩
  | emptyArr h => exact .emptyArr h
  | arr _ ih => exact .arr ih
  | emptyObj h => exact .emptyObj h
  | obj _ ih => exact .obj ih
  | lastElement hw _ hend ih => exact .lastElement hw ih hend
  | element hw _ hcomma _ ih ih' => exact .element hw ih hcomma ih'
  | lastMember hw hk hcolon hw' _ hend ih => exact .lastMember hw ⟨hk, rfl⟩ hcolon hw' ih hend
  | member hw hk hcolon hw' _ hcomma _ ih ih' =>
    exact .member hw ⟨hk, rfl⟩ hcolon hw' ih hcomma ih'

/-- A JSON text is one whose gaps are whitespace. -/
theorem textOf_iff_json {d : Tokens} {t : List Char} :
    TextOf Ws Ws d t ↔ JsonText.Text SpellingOf LiteralOf d t := by
  constructor
  · rintro ⟨t₁, t₂, hw, hd, hw'⟩
    exact ⟨t₁, t₂, hw, opens_of_reads hd, hw'⟩
  · rintro ⟨t₁, t₂, hw, hd, hw'⟩
    exact ⟨t₁, t₂, hw, closes_of_reads hd, hw'⟩

end Texts

/-! ## Rewriting the gaps -/

section Rewriting

variable {W E W' E' : List Char → List Char → Prop} {F : List Char → List Char → Prop}
  {t t' r r' : List Char}

/-- The characters that a value can start with. -/
def startChars : List Char :=
  ['"', '{', '[', 'n', 't', 'f', '-', '0', '1', '2', '3', '4', '5', '6', '7', '8', '9']

def IsStart (c : Char) : Prop := c ∈ startChars

/-- `F` relates what is left of a text with what is left of another that has the same tokens: it lets
them pass, and takes the gaps `W` and `E` to the gaps `W'` and `E'`. -/
structure Passes (F W E W' E' : List Char → List Char → Prop) : Prop where
  plain : ∀ {c r r'}, F r r' → c ≠ '"' → c ≠ '/' → c ≠ ',' → F (c :: r) (c :: r')
  string : ∀ {s r r'}, F r r' → Body s → F ('"' :: (s ++ r)) ('"' :: (s ++ r'))
  comma : ∀ {c r r' u}, F r r' → W r (c :: u) → IsStart c → F (',' :: r) (',' :: r')
  gap : ∀ {t r r'}, W t r → F r r' → ∃ t', F t t' ∧ W' t' r'
  closing : ∀ {b t r r'}, b = ']' ∨ b = '}' → E t (b :: r) → F r r' →
    ∃ t', F t t' ∧ E' t' (b :: r')

theorem isStart_digitChar (d : Digit) : IsStart (digitChar d) := by
  revert d
  unfold IsStart
  decide

theorem isStart_number (n : Number) (r : List Char) : ∃ c u, n.text ++ r = c :: u ∧ IsStart c := by
  obtain ⟨d, ds, h⟩ := int_eq_cons n
  rw [Number.text, h]
  split_ifs
  · exact ⟨'-', _, rfl, by unfold IsStart; decide⟩
  · exact ⟨digitChar d, _, rfl, isStart_digitChar d⟩

theorem Reads.value_start {d : Tokens} (h : Reads W E (.value d) t r) :
    ∃ c u, t = c :: u ∧ IsStart c := by
  cases h with
  | num n r => exact isStart_number n r
  | null | true | false | str | emptyArr | arr | emptyObj | obj =>
    exact ⟨_, _, rfl, by unfold IsStart; decide⟩

theorem Reads.elements_start {xs : List Tokens} (h : Reads W E (.elements xs) t r) :
    ∃ c u, W t (c :: u) ∧ IsStart c := by
  have hvalue : ∀ {x : Tokens} {t₁ t₂}, W t t₁ → Reads W E (.value x) t₁ t₂ →
      ∃ c u, W t (c :: u) ∧ IsStart c := by
    intro x t₁ t₂ hw hx
    obtain ⟨c, u, rfl, hc⟩ := hx.value_start
    exact ⟨c, u, hw, hc⟩
  cases h with
  | lastElement hw hx => exact hvalue hw hx
  | element hw hx => exact hvalue hw hx

theorem Reads.members_start {ms : List (List Char × Tokens)} (h : Reads W E (.members ms) t r) :
    ∃ u, W t ('"' :: u) := by
  cases h with
  | lastMember hw => exact ⟨_, hw⟩
  | member hw => exact ⟨_, hw⟩

/-- The characters of a number literal are none that a rewriting looks at. -/
theorem plain_number (n : Number) : ∀ c ∈ n.text, c ≠ '"' ∧ c ≠ '/' ∧ c ≠ ',' := by
  have hdigit : ∀ d : Digit, digitChar d ≠ '"' ∧ digitChar d ≠ '/' ∧ digitChar d ≠ ',' := by decide
  have hdigits : ∀ (ds : List Digit), ∀ c ∈ ds.map digitChar, c ≠ '"' ∧ c ≠ '/' ∧ c ≠ ',' := by
    intro ds c hc
    obtain ⟨d, -, rfl⟩ := List.mem_map.1 hc
    exact hdigit d
  have hsign : ∀ sign, ∀ c ∈ signText sign, c ≠ '"' ∧ c ≠ '/' ∧ c ≠ ',' := by
    intro sign
    rcases sign with _ | _ | _ <;> simp [signText]
  intro c hc
  simp only [Number.text, List.mem_append, fracText] at hc
  rcases hc with hc | hc | hc | hc
  · split_ifs at hc
    · obtain rfl := List.mem_singleton.1 hc
      decide
    · cases hc
  · exact hdigits _ c hc
  · split_ifs at hc
    · cases hc
    · rcases List.mem_cons.1 hc with rfl | hc
      · decide
      · exact hdigits _ c hc
  · rcases hexp : n.exp with _ | e
    · rw [hexp] at hc
      cases hc
    · rw [hexp, expText, Exponent.text] at hc
      rcases List.mem_cons.1 hc with rfl | hc
      · split_ifs <;> decide
      · exact (List.mem_append.1 hc).elim (hsign _ c) (hdigits _ c)

theorem Passes.append (hF : Passes F W E W' E') {w : List Char}
    (hw : ∀ c ∈ w, c ≠ '"' ∧ c ≠ '/' ∧ c ≠ ',') (h : F r r') : F (w ++ r) (w ++ r') := by
  induction w with
  | nil => exact h
  | cons c w ih =>
    obtain ⟨⟨hquote, hslash, hcomma⟩, hw⟩ := List.forall_mem_cons.1 hw
    exact hF.plain (ih hw) hquote hslash hcomma

/-- The tokens pass, and every gap becomes one of the other kind. -/
theorem Reads.rewrite (hF : Passes F W E W' E') {g : JsonText.Symbol (List Char) Number}
    (h : Reads W E g t r) : ∀ r', F r r' → ∃ t', F t t' ∧ Reads W' E' g t' r' := by
  have hplain : ∀ {c r r'}, F r r' → c ∈ "[]{}:".toList → F (c :: r) (c :: r') := by
    intro c r r' h hc
    refine hF.plain h ?_ ?_ ?_ <;> rintro rfl <;> revert hc <;> decide
  induction h with
  | null r => exact fun r' h => ⟨_, hF.append (w := "null".toList) (by simp) h, .null r'⟩
  | true r => exact fun r' h => ⟨_, hF.append (w := "true".toList) (by simp) h, .true r'⟩
  | false r => exact fun r' h => ⟨_, hF.append (w := "false".toList) (by simp) h, .false r'⟩
  | num n r => exact fun r' h => ⟨_, hF.append (plain_number n) h, .num n r'⟩
  | str r hs => exact fun r' h => ⟨_, hF.string h hs, .str r' hs⟩
  | emptyArr hw =>
    intro r' h
    obtain ⟨t', ht, hw'⟩ := hF.gap hw (hplain h (by decide))
    exact ⟨_, hplain ht (by decide), .emptyArr hw'⟩
  | arr _ ih =>
    intro r' h
    obtain ⟨t', ht, hxs⟩ := ih r' h
    exact ⟨_, hplain ht (by decide), .arr hxs⟩
  | emptyObj hw =>
    intro r' h
    obtain ⟨t', ht, hw'⟩ := hF.gap hw (hplain h (by decide))
    exact ⟨_, hplain ht (by decide), .emptyObj hw'⟩
  | obj _ ih =>
    intro r' h
    obtain ⟨t', ht, hms⟩ := ih r' h
    exact ⟨_, hplain ht (by decide), .obj hms⟩
  | lastElement hw _ hend ih =>
    intro r' h
    obtain ⟨t₂', h₂, hend'⟩ := hF.closing (.inl rfl) hend h
    obtain ⟨t₁', h₁, hx⟩ := ih t₂' h₂
    obtain ⟨t', ht, hw'⟩ := hF.gap hw h₁
    exact ⟨t', ht, .lastElement hw' hx hend'⟩
  | element hw _ hcomma hxs ih ih' =>
    intro r' h
    obtain ⟨t₃', h₃, hxs'⟩ := ih' r' h
    obtain ⟨c, u, hgap, hc⟩ := hxs.elements_start
    obtain ⟨t₂', h₂, hcomma'⟩ := hF.gap hcomma (hF.comma h₃ hgap hc)
    obtain ⟨t₁', h₁, hx⟩ := ih t₂' h₂
    obtain ⟨t', ht, hw'⟩ := hF.gap hw h₁
    exact ⟨t', ht, .element hw' hx hcomma' hxs'⟩
  | lastMember hw hk hcolon hvalue _ hend ih =>
    intro r' h
    obtain ⟨t₅', h₅, hend'⟩ := hF.closing (.inr rfl) hend h
    obtain ⟨t₄', h₄, hx⟩ := ih t₅' h₅
    obtain ⟨t₃', h₃, hvalue'⟩ := hF.gap hvalue h₄
    obtain ⟨t₂', h₂, hcolon'⟩ := hF.gap hcolon (hplain h₃ (by decide))
    obtain ⟨t', ht, hw'⟩ := hF.gap hw (hF.string h₂ hk)
    exact ⟨t', ht, .lastMember hw' hk hcolon' hvalue' hx hend'⟩
  | member hw hk hcolon hvalue _ hcomma hms ih ih' =>
    intro r' h
    obtain ⟨t₆', h₆, hms'⟩ := ih' r' h
    obtain ⟨u, hgap⟩ := hms.members_start
    obtain ⟨t₅', h₅, hcomma'⟩ := hF.gap hcomma (hF.comma h₆ hgap (by unfold IsStart; decide))
    obtain ⟨t₄', h₄, hx⟩ := ih t₅' h₅
    obtain ⟨t₃', h₃, hvalue'⟩ := hF.gap hvalue h₄
    obtain ⟨t₂', h₂, hcolon'⟩ := hF.gap hcolon (hplain h₃ (by decide))
    obtain ⟨t', ht, hw'⟩ := hF.gap hw (hF.string h₂ hk)
    exact ⟨t', ht, .member hw' hk hcolon' hvalue' hx hcomma' hms'⟩

theorem TextOf.rewrite (hF : Passes F W E W' E') (hnil : F [] []) {d : Tokens} (h : TextOf W E d t) :
    ∃ t', F t t' ∧ TextOf W' E' d t' := by
  obtain ⟨t₁, t₂, hw, hd, hend⟩ := h
  obtain ⟨t₂', h₂, hend'⟩ := hF.gap hend hnil
  obtain ⟨t₁', h₁, hd'⟩ := hd.rewrite hF t₂' h₂
  obtain ⟨t', ht, hw'⟩ := hF.gap hw h₁
  exact ⟨t', ht, t₁', t₂', hw', hd', hend'⟩

end Rewriting

end Jsonc
