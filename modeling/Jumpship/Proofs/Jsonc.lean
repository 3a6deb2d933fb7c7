import Jumpship.Architecture.Jsonc
import Jumpship.Lib.Jsonc
import Jumpship.Proofs.PyJson

/-!
# Reducing JSONC to JSON

Both passes keep every character's place. The first turns each gap of a JSONC text into whitespace and
the second takes the commas out of the gaps before the closing brackets; the tokens pass through both,
so what is left is a JSON text of the same tokens and `json.loads` reads the same value from it.
-/

namespace Architecture

open JsonText Jsonc Py

variable {t t' r r' s u : List Char} {c : Char}

/-! ## Places -/

section Places

theorem newlines_stripJsoncCommentsFrom (state : CommentState) (t : List Char) :
    (stripJsoncCommentsFrom state t).map (· = '\n') = t.map (· = '\n') := by
  fun_induction stripJsoncCommentsFrom state t <;> simp_all

theorem newlines_stripJsoncTrailingCommasFrom (state : StringState) (t : List Char) :
    (stripJsoncTrailingCommasFrom state t).map (· = '\n') = t.map (· = '\n') := by
  fun_induction stripJsoncTrailingCommasFrom state t <;> simp_all

theorem newlines_reduceJsonc (t : List Char) : (reduceJsonc t).map (· = '\n') = t.map (· = '\n') := by
  rw [reduceJsonc, stripJsoncTrailingCommas, newlines_stripJsoncTrailingCommasFrom,
    stripJsoncComments, newlines_stripJsoncCommentsFrom]

end Places

/-! ## String literals -/

section Strings

theorem hexDigit?_outside {c : Char} (h : (hexDigit? c).isSome) : c ≠ '"' ∧ c ≠ '\\' := by
  constructor <;> rintro rfl <;> revert h <;> decide

theorem nextInside_plain (hquote : c ≠ '"') (hescape : c ≠ '\\') :
    nextInside false c = .inside false := by
  simp [nextInside, hquote, hescape]

/-- A scanner that keeps the characters of a string is outside again behind its closing quote. -/
theorem inside_body {f : StringState → List Char → List Char}
    (hf : ∀ escaped c t, f (.inside escaped) (c :: t) = c :: f (nextInside escaped c) t)
    (hs : Body s) (u : List Char) : f (.inside false) (s ++ u) = s ++ f .outside u := by
  obtain ⟨us, hs⟩ := hs
  have hescaped : nextInside false '\\' = .inside true := rfl
  have hnext : ∀ c, nextInside true c = .inside false := fun _ => rfl
  generalize hnil : ([] : List Char) = end' at hs
  induction hs with
  | close r =>
    subst hnil
    rw [List.cons_append, hf]
    rfl
  | plain hc _ ih =>
    rw [List.cons_append, hf, nextInside_plain hc.2.1 hc.2.2, ih hnil, List.cons_append]
  | escape he _ ih =>
    simp only [List.cons_append, hf, hescaped, hnext, ih hnil]
  | @unicode a b c d n t us r hhex _ ih =>
    obtain ⟨w, x, y, z, hw, hx, hy, hz, -⟩ := hex4_eq_some.1 hhex
    have hkeep : ∀ {c n} (t : List Char), hexDigit? c = some n →
        f (.inside false) (c :: t) = c :: f (.inside false) t := by
      intro c n t hc
      obtain ⟨hquote, hescape⟩ := hexDigit?_outside (c := c) (by rw [hc]; rfl)
      rw [hf, nextInside_plain hquote hescape]
    simp only [List.cons_append]
    rw [hf, hescaped, hf, hnext, hkeep _ hw, hkeep _ hx, hkeep _ hy, hkeep _ hz, ih hnil]

end Strings

/-! ## Comments -/

section Comments

theorem stripJsoncComments_quote (hs : Body s) (u : List Char) :
    stripJsoncComments ('"' :: (s ++ u)) = '"' :: (s ++ stripJsoncComments u) := by
  rw [stripJsoncComments, stripJsoncCommentsFrom]
  exact congrArg _ (inside_body (f := fun state => stripJsoncCommentsFrom (.text state))
    (fun escaped c t => by rw [stripJsoncCommentsFrom]) hs u)

theorem stripJsoncComments_plain (hquote : c ≠ '"') (hslash : c ≠ '/') (t : List Char) :
    stripJsoncComments (c :: t) = c :: stripJsoncComments t := by
  rw [stripJsoncComments, stripJsoncCommentsFrom]
  · rfl
  · exact fun h => hquote h
  · exact fun rest h => absurd h hslash
  · exact fun rest h => absurd h hslash

theorem ws_line (htext : '\n' ∉ s) (t : List Char) :
    Ws (stripJsoncCommentsFrom .line (s ++ '\n' :: t)) (stripJsoncComments t) := by
  induction s with
  | nil =>
    rw [List.nil_append, stripJsoncCommentsFrom]
    exact .cons (by decide) (.nil _)
  | cons c s ih =>
    rw [List.mem_cons, not_or] at htext
    rw [List.cons_append, stripJsoncCommentsFrom]
    · exact .cons (by decide) (ih htext.2)
    · exact fun h => htext.1 h.symm

theorem ws_block (htext : ¬ ['*', '/'] <:+: s) (t : List Char) :
    Ws (stripJsoncCommentsFrom .block (s ++ '*' :: '/' :: t)) (stripJsoncComments t) := by
  induction s with
  | nil =>
    rw [List.nil_append, stripJsoncCommentsFrom]
    exact .cons (by decide) (.cons (by decide) (.nil _))
  | cons c s ih =>
    rw [List.cons_append, stripJsoncCommentsFrom]
    · refine .cons ?_ (ih fun h => htext (h.trans (List.suffix_cons c s).isInfix))
      split_ifs <;> decide
    · -- The character does not close the comment with the one behind it.
      intro rest hc hrest
      subst hc
      rcases s with _ | ⟨d, s⟩
      · exact absurd (List.cons.inj hrest).1 (by decide)
      · obtain ⟨rfl, -⟩ := List.cons.inj hrest
        exact htext ⟨[], s, rfl⟩

theorem ws_stripJsoncComments (h : Trivia t r) :
    Ws (stripJsoncComments t) (stripJsoncComments r) := by
  induction h with
  | nil r => exact .nil _
  | @space c t r hc _ ih =>
    rw [stripJsoncComments_plain]
    · exact .cons hc ih
    · rintro rfl
      exact absurd hc (by decide)
    · rintro rfl
      exact absurd hc (by decide)
  | @line text t r htext _ ih =>
    rw [stripJsoncComments, stripJsoncCommentsFrom]
    exact .cons (by decide) (.cons (by decide) ((ws_line htext t).trans ih))
  | @block text t r htext _ ih =>
    rw [stripJsoncComments, stripJsoncCommentsFrom]
    exact .cons (by decide) (.cons (by decide) ((ws_block htext t).trans ih))

theorem passes_comments : Passes (fun t t' => stripJsoncComments t = t') Trivia (Ended Trivia) Ws
    (Ended Ws) where
  plain h hquote hslash _ := by rw [stripJsoncComments_plain hquote hslash, h]
  string h hs := by rw [stripJsoncComments_quote hs, h]
  comma h _ _ := by rw [stripJsoncComments_plain (by decide) (by decide), h]
  gap ht h := ⟨_, rfl, h ▸ ws_stripJsoncComments ht⟩
  closing := by
    rintro b t r _ hb hend rfl
    have hbracket : stripJsoncComments (b :: r) = b :: stripJsoncComments r := by
      rcases hb with rfl | rfl <;> rw [stripJsoncComments_plain (by decide) (by decide)]
    refine ⟨_, rfl, ?_⟩
    cases hend with
    | plain hw => exact .plain (hbracket ▸ ws_stripJsoncComments hw)
    | comma hw hw' =>
      have hcomma := ws_stripJsoncComments hw
      rw [stripJsoncComments_plain (by decide) (by decide)] at hcomma
      exact .comma hcomma (hbracket ▸ ws_stripJsoncComments hw')

end Comments

/-! ## Trailing commas -/

section Commas

theorem stripJsoncTrailingCommas_quote (hs : Body s) (u : List Char) :
    stripJsoncTrailingCommas ('"' :: (s ++ u)) = '"' :: (s ++ stripJsoncTrailingCommas u) := by
  rw [stripJsoncTrailingCommas, stripJsoncTrailingCommasFrom, if_pos rfl]
  exact congrArg _ (inside_body (f := stripJsoncTrailingCommasFrom)
    (fun escaped c t => by rw [stripJsoncTrailingCommasFrom]) hs u)

theorem stripJsoncTrailingCommas_plain (hquote : c ≠ '"') (hcomma : c ≠ ',') (t : List Char) :
    stripJsoncTrailingCommas (c :: t) = c :: stripJsoncTrailingCommas t := by
  rw [stripJsoncTrailingCommas, stripJsoncTrailingCommasFrom, if_neg hquote,
    if_neg (by simp [hcomma])]
  rfl

theorem stripJsoncTrailingCommas_comma (t : List Char) : stripJsoncTrailingCommas (',' :: t) =
    (if closesNext t then ' ' else ',') :: stripJsoncTrailingCommas t := by
  rw [stripJsoncTrailingCommas, stripJsoncTrailingCommasFrom, if_neg (by decide)]
  cases closesNext t <;> rfl

theorem isSpaceCode_of_isSpace (h : isSpace c = true) : isSpaceCode c.toNat = true := by
  simp only [isSpace, Bool.or_eq_true, decide_eq_true_eq] at h
  rcases h with ((rfl | rfl) | rfl) | rfl <;> decide

theorem closesNext_of_ws (h : Ws t r) : closesNext t = closesNext r := by
  induction h with
  | nil => rfl
  | cons hc _ ih => rw [closesNext, if_pos (isSpaceCode_of_isSpace hc), ih]

theorem closesNext_start (hc : IsStart c) (t : List Char) : closesNext (c :: t) = false := by
  unfold IsStart startChars at hc
  fin_cases hc <;> rfl

theorem closesNext_bracket {b : Char} (hb : b = ']' ∨ b = '}') (t : List Char) :
    closesNext (b :: t) = true := by
  rcases hb with rfl | rfl <;> rfl

theorem ws_stripJsoncTrailingCommas (h : Ws t r) :
    Ws (stripJsoncTrailingCommas t) (stripJsoncTrailingCommas r) := by
  induction h with
  | nil r => exact .nil _
  | @cons c t r hc _ ih =>
    rw [stripJsoncTrailingCommas_plain]
    · exact .cons hc ih
    · rintro rfl
      exact absurd hc (by decide)
    · rintro rfl
      exact absurd hc (by decide)

theorem passes_commas : Passes (fun t t' => stripJsoncTrailingCommas t = t') Ws (Ended Ws) Ws Ws where
  plain h hquote _ hcomma := by rw [stripJsoncTrailingCommas_plain hquote hcomma, h]
  string h hs := by rw [stripJsoncTrailingCommas_quote hs, h]
  comma h hw hc := by
    rw [stripJsoncTrailingCommas_comma, closesNext_of_ws hw, closesNext_start hc, h]
    rfl
  gap ht h := ⟨_, rfl, h ▸ ws_stripJsoncTrailingCommas ht⟩
  closing := by
    rintro b t r _ hb hend rfl
    have hbracket : stripJsoncTrailingCommas (b :: r) = b :: stripJsoncTrailingCommas r := by
      rcases hb with rfl | rfl <;> rw [stripJsoncTrailingCommas_plain (by decide) (by decide)]
    refine ⟨_, rfl, ?_⟩
    cases hend with
    | plain hw => exact hbracket ▸ ws_stripJsoncTrailingCommas hw
    | comma hw hw' =>
      have hcomma := ws_stripJsoncTrailingCommas hw
      rw [stripJsoncTrailingCommas_comma, closesNext_of_ws hw', closesNext_bracket hb, if_pos rfl]
        at hcomma
      exact hcomma.trans (.cons (by decide) (hbracket ▸ ws_stripJsoncTrailingCommas hw'))

end Commas

/-! ## JSON texts -/

section Texts

/-- A scanner that keeps the tokens, and a comma before a value, keeps a JSON text. -/
theorem passes_self {f : List Char → List Char}
    (hplain : ∀ {c : Char}, c ≠ '"' → c ≠ '/' → c ≠ ',' → ∀ t, f (c :: t) = c :: f t)
    (hstring : ∀ {s : List Char}, Body s → ∀ t, f ('"' :: (s ++ t)) = '"' :: (s ++ f t))
    (hcomma : ∀ {c : Char} {t u : List Char}, Ws t (c :: u) → IsStart c → f (',' :: t) = ',' :: f t) :
    Passes (fun t t' => f t = t ∧ t' = t) Ws Ws Ws Ws := by
  have hgap : ∀ {t r r' : List Char}, Ws t r → (f r = r ∧ r' = r) →
      ∃ t', (f t = t ∧ t' = t) ∧ Ws t' r' := by
    rintro t r _ ht ⟨h, rfl⟩
    refine ⟨t, ⟨?_, rfl⟩, ht⟩
    induction ht with
    | nil => exact h
    | @cons c t r hc _ ih =>
      rw [hplain _ _ _, ih h] <;> rintro rfl <;> exact absurd hc (by decide)
  exact {
    plain := by
      rintro c r _ ⟨h, rfl⟩ hquote hslash hc
      exact ⟨by rw [hplain hquote hslash hc, h], rfl⟩
    string := by
      rintro s r _ ⟨h, rfl⟩ hs
      exact ⟨by rw [hstring hs, h], rfl⟩
    comma := by
      rintro c r _ u ⟨h, rfl⟩ hw hc
      exact ⟨by rw [hcomma hw hc, h], rfl⟩
    gap := hgap
    closing := by
      rintro b t r _ hb ht ⟨h, rfl⟩
      refine hgap ht ⟨?_, rfl⟩
      rcases hb with rfl | rfl <;> rw [hplain (by decide) (by decide) (by decide), h] }

theorem reduceJsonc_json {d : Tokens} (h : JsonText.Text SpellingOf LiteralOf d t) :
    reduceJsonc t = t := by
  have htext := textOf_iff_json.2 h
  obtain ⟨-, ⟨hcomments, -⟩, -⟩ := htext.rewrite (passes_self (f := stripJsoncComments)
    (fun hquote hslash _ => stripJsoncComments_plain hquote hslash) stripJsoncComments_quote
    (fun _ _ => stripJsoncComments_plain (by decide) (by decide) _)) ⟨rfl, rfl⟩
  obtain ⟨-, ⟨hcommas, -⟩, -⟩ := htext.rewrite (passes_self (f := stripJsoncTrailingCommas)
    (fun hquote _ hc => stripJsoncTrailingCommas_plain hquote hc) stripJsoncTrailingCommas_quote
    (fun hw hc => by
      rw [stripJsoncTrailingCommas_comma, closesNext_of_ws hw, closesNext_start hc]
      rfl)) ⟨rfl, rfl⟩
  rw [reduceJsonc, hcomments, hcommas]

/-- What is left of a JSONC text is a JSON text of its tokens. -/
theorem json_reduceJsonc {d : Tokens} (h : Jsonc.Text d t) :
    JsonText.Text SpellingOf LiteralOf d (reduceJsonc t) := by
  obtain ⟨_, rfl, hcomments⟩ := h.rewrite passes_comments rfl
  obtain ⟨_, rfl, hcommas⟩ := hcomments.rewrite passes_commas rfl
  exact textOf_iff_json.1 hcommas

end Texts

/-! ## What json.loads reads -/

section Loads

/-- The text a string literal denotes to `json.loads`. -/
def literalOf (s : List Char) : Str :=
  match scanString s with
  | some (us, _) => strOf us
  | none => strOf []

mutual
/-- The value of a text with these tokens. -/
def valueOf : Tokens → Value
  | .null => .null
  | .bool b => .bool b
  | .num n => .num (numberOf n)
  | .str s => .str (literalOf s)
  | .arr xs => .arr (valuesOf xs)
  | .obj ms => .obj (dictOf (membersOf ms))
def valuesOf : List Tokens → List Value
  | [] => []
  | x :: xs => valueOf x :: valuesOf xs
def membersOf : List (List Char × Tokens) → List (Str × Value)
  | [] => []
  | (k, x) :: ms => (literalOf k, valueOf x) :: membersOf ms
end

theorem stringBody_append {us : List ℕ} (h : StringBody s us r) (u : List Char) :
    StringBody (s ++ u) us (r ++ u) := by
  induction h with
  | close r => exact .close _
  | plain hc _ ih => exact .plain hc ih
  | escape he _ ih => exact .escape he ih
  | unicode hx _ ih => exact .unicode hx ih

theorem scanString_body (hs : Body s) (t : List Char) :
    ∃ us, scanString (s ++ t) = some (us, t) ∧ strOf us = literalOf s := by
  obtain ⟨us, hs⟩ := hs
  refine ⟨us, ?_, ?_⟩
  · rw [scanString_eq]
    exact Go.scanString_of_stringBody (stringBody_append hs t)
  · rw [literalOf, scanString_eq, Go.scanString_of_stringBody hs]

theorem follow_of_ws (h : Ws t r) (hr : Go.Follow r) : Go.Follow t := by
  cases h with
  | nil => exact hr
  | cons hc _ =>
    simp only [isSpace, Bool.or_eq_true, decide_eq_true_eq] at hc
    obtain ((rfl | rfl) | rfl) | rfl := hc <;> exact ⟨rfl, by decide, by decide, by decide⟩

theorem follow_separator (hc : IsSeparator c) (t : List Char) : Go.Follow (c :: t) := by
  obtain rfl | rfl | rfl | rfl := hc <;> exact ⟨rfl, by decide, by decide, by decide⟩

theorem lexical_spelling : Lexical SpellingOf LiteralOf where
  string h := by
    obtain ⟨⟨us, hs⟩, rfl⟩ := h
    exact ⟨us, stringBody_append hs _⟩
  number h := ⟨_, h⟩

/-- The scanner reads a text of each kind, by the calls it may have in progress. -/
def Scans : JsonText.Symbol (List Char) JsonText.Number → List Char → List Char → Prop
  | .value d, t, r => ∀ fuel, Go.Follow r → t.length ≤ fuel + r.length →
      scanValue fuel t = some (valueOf d, r)
  | .elements xs, t, r => ∀ fuel r', r = ']' :: r' → t.length ≤ fuel + r'.length →
      scanElements fuel (skipSpace t) = some (valuesOf xs, r')
  | .members ms, t, r => ∀ fuel r', r = '}' :: r' → t.length ≤ fuel + r'.length →
      scanMembers fuel (skipSpace t) = some (membersOf ms, r')

theorem skipSpace_value {d : Tokens} (hw : Ws t u)
    (h : JsonText.Reads SpellingOf LiteralOf (.value d) u r) : skipSpace t = u := by
  obtain ⟨c, u', rfl, hc, -⟩ := h.value_start lexical_spelling
  rw [hw.skipSpace_eq, skipSpace_cons hc]

theorem isStart_apart (hc : IsStart c) : isSpace c = false ∧ c ≠ ']' ∧ c ≠ '}' := by
  unfold IsStart startChars at hc
  fin_cases hc <;> decide

theorem skipSpace_char (hw : Ws t (c :: u)) (hc : isSpace c = false) : skipSpace t = c :: u := by
  rw [hw.skipSpace_eq, skipSpace_cons hc]

/-- The fuel is not spent before the text is. -/
theorem fuel_pos {d : Tokens} (h : JsonText.Reads SpellingOf LiteralOf (.value d) t r) {fuel : ℕ}
    (hfuel : t.length ≤ fuel + r.length) : ∃ n, fuel = n + 1 := by
  have := h.length_lt lexical_spelling
  exact ⟨fuel - 1, by omega⟩

theorem scans_of_reads {g : JsonText.Symbol (List Char) JsonText.Number}
    (h : JsonText.Reads SpellingOf LiteralOf g t r) : Scans g t r := by
  induction h with
  | null r =>
    intro fuel _ hfuel
    obtain ⟨n, rfl⟩ := fuel_pos (.null r) hfuel
    rfl
  | true r =>
    intro fuel _ hfuel
    obtain ⟨n, rfl⟩ := fuel_pos (.true r) hfuel
    rfl
  | false r =>
    intro fuel _ hfuel
    obtain ⟨n, rfl⟩ := fuel_pos (.false r) hfuel
    rfl
  | num h =>
    intro fuel hr hfuel
    obtain ⟨n, rfl⟩ := fuel_pos (.num h) hfuel
    obtain rfl := h
    exact scanValue_number _ hr n
  | str h =>
    intro fuel _ hfuel
    obtain ⟨n, rfl⟩ := fuel_pos (.str h) hfuel
    obtain ⟨hs, rfl⟩ := h
    obtain ⟨us, hscan, hstr⟩ := scanString_body hs _
    rw [scanValue, hscan, Option.map_some, hstr, valueOf]
  | emptyArr hw =>
    intro fuel _ hfuel
    obtain ⟨n, rfl⟩ := fuel_pos (.emptyArr hw) hfuel
    rw [scanValue, skipSpace_char hw (by decide)]
    rfl
  | @arr xs t r hxs ih =>
    intro fuel _ hfuel
    obtain ⟨n, rfl⟩ := fuel_pos (.arr hxs) hfuel
    obtain ⟨c, u, hstart, hc⟩ := (closes_of_reads hxs r rfl).elements_start
    have hread := ih n r rfl (by simp only [List.length_cons] at hfuel; omega)
    obtain ⟨hspace, hne⟩ := isStart_apart hc
    rw [skipSpace_char hstart hspace] at hread
    rw [scanValue_arr (skipSpace_char hstart hspace) hne.1, hread]
    rfl
  | emptyObj hw =>
    intro fuel _ hfuel
    obtain ⟨n, rfl⟩ := fuel_pos (.emptyObj hw) hfuel
    rw [scanValue, skipSpace_char hw (by decide)]
    rfl
  | @obj ms t r hms ih =>
    intro fuel _ hfuel
    obtain ⟨n, rfl⟩ := fuel_pos (.obj hms) hfuel
    obtain ⟨u, hstart⟩ := (closes_of_reads hms r rfl).members_start
    have hread := ih n r rfl (by simp only [List.length_cons] at hfuel; omega)
    rw [skipSpace_char hstart (by decide)] at hread
    rw [scanValue_obj (skipSpace_char hstart (by decide)) (by decide), hread]
    rfl
  | @lastElement x t t₁ t₂ r hw hx hend ih =>
    rintro fuel r' rfl hfuel
    have hlen := hx.length_lt lexical_spelling
    have := hw.length_le
    have := hend.length_le
    simp only [List.length_cons] at this
    obtain ⟨n, rfl⟩ : ∃ n, fuel = n + 1 := ⟨fuel - 1, by omega⟩
    rw [skipSpace_value hw hx, scanElements,
      ih n (follow_of_ws hend (follow_separator (by simp [IsSeparator]) _)) (by omega)]
    simp only [Option.bind_eq_bind, Option.bind_some, skipSpace_char hend (by decide)]
    rfl
  | @element x xs t t₁ t₂ t₃ r hw hx hcomma hxs ih ih' =>
    rintro fuel r' rfl hfuel
    have hlen := hx.length_lt lexical_spelling
    have hlen' := hxs.length_lt lexical_spelling
    have := hw.length_le
    have := hcomma.length_le
    simp only [List.length_cons] at hlen' this
    obtain ⟨n, rfl⟩ : ∃ n, fuel = n + 1 := ⟨fuel - 1, by omega⟩
    rw [skipSpace_value hw hx, scanElements,
      ih n (follow_of_ws hcomma (follow_separator (by simp [IsSeparator]) _)) (by omega)]
    simp only [Option.bind_eq_bind, Option.bind_some, skipSpace_char hcomma (by decide)]
    rw [ih' n r' rfl (by omega)]
    rfl
  | @lastMember k x t t₁ t₂ t₃ t₄ t₅ r hw hs hcolon hw' hx hend ih =>
    rintro fuel r' rfl hfuel
    obtain ⟨hk, rfl⟩ := hs
    have hlen := hx.length_lt lexical_spelling
    have := hw.length_le
    have := hcolon.length_le
    have := hw'.length_le
    have := hend.length_le
    simp only [List.length_cons, List.length_append] at *
    obtain ⟨n, rfl⟩ : ∃ n, fuel = n + 1 := ⟨fuel - 1, by omega⟩
    obtain ⟨us, hscan, hstr⟩ := scanString_body hk t₂
    rw [skipSpace_char hw (by decide), scanMembers, hscan]
    simp only [Option.bind_eq_bind, Option.bind_some, skipSpace_char hcolon (by decide),
      skipSpace_value hw' hx]
    rw [ih n (follow_of_ws hend (follow_separator (by simp [IsSeparator]) _)) (by omega)]
    simp only [Option.bind_some, skipSpace_char hend (by decide), hstr]
    rfl
  | @member k x ms t t₁ t₂ t₃ t₄ t₅ t₆ r hw hs hcolon hw' hx hcomma hms ih ih' =>
    rintro fuel r' rfl hfuel
    obtain ⟨hk, rfl⟩ := hs
    have hlen := hx.length_lt lexical_spelling
    have hlen' := hms.length_lt lexical_spelling
    have := hw.length_le
    have := hcolon.length_le
    have := hw'.length_le
    have := hcomma.length_le
    simp only [List.length_cons, List.length_append] at *
    obtain ⟨n, rfl⟩ : ∃ n, fuel = n + 1 := ⟨fuel - 1, by omega⟩
    obtain ⟨us, hscan, hstr⟩ := scanString_body hk t₂
    rw [skipSpace_char hw (by decide), scanMembers, hscan]
    simp only [Option.bind_eq_bind, Option.bind_some, skipSpace_char hcolon (by decide),
      skipSpace_value hw' hx]
    rw [ih n (follow_of_ws hcomma (follow_separator (by simp [IsSeparator]) _)) (by omega)]
    simp only [Option.bind_some, skipSpace_char hcomma (by decide), hstr]
    rw [ih' n r' rfl (by omega)]
    rfl

/-- `json.loads` reads a JSON text by its tokens alone. -/
theorem loads_json {d : Tokens} (h : JsonText.Text SpellingOf LiteralOf d t) :
    loads t = some (valueOf d) := by
  obtain ⟨t₁, t₂, hw, hd, hend⟩ := h
  have hlen := hw.length_le
  have hread := scans_of_reads hd (t.length + 1) (follow_of_ws hend trivial) (by omega)
  simp only [loads, Option.bind_eq_bind, skipSpace_value hw hd, hread, Option.bind_some,
    hend.skipSpace_eq]
  rfl

end Loads

/-! ## The reduction -/

section Reduction

theorem places_of_newlines (h : u.map (· = '\n') = t.map (· = '\n')) :
    u.length = t.length ∧ ∀ i : ℕ, u[i]? = some '\n' ↔ t[i]? = some '\n' := by
  refine ⟨by simpa using congrArg List.length h, fun i => ?_⟩
  have hi := congrArg (fun l : List Prop => l[i]?) h
  simp only [List.getElem?_map] at hi
  revert hi
  rcases u[i]? with _ | c <;> rcases t[i]? with _ | d <;> simp

/-- The reduction keeps every place of a text, keeps a JSON text as it is, and leaves of a JSON text
with comments and trailing commas what reads as the JSON text does. -/
theorem reduceJsonc_spec :
    (∀ t, (reduceJsonc t).length = t.length ∧
      ∀ i : ℕ, (reduceJsonc t)[i]? = some '\n' ↔ t[i]? = some '\n') ∧
    (∀ t, IsJson t → reduceJsonc t = t) ∧
    ∀ j t, Commented j t → ∃ v, loads j = some v ∧ loads (reduceJsonc t) = some v := by
  refine ⟨fun t => places_of_newlines (newlines_reduceJsonc t), ?_, ?_⟩
  · rintro t ⟨d, h⟩
    exact reduceJsonc_json h
  · rintro j t ⟨d, hj, ht⟩
    exact ⟨valueOf d, loads_json hj, loads_json (json_reduceJsonc ht)⟩

theorem universalNewlines_self (h : '\r' ∉ t) : universalNewlines t = t := by
  induction t with
  | nil => rfl
  | cons c t ih =>
    rw [List.mem_cons, not_or] at h
    rw [universalNewlines, ih h.2]
    · exact fun _ hc => absurd hc.symm h.1
    · exact fun hc => absurd hc.symm h.1

/-- A file is read as the JSON text it comments on, where its lines end in LF. -/
theorem loadJsonc_commented {j t : List Char} {value : Dict} (h : Commented j t) (hcr : '\r' ∉ t)
    (hvalue : loads j = some (.obj value)) : loadJsonc (Unicode.utf8 t) = some value := by
  obtain ⟨d, hj, ht⟩ := h
  rw [loads_json hj] at hvalue
  rw [loadJsonc, Unicode.utf8Decode_utf8, Option.bind_eq_bind, Option.bind_some,
    universalNewlines_self hcr, loads_json (json_reduceJsonc ht), hvalue]
  rfl

/-- A comment that holds a bracket, between a comma and the bracket behind it. -/
theorem reduceJsonc_list : reduceJsonc "[1]".toList = "[1]".toList ∧
    ∃ v, loads "[1]".toList = some v ∧ loads (reduceJsonc "[1,// ]\n]".toList) = some v := by
  let one : JsonText.Number := ⟨false, [1], [], none, by simp, by simp⟩
  have hone : ∀ r, JsonText.Reads SpellingOf LiteralOf (.value (.num one)) ('1' :: r) r :=
    fun r => .num rfl
  have hjson : JsonText.Text SpellingOf LiteralOf (.arr [.num one]) "[1]".toList :=
    ⟨_, [], .nil _, .arr (.lastElement (.nil _) (hone _) (.nil _)), .nil _⟩
  have hcomment : Trivia "// ]\n]".toList [']'] :=
    @Trivia.line [' ', ']'] _ _ (by decide) (.nil _)
  have hjsonc : Jsonc.Text (.arr [.num one]) "[1,// ]\n]".toList :=
    ⟨_, [], .nil _, .arr (.lastElement (.nil _) (.num one _) (.comma (.nil _) hcomment)), .nil _⟩
  exact ⟨reduceJsonc_spec.2.1 _ ⟨_, hjson⟩, reduceJsonc_spec.2.2 _ _ ⟨_, hjson, hjsonc⟩⟩

end Reduction

end Architecture
