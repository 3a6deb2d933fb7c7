import Jumpship.Canonical.Jcs
import Jumpship.Proofs.Scanning

/-!
# decodeValue reads the grammar

`decodeValue` answers a value exactly when the text holds one whose objects repeat no name, and
leaves the decoder after it. The token stream checks the commas and colons as it goes, so the
statement is over the state `advance` leaves: past the separator the state calls for, with a value
or a key next.
-/

namespace Canonical

open Go JsonText Unicode

/-- The rest of a string literal the decoder answers `s` for. -/
def DecodedOf (t : List Char) (s : List Char) (r : List Char) : Prop :=
  ∃ us, StringBody t us r ∧ s = utf16DecodeLossy us

/-! ## Tokens -/

section Tokens

variable {d d' : Decoder} {tok : Token} {c : Char} {t r : List Char}

/-- `d'` is `d` past its separator, with a value next. -/
structure ValuePosition (d d' : Decoder) : Prop where
  advance : d.advance = some d'
  allowed : d'.tokenState.valueAllowed = true

/-- `d'` is `d` past its separator, with a key next. -/
structure KeyPosition (d d' : Decoder) : Prop where
  advance : d.advance = some d'
  key : d'.tokenState = .objectStart ∨ d'.tokenState = .objectKey

theorem advance_cases (h : d.advance = some d') :
    (∃ t, skipSpace d.buf = ':' :: t ∧ d.tokenState = .objectColon ∧
      d' = ⟨t, .objectValue, d.tokenStack⟩) ∨
    (∃ t, skipSpace d.buf = ',' :: t ∧ d.tokenState = .arrayComma ∧
      d' = ⟨t, .arrayValue, d.tokenStack⟩) ∨
    (∃ t, skipSpace d.buf = ',' :: t ∧ d.tokenState = .objectComma ∧
      d' = ⟨t, .objectKey, d.tokenStack⟩) ∨
    d' = d := by
  unfold Decoder.advance at h
  split at h
  · rename_i t ht
    split_ifs at h with hs
    exact .inl ⟨t, ht, hs, (Option.some.inj h).symm⟩
  · rename_i t ht
    split_ifs at h with hs hs'
    · exact .inr (.inl ⟨t, ht, hs, (Option.some.inj h).symm⟩)
    · exact .inr (.inr (.inl ⟨t, ht, hs', (Option.some.inj h).symm⟩))
  · exact .inr (.inr (.inr (Option.some.inj h).symm))

theorem advance_stack (h : d.advance = some d') : d'.tokenStack = d.tokenStack := by
  rcases advance_cases h with ⟨_, _, _, rfl⟩ | ⟨_, _, _, rfl⟩ | ⟨_, _, _, rfl⟩ | rfl <;> rfl

/-- What one token can be, from the first character that is not whitespace. -/
theorem next_cases (h : d.next = some (tok, d')) : ∃ c t, skipSpace d.buf = c :: t ∧
    ((c = '[' ∧ d.tokenState.valueAllowed ∧ tok = .delim '[' ∧
        d' = ⟨t, .arrayStart, d.tokenState :: d.tokenStack⟩) ∨
      (c = ']' ∧ (d.tokenState = .arrayStart ∨ d.tokenState = .arrayComma) ∧ tok = .delim ']' ∧
        ∃ s stack, d.tokenStack = s :: stack ∧ d' = ⟨t, s.valueEnd, stack⟩) ∨
      (c = '{' ∧ d.tokenState.valueAllowed ∧ tok = .delim '{' ∧
        d' = ⟨t, .objectStart, d.tokenState :: d.tokenStack⟩) ∨
      (c = '}' ∧ (d.tokenState = .objectStart ∨ d.tokenState = .objectComma) ∧ tok = .delim '}' ∧
        ∃ s stack, d.tokenStack = s :: stack ∧ d' = ⟨t, s.valueEnd, stack⟩) ∨
      (c = '"' ∧ (d.tokenState = .objectStart ∨ d.tokenState = .objectKey) ∧
        ∃ us r, scanString t = some (us, r) ∧ tok = .string (utf16DecodeLossy us) ∧
          d' = ⟨r, .objectColon, d.tokenStack⟩) ∨
      (d.tokenState.valueAllowed ∧ ∃ r, scanScalar (c :: t) = some (tok, r) ∧
        d' = ⟨r, d.tokenState.valueEnd, d.tokenStack⟩)) := by
  unfold Decoder.next at h
  split at h
  · cases h
  rename_i c t hct
  refine ⟨c, t, hct, ?_⟩
  split_ifs at h with h1 h2 h3 h4 h5 h6 h7 h8 h9 h10 h11
  · obtain ⟨rfl, rfl⟩ := Prod.mk.inj (Option.some.inj h)
    exact .inl ⟨h1, h2, rfl, rfl⟩
  · split at h
    · rename_i s stack hstack
      obtain ⟨rfl, rfl⟩ := Prod.mk.inj (Option.some.inj h)
      exact .inr (.inl ⟨h3, h4, rfl, s, stack, hstack, rfl⟩)
    · cases h
  · obtain ⟨rfl, rfl⟩ := Prod.mk.inj (Option.some.inj h)
    exact .inr (.inr (.inl ⟨h5, h6, rfl, rfl⟩))
  · split at h
    · rename_i s stack hstack
      obtain ⟨rfl, rfl⟩ := Prod.mk.inj (Option.some.inj h)
      exact .inr (.inr (.inr (.inl ⟨h7, h8, rfl, s, stack, hstack, rfl⟩)))
    · cases h
  · obtain ⟨⟨us, r⟩, hs, heq⟩ := Option.map_eq_some_iff.1 h
    obtain ⟨rfl, rfl⟩ := Prod.mk.inj heq
    exact .inr (.inr (.inr (.inr (.inl ⟨h10.1, h10.2, us, r, hs, rfl, rfl⟩))))
  · obtain ⟨⟨tok', r⟩, hs, heq⟩ := Option.map_eq_some_iff.1 h
    obtain ⟨rfl, rfl⟩ := Prod.mk.inj heq
    exact .inr (.inr (.inr (.inr (.inr ⟨h11, r, hs, rfl⟩))))

/-- The value of a token that is no delimiter. -/
def tokenValue : Token → Option Value
  | .delim _ => none
  | .null => some .null
  | .bool b => some (.bool b)
  | .string s => some (.str s)
  | .number n => some (.num n)

theorem scanScalar_sound (h : scanScalar t = some (tok, r)) : ∃ v, tokenValue tok = some v ∧
    Reads DecodedOf LiteralOf (.value v) t r ∧ v.Distinct := by
  unfold scanScalar at h
  split at h
  · obtain ⟨rfl, rfl⟩ := Prod.mk.inj (Option.some.inj h)
    exact ⟨_, rfl, .null _, trivial⟩
  · obtain ⟨rfl, rfl⟩ := Prod.mk.inj (Option.some.inj h)
    exact ⟨_, rfl, .true _, trivial⟩
  · obtain ⟨rfl, rfl⟩ := Prod.mk.inj (Option.some.inj h)
    exact ⟨_, rfl, .false _, trivial⟩
  · obtain ⟨⟨us, r'⟩, hs, heq⟩ := Option.map_eq_some_iff.1 h
    obtain ⟨rfl, rfl⟩ := Prod.mk.inj heq
    exact ⟨_, rfl, .str ⟨us, scanString_eq_some.1 hs, rfl⟩, trivial⟩
  · obtain ⟨⟨n, r'⟩, hs, heq⟩ := Option.map_eq_some_iff.1 h
    obtain ⟨rfl, rfl⟩ := Prod.mk.inj heq
    exact ⟨_, rfl, .num (eq_append_of_scanNumber hs), trivial⟩

theorem decodeValue_scalar {v : Value} (h : d.token = some (tok, d'))
    (hv : tokenValue tok = some v) (fuel : ℕ) : decodeValue (fuel + 1) d = .ok (v, d') := by
  rw [decodeValue, h]
  rcases tok with c | _ | b | s | n
  · cases hv
  all_goals
    obtain rfl := Option.some.inj hv
    rfl

end Tokens

/-! ## Soundness -/

section Sound

/-- The states `decodeValue` is called in. -/
def AtValue (s : TokenState) : Prop :=
  s = .topValue ∨ s = .arrayStart ∨ s = .arrayComma ∨ s = .objectColon

/-- What `decodeValue` promises: the text holds a value at the next position, and the decoder is
left after it. -/
def ValueDecoded (d : Decoder) (v : Value) (d' : Decoder) : Prop :=
  ∃ d₁ t, ValuePosition d d₁ ∧ Ws d₁.buf t ∧ Reads DecodedOf LiteralOf (.value v) t d'.buf ∧
    v.Distinct ∧ d'.tokenState = d₁.tokenState.valueEnd ∧ d'.tokenStack = d₁.tokenStack

/-- The same for the rest of an array. -/
def ElementsDecoded (result : List Value) (d : Decoder) (v : Value) (d' : Decoder) : Prop :=
  ∃ xs s stack, v = .arr (result ++ xs) ∧ d.tokenStack = s :: stack ∧
    d'.tokenState = s.valueEnd ∧ d'.tokenStack = stack ∧ (∀ x ∈ xs, x.Distinct) ∧
    ((xs = [] ∧ Ws d.buf (']' :: d'.buf)) ∨
      ∃ d₁, ValuePosition d d₁ ∧ Reads DecodedOf LiteralOf (.elements xs) d₁.buf (']' :: d'.buf))

/-- The same for the rest of an object. -/
def MembersDecoded (result : List (List Char × Value)) (d : Decoder) (v : Value) (d' : Decoder) :
    Prop :=
  ∃ ms s stack, v = .obj (result ++ ms) ∧ d.tokenStack = s :: stack ∧
    d'.tokenState = s.valueEnd ∧ d'.tokenStack = stack ∧ (Json.names (result ++ ms)).Nodup ∧
    (∀ m ∈ ms, m.2.Distinct) ∧
    ((ms = [] ∧ Ws d.buf ('}' :: d'.buf)) ∨
      ∃ d₁, KeyPosition d d₁ ∧ Reads DecodedOf LiteralOf (.members ms) d₁.buf ('}' :: d'.buf))

variable {fuel : ℕ} {d d' : Decoder} {v : Value}

theorem token_eq_some {tok : Token} (h : d.token = some (tok, d')) :
    ∃ d₁, d.advance = some d₁ ∧ d₁.next = some (tok, d') :=
  Option.bind_eq_some_iff.1 h

theorem ws_of_skipSpace {t r : List Char} (h : skipSpace t = r) : Ws t r := h ▸ ws_skipSpace t

theorem notKey_of_advance {d₁ : Decoder} (hs : AtValue d.tokenState) (h : d.advance = some d₁) :
    d₁.tokenState ≠ .objectStart ∧ d₁.tokenState ≠ .objectKey := by
  rcases advance_cases h with ⟨_, _, _, rfl⟩ | ⟨_, _, _, rfl⟩ | ⟨_, _, hc, rfl⟩ | rfl
  · simp
  · simp
  · rcases hs with hs | hs | hs | hs <;> rw [hc] at hs <;> cases hs
  · rcases hs with hs | hs | hs | hs <;> simp [hs]

theorem notAllowed_of_advance {d₁ : Decoder}
    (hs : d.tokenState = .objectStart ∨ d.tokenState = .objectComma) (h : d.advance = some d₁) :
    d₁.tokenState.valueAllowed = false := by
  rcases advance_cases h with ⟨_, _, hc, rfl⟩ | ⟨_, _, hc, rfl⟩ | ⟨_, _, hc, rfl⟩ | rfl
  · rcases hs with hs | hs <;> rw [hc] at hs <;> cases hs
  · rcases hs with hs | hs <;> rw [hc] at hs <;> cases hs
  · rfl
  · rcases hs with hs | hs <;> rw [hs] <;> rfl

/-- A position after a key's colon. -/
theorem colon_of_position {d₁ : Decoder} (hs : d.tokenState = .objectColon)
    (h : ValuePosition d d₁) : Ws d.buf (':' :: d₁.buf) ∧ d₁.tokenState = .objectValue := by
  rcases advance_cases h.advance with ⟨t, ht, _, rfl⟩ | ⟨_, _, hc, _⟩ | ⟨_, _, hc, _⟩ | rfl
  · exact ⟨ws_of_skipSpace ht, rfl⟩
  · rw [hs] at hc
    cases hc
  · rw [hs] at hc
    cases hc
  · have := h.allowed
    rw [hs] at this
    cases this

/-- A position after an element's comma. -/
theorem comma_of_position {d₁ : Decoder} (hs : d.tokenState = .arrayComma)
    (h : ValuePosition d d₁) : Ws d.buf (',' :: d₁.buf) ∧ d₁.tokenState = .arrayValue := by
  rcases advance_cases h.advance with ⟨_, _, hc, _⟩ | ⟨t, ht, _, rfl⟩ | ⟨_, _, hc, _⟩ | rfl
  · rw [hs] at hc
    cases hc
  · exact ⟨ws_of_skipSpace ht, rfl⟩
  · rw [hs] at hc
    cases hc
  · have := h.allowed
    rw [hs] at this
    cases this

/-- A position after a member's comma. -/
theorem comma_of_keyPosition {d₁ : Decoder} (hs : d.tokenState = .objectComma)
    (h : KeyPosition d d₁) : Ws d.buf (',' :: d₁.buf) := by
  rcases advance_cases h.advance with ⟨_, _, hc, _⟩ | ⟨_, _, hc, _⟩ | ⟨t, ht, _, rfl⟩ | rfl
  · rw [hs] at hc
    cases hc
  · rw [hs] at hc
    cases hc
  · exact ws_of_skipSpace ht
  · rcases h.key with hk | hk <;> rw [hs] at hk <;> cases hk

/-- An array or object ends without a separator before its closing delimiter. -/
theorem eq_of_close {d₁ : Decoder} (h : d.advance = some d₁)
    (hs : d₁.tokenState = .arrayStart ∨ d₁.tokenState = .arrayComma ∨
      d₁.tokenState = .objectStart ∨ d₁.tokenState = .objectComma) : d₁ = d := by
  rcases advance_cases h with ⟨_, _, _, rfl⟩ | ⟨_, _, _, rfl⟩ | ⟨_, _, _, rfl⟩ | h
  · simp at hs
  · simp at hs
  · simp at hs
  · exact h

theorem close_of_token {c : Char} (hc : c = ']' ∨ c = '}')
    (h : d.token = some (.delim c, d')) : ∃ s stack, d.tokenStack = s :: stack ∧
      d'.tokenState = s.valueEnd ∧ d'.tokenStack = stack ∧ Ws d.buf (c :: d'.buf) := by
  obtain ⟨d₁, hadv, hnext⟩ := token_eq_some h
  obtain ⟨c', t, hct, hcase⟩ := next_cases hnext
  have scalar : ∀ {t r}, scanScalar t ≠ some (.delim c, r) := by
    intro t r hs
    obtain ⟨v, hv, -⟩ := scanScalar_sound hs
    cases hv
  rcases hcase with ⟨_, _, hd, _⟩ | ⟨rfl, hstate, hd, s, stack, hstack, rfl⟩ | ⟨_, _, hd, _⟩ |
    ⟨rfl, hstate, hd, s, stack, hstack, rfl⟩ | ⟨_, _, _, _, _, hd, _⟩ | ⟨_, _, hs, _⟩
  · obtain rfl := Token.delim.inj hd
    simp at hc
  · obtain rfl := Token.delim.inj hd
    obtain rfl := eq_of_close hadv (by tauto)
    exact ⟨s, stack, hstack, rfl, rfl, ws_of_skipSpace hct⟩
  · obtain rfl := Token.delim.inj hd
    simp at hc
  · obtain rfl := Token.delim.inj hd
    obtain rfl := eq_of_close hadv (by tauto)
    exact ⟨s, stack, hstack, rfl, rfl, ws_of_skipSpace hct⟩
  · cases hd
  · exact absurd hs scalar

theorem decodeValue_sound_step
    (harr : ∀ {d v d'}, decodeArray fuel [] d = .ok (v, d') → d.tokenState = .arrayStart →
      ElementsDecoded [] d v d')
    (hobj : ∀ {d v d'}, decodeObject fuel [] d = .ok (v, d') → d.tokenState = .objectStart →
      MembersDecoded [] d v d')
    (h : decodeValue (fuel + 1) d = .ok (v, d')) (hs : AtValue d.tokenState) :
    ValueDecoded d v d' := by
  rcases htok : d.token with _ | ⟨tok, d₂⟩
  · rw [decodeValue, htok] at h
    cases h
  obtain ⟨d₁, hadv, hnext⟩ := token_eq_some htok
  have hkey := notKey_of_advance hs hadv
  obtain ⟨c, t, hct, hcase⟩ := next_cases hnext
  rcases hcase with ⟨rfl, hal, rfl, rfl⟩ | ⟨rfl, _, rfl, _⟩ | ⟨rfl, hal, rfl, rfl⟩ |
    ⟨rfl, _, rfl, _⟩ | ⟨rfl, hk, _⟩ | ⟨hal, r, hscan, rfl⟩
  · rw [decodeValue, htok] at h
    obtain ⟨xs, s, stack, rfl, hstack, h1, h2, hdist, htext⟩ := harr h rfl
    obtain ⟨rfl, rfl⟩ := List.cons.inj hstack
    refine ⟨d₁, _, ⟨hadv, hal⟩, ws_of_skipSpace hct, ?_, Json.distinct_arr.2 hdist, h1, h2⟩
    rcases htext with ⟨rfl, hws⟩ | ⟨d₃, hpos, hreads⟩
    · exact .emptyArr hws
    · refine .arr ?_
      rcases advance_cases hpos.advance with ⟨_, _, hc, _⟩ | ⟨_, _, hc, _⟩ | ⟨_, _, hc, _⟩ | rfl
      · cases hc
      · cases hc
      · cases hc
      · exact hreads
  · rw [decodeValue, htok] at h
    cases h
  · rw [decodeValue, htok] at h
    obtain ⟨ms, s, stack, rfl, hstack, h1, h2, hnd, hdist, htext⟩ := hobj h rfl
    obtain ⟨rfl, rfl⟩ := List.cons.inj hstack
    refine ⟨d₁, _, ⟨hadv, hal⟩, ws_of_skipSpace hct, ?_, Json.distinct_obj.2 ⟨hnd, hdist⟩, h1, h2⟩
    rcases htext with ⟨rfl, hws⟩ | ⟨d₃, hpos, hreads⟩
    · exact .emptyObj hws
    · refine .obj ?_
      rcases advance_cases hpos.advance with ⟨_, _, hc, _⟩ | ⟨_, _, hc, _⟩ | ⟨_, _, hc, _⟩ | rfl
      · cases hc
      · cases hc
      · cases hc
      · exact hreads
  · rw [decodeValue, htok] at h
    cases h
  · exact absurd hk (not_or.2 hkey)
  · obtain ⟨w, hw, hreads, hdist⟩ := scanScalar_sound hscan
    rw [decodeValue_scalar htok hw] at h
    obtain ⟨rfl, rfl⟩ := Prod.mk.inj (Except.ok.inj h)
    exact ⟨d₁, _, ⟨hadv, hal⟩, ws_of_skipSpace hct, hreads, hdist, rfl, rfl⟩

theorem decodeArray_sound_step {result : List Value}
    (hval : ∀ {d v d'}, decodeValue fuel d = .ok (v, d') → AtValue d.tokenState →
      ValueDecoded d v d')
    (harr : ∀ {result d v d'}, decodeArray fuel result d = .ok (v, d') →
      d.tokenState = .arrayComma → ElementsDecoded result d v d')
    (h : decodeArray (fuel + 1) result d = .ok (v, d'))
    (hs : d.tokenState = .arrayStart ∨ d.tokenState = .arrayComma) :
    ElementsDecoded result d v d' := by
  rw [decodeArray] at h
  split_ifs at h with hmore
  · split at h
    · cases h
    · rename_i child d₂ hchild
      obtain ⟨d₁, t, hpos, hws, hreads, hdist, hstate, hstack⟩ :=
        hval hchild (by rcases hs with hs | hs <;> simp [AtValue, hs])
      have hcomma : d₂.tokenState = .arrayComma := by
        rw [hstate]
        rcases hs with hs | hs
        · have hno := notKey_of_advance (.inr (.inl hs)) hpos.advance
          rcases advance_cases hpos.advance with ⟨_, _, hc, _⟩ | ⟨_, _, _, rfl⟩ | ⟨_, _, hc, _⟩ |
            rfl
          · rw [hs] at hc
            cases hc
          · rfl
          · rw [hs] at hc
            cases hc
          · rw [hs]
            rfl
        · rw [(comma_of_position hs hpos).2]
          rfl
      obtain ⟨xs, s, stack, rfl, hst, h1, h2, hxs, htext⟩ := harr h hcomma
      refine ⟨child :: xs, s, stack, by simp, ?_, h1, h2, List.forall_mem_cons.2 ⟨hdist, hxs⟩,
        .inr ⟨d₁, hpos, ?_⟩⟩
      · rw [← advance_stack hpos.advance, ← hstack, hst]
      · rcases htext with ⟨rfl, hend⟩ | ⟨d₃, hpos₃, hrest⟩
        · exact .lastElement hws hreads hend
        · exact .element hws hreads (comma_of_position hcomma hpos₃).1 hrest
  · split at h
    · rename_i htok
      obtain ⟨rfl, rfl⟩ := Prod.mk.inj (Except.ok.inj h)
      obtain ⟨s, stack, hstack, h1, h2, hws⟩ := close_of_token (.inl rfl) htok
      exact ⟨[], s, stack, by simp, hstack, h1, h2, by simp, .inl ⟨rfl, hws⟩⟩
    · cases h

theorem decodeObject_sound_step {result : List (List Char × Value)}
    (hval : ∀ {d v d'}, decodeValue fuel d = .ok (v, d') → AtValue d.tokenState →
      ValueDecoded d v d')
    (hobj : ∀ {result d v d'}, decodeObject fuel result d = .ok (v, d') →
      d.tokenState = .objectComma → (Json.names result).Nodup → MembersDecoded result d v d')
    (h : decodeObject (fuel + 1) result d = .ok (v, d'))
    (hs : d.tokenState = .objectStart ∨ d.tokenState = .objectComma)
    (hnd : (Json.names result).Nodup) : MembersDecoded result d v d' := by
  rw [decodeObject] at h
  split_ifs at h with hmore
  · split at h
    · cases h
    · rename_i key d₂ htok
      split_ifs at h with hdup
      split at h
      · cases h
      · rename_i child d₃ hchild
        obtain ⟨d₁, hadv, hnext⟩ := token_eq_some htok
        have hno := notAllowed_of_advance hs hadv
        obtain ⟨c, t, hct, hcase⟩ := next_cases hnext
        rcases hcase with ⟨_, _, hd, _⟩ | ⟨_, _, hd, _⟩ | ⟨_, _, hd, _⟩ | ⟨_, _, hd, _⟩ |
          ⟨rfl, hk, us, r, hscan, hkey, rfl⟩ | ⟨hal, _⟩
        · cases hd
        · cases hd
        · cases hd
        · cases hd
        · obtain rfl := Token.string.inj hkey
          obtain ⟨d₄, t₄, hpos, hws, hreads, hdist, hstate, hstack⟩ :=
            hval hchild (.inr (.inr (.inr rfl)))
          obtain ⟨hcolon, hvalue⟩ := colon_of_position rfl hpos
          have hcomma : d₃.tokenState = .objectComma := by
            rw [hstate, hvalue]
            rfl
          obtain ⟨ms, s, stack, rfl, hst, h1, h2, hnd', hms, htext⟩ := hobj h hcomma (by
            rw [Json.names_append, List.nodup_append_comm]
            exact List.nodup_cons.2 ⟨hdup, hnd⟩)
          have hbody : DecodedOf t (utf16DecodeLossy us) r := ⟨us, scanString_eq_some.1 hscan, rfl⟩
          rw [List.append_assoc] at hnd'
          refine ⟨_ :: ms, s, stack, by simp, ?_, h1, h2, hnd',
            List.forall_mem_cons.2 ⟨hdist, hms⟩, .inr ⟨d₁, ⟨hadv, hk⟩, ?_⟩⟩
          · rw [← advance_stack hadv, ← hst, hstack, advance_stack hpos.advance]
          · rcases htext with ⟨rfl, hend⟩ | ⟨d₅, hpos₅, hrest⟩
            · exact .lastMember (ws_of_skipSpace hct) hbody hcolon hws hreads hend
            · exact .member (ws_of_skipSpace hct) hbody hcolon hws hreads
                (comma_of_keyPosition hcomma hpos₅) hrest
        · rw [hno] at hal
          cases hal
    · cases h
  · split at h
    · rename_i htok
      obtain ⟨rfl, rfl⟩ := Prod.mk.inj (Except.ok.inj h)
      obtain ⟨s, stack, hstack, h1, h2, hws⟩ := close_of_token (.inr rfl) htok
      exact ⟨[], s, stack, by simp, hstack, h1, h2, by simpa using hnd, by simp, .inl ⟨rfl, hws⟩⟩
    · cases h

theorem decode_sound : ∀ fuel : ℕ,
    (∀ {d v d'}, decodeValue fuel d = .ok (v, d') → AtValue d.tokenState → ValueDecoded d v d') ∧
    (∀ {result d v d'}, decodeArray fuel result d = .ok (v, d') →
      d.tokenState = .arrayStart ∨ d.tokenState = .arrayComma → ElementsDecoded result d v d') ∧
    (∀ {result d v d'}, decodeObject fuel result d = .ok (v, d') →
      d.tokenState = .objectStart ∨ d.tokenState = .objectComma → (Json.names result).Nodup →
      MembersDecoded result d v d')
  | 0 => by
    refine ⟨fun h _ => ?_, fun h _ => ?_, fun h _ _ => ?_⟩
    · cases h
    · cases h
    · cases h
  | fuel + 1 => by
    obtain ⟨hval, harr, hobj⟩ := decode_sound fuel
    exact ⟨decodeValue_sound_step (fun h hs => harr h (.inl hs))
        (fun h hs => hobj h (.inl hs) List.nodup_nil),
      decodeArray_sound_step hval fun h hs => harr h (.inr hs),
      decodeObject_sound_step hval fun h hs hnd => hobj h (.inr hs) hnd⟩

theorem decodeValue_sound (h : decodeValue fuel d = .ok (v, d')) (hs : AtValue d.tokenState) :
    ValueDecoded d v d' :=
  (decode_sound fuel).1 h hs

end Sound

/-! ## Completeness -/

section Complete

variable {d d' : Decoder} {c : Char} {t r : List Char}

theorem lexical_decodedOf : Lexical DecodedOf LiteralOf :=
  ⟨fun ⟨us, h, _⟩ => ⟨us, h⟩, fun h => ⟨_, h⟩⟩

theorem follow_of_space (h : isSpace c = true) : Follow (c :: t) := by
  simp only [isSpace, Bool.or_eq_true, decide_eq_true_eq] at h
  rcases h with ((rfl | rfl) | rfl) | rfl <;> exact ⟨by decide, by decide, by decide, by decide⟩

theorem follow_of_separator (h : IsSeparator c) : Follow (c :: t) := by
  rcases h with rfl | rfl | rfl | rfl <;> exact ⟨by decide, by decide, by decide, by decide⟩

theorem follow_of_ws (h : Ws t r) (hr : Follow r) : Follow t := by
  cases h with
  | nil => exact hr
  | cons hc _ => exact follow_of_space hc

theorem skipSpace_of_separator (h : Ws t (c :: r)) (hc : IsSeparator c) :
    skipSpace t = c :: r := by
  rw [h.skipSpace_eq]
  refine skipSpace_cons ?_ r
  rcases hc with rfl | rfl | rfl | rfl <;> rfl

theorem advance_colon (h : skipSpace d.buf = ':' :: t) (hs : d.tokenState = .objectColon) :
    d.advance = some ⟨t, .objectValue, d.tokenStack⟩ := by
  unfold Decoder.advance
  rw [h]
  exact if_pos hs

theorem advance_arrayComma (h : skipSpace d.buf = ',' :: t) (hs : d.tokenState = .arrayComma) :
    d.advance = some ⟨t, .arrayValue, d.tokenStack⟩ := by
  unfold Decoder.advance
  rw [h]
  exact if_pos hs

theorem advance_objectComma (h : skipSpace d.buf = ',' :: t) (hs : d.tokenState = .objectComma) :
    d.advance = some ⟨t, .objectKey, d.tokenStack⟩ := by
  unfold Decoder.advance
  rw [h]
  simp [hs]

theorem advance_same (h : skipSpace d.buf = c :: t) (h1 : c ≠ ':') (h2 : c ≠ ',') :
    d.advance = some d := by
  unfold Decoder.advance
  rw [h]
  split
  · rename_i heq
    exact absurd (List.cons.inj heq).1 h1
  · rename_i heq
    exact absurd (List.cons.inj heq).1 h2
  · rfl

theorem more_of_start (h : skipSpace d.buf = c :: t) (h1 : c ≠ ']') (h2 : c ≠ '}') :
    d.more = true := by
  unfold Decoder.more
  rw [h]
  simp [h1, h2]

theorem token_of_advance (h : d.advance = some d') : d.token = d'.next := by
  rw [Decoder.token, h, Option.bind_some]

theorem next_openArray (h : skipSpace d.buf = '[' :: t) (ha : d.tokenState.valueAllowed = true) :
    d.next = some (.delim '[', ⟨t, .arrayStart, d.tokenState :: d.tokenStack⟩) := by
  unfold Decoder.next
  rw [h]
  exact if_pos ha

theorem next_openObject (h : skipSpace d.buf = '{' :: t) (ha : d.tokenState.valueAllowed = true) :
    d.next = some (.delim '{', ⟨t, .objectStart, d.tokenState :: d.tokenStack⟩) := by
  unfold Decoder.next
  rw [h]
  exact if_pos ha

theorem token_closeArray {s : TokenState} {stack : List TokenState}
    (h : skipSpace d.buf = ']' :: t)
    (hs : d.tokenState = .arrayStart ∨ d.tokenState = .arrayComma)
    (hstack : d.tokenStack = s :: stack) :
    d.token = some (.delim ']', ⟨t, s.valueEnd, stack⟩) := by
  rw [token_of_advance (advance_same h (by decide) (by decide))]
  unfold Decoder.next
  rw [h]
  dsimp only
  rw [if_neg (by decide), if_pos rfl, if_pos hs, hstack]

theorem token_closeObject {s : TokenState} {stack : List TokenState}
    (h : skipSpace d.buf = '}' :: t)
    (hs : d.tokenState = .objectStart ∨ d.tokenState = .objectComma)
    (hstack : d.tokenStack = s :: stack) :
    d.token = some (.delim '}', ⟨t, s.valueEnd, stack⟩) := by
  rw [token_of_advance (advance_same h (by decide) (by decide))]
  unfold Decoder.next
  rw [h]
  dsimp only
  rw [if_neg (by decide), if_neg (by decide), if_neg (by decide), if_pos rfl, if_pos hs, hstack]

theorem next_key {us : List ℕ} (h : skipSpace d.buf = '"' :: t)
    (hs : d.tokenState = .objectStart ∨ d.tokenState = .objectKey)
    (hbody : StringBody t us r) :
    d.next = some (.string (utf16DecodeLossy us), ⟨r, .objectColon, d.tokenStack⟩) := by
  unfold Decoder.next
  rw [h]
  dsimp only
  rw [if_neg (by decide), if_neg (by decide), if_neg (by decide), if_neg (by decide),
    if_neg (by decide), if_pos ⟨rfl, hs⟩, scanString_eq_some.2 hbody, Option.map_some]

theorem next_scalar {tok : Token} (h : skipSpace d.buf = c :: t)
    (ha : d.tokenState.valueAllowed = true) (hc : ¬ IsSeparator c) (h1 : c ≠ '[') (h2 : c ≠ '{')
    (hscan : scanScalar (c :: t) = some (tok, r)) :
    d.next = some (tok, ⟨r, d.tokenState.valueEnd, d.tokenStack⟩) := by
  simp only [IsSeparator, not_or] at hc
  have hkey : ¬ (c = '"' ∧ (d.tokenState = .objectStart ∨ d.tokenState = .objectKey)) := by
    rintro ⟨-, hs | hs⟩ <;> rw [hs] at ha <;> cases ha
  unfold Decoder.next
  rw [h]
  dsimp only
  rw [if_neg h1, if_neg hc.2.2.1, if_neg h2, if_neg hc.2.2.2, if_neg (by tauto), if_neg hkey,
    if_pos ha, hscan, Option.map_some]

theorem scanScalar_number (n : Number) (hr : Follow r) :
    scanScalar (n.text ++ r) = some (.number n, r) := by
  have hscan := scanNumber_append n hr
  obtain ⟨c, t, heq, -⟩ := n.text_start r
  unfold scanScalar
  split
  · rename_i h
    rw [h] at hscan
    cases hscan
  · rename_i h
    rw [h] at hscan
    cases hscan
  · rename_i h
    rw [h] at hscan
    cases hscan
  · rename_i h
    rw [h] at hscan
    cases hscan
  · rw [hscan, Option.map_some]

/-- The decoder after a value read at `d`. -/
def afterValue (d : Decoder) (r : List Char) : Decoder :=
  ⟨r, d.tokenState.valueEnd, d.tokenStack⟩

/-- What a piece of text makes the decoder do, whatever follows it. -/
def Decodes : JsonText.Symbol (List Char) Number → List Char → List Char → Prop
  | .value v, t, r => ∀ fuel d d₁, Follow r → v.Distinct → t.length ≤ fuel + r.length →
      ValuePosition d d₁ → Ws d₁.buf t → decodeValue fuel d = .ok (v, afterValue d₁ r)
  | .elements xs, t, r => ∀ fuel d d₁ result s stack r', r = ']' :: r' → (∀ x ∈ xs, x.Distinct) →
      t.length < fuel + r.length → ValuePosition d d₁ → d₁.buf = t →
      d.tokenState = .arrayStart ∨ d.tokenState = .arrayComma → d.tokenStack = s :: stack →
      decodeArray fuel result d = .ok (.arr (result ++ xs), ⟨r', s.valueEnd, stack⟩)
  | .members ms, t, r => ∀ fuel d d₁ result s stack r', r = '}' :: r' → (∀ m ∈ ms, m.2.Distinct) →
      (Json.names (result ++ ms)).Nodup → t.length < fuel + r.length → KeyPosition d d₁ →
      d₁.buf = t → d.tokenState = .objectStart ∨ d.tokenState = .objectComma →
      d.tokenStack = s :: stack →
      decodeObject fuel result d = .ok (.obj (result ++ ms), ⟨r', s.valueEnd, stack⟩)

theorem more_of_valuePosition {v : Value} (h : ValuePosition d d') (hws : Ws d'.buf t)
    (hv : Reads DecodedOf LiteralOf (.value v) t r) : d.more = true := by
  obtain ⟨c, t', rfl, hsp, hsep⟩ := hv.value_start lexical_decodedOf
  simp only [IsSeparator, not_or] at hsep
  rcases advance_cases h.advance with ⟨t, ht, _⟩ | ⟨t, ht, _⟩ | ⟨t, ht, _⟩ | rfl
  · exact more_of_start ht (by decide) (by decide)
  · exact more_of_start ht (by decide) (by decide)
  · exact more_of_start ht (by decide) (by decide)
  · exact more_of_start (by rw [hws.skipSpace_eq, skipSpace_cons hsp]) hsep.2.2.1 hsep.2.2.2

theorem more_of_keyPosition (h : KeyPosition d d') (hws : Ws d'.buf ('"' :: t)) :
    d.more = true := by
  rcases advance_cases h.advance with ⟨t, ht, _⟩ | ⟨t, ht, _⟩ | ⟨t, ht, _⟩ | rfl
  · exact more_of_start ht (by decide) (by decide)
  · exact more_of_start ht (by decide) (by decide)
  · exact more_of_start ht (by decide) (by decide)
  · exact more_of_start (by rw [hws.skipSpace_eq, skipSpace_cons (by decide)]) (by decide)
      (by decide)

theorem decodes_scalar {v : Value} {tok : Token} (hv : tokenValue tok = some v)
    (hread : Reads DecodedOf LiteralOf (.value v) t r)
    (hscan : Follow r → scanScalar t = some (tok, r)) (h1 : ∀ u, t ≠ '[' :: u)
    (h2 : ∀ u, t ≠ '{' :: u) : Decodes (.value v) t r := by
  intro fuel d d₁ hr _ hfuel hpos hws
  have hlen := hread.length_lt lexical_decodedOf
  obtain ⟨c, t', rfl, hsp, hsep⟩ := hread.value_start lexical_decodedOf
  obtain ⟨fuel, rfl⟩ : ∃ n, fuel = n + 1 := ⟨fuel - 1, by omega⟩
  have hskip : skipSpace d₁.buf = c :: t' := by rw [hws.skipSpace_eq, skipSpace_cons hsp]
  refine decodeValue_scalar ?_ hv fuel
  rw [token_of_advance hpos.advance]
  refine next_scalar hskip hpos.allowed hsep ?_ ?_ (hscan hr)
  · rintro rfl
    exact h1 _ rfl
  · rintro rfl
    exact h2 _ rfl

theorem decodeValue_openArray {fuel : ℕ} (h : ValuePosition d d') (hws : Ws d'.buf ('[' :: t)) :
    decodeValue (fuel + 1) d
      = decodeArray fuel [] ⟨t, .arrayStart, d'.tokenState :: d'.tokenStack⟩ := by
  have hskip : skipSpace d'.buf = '[' :: t := by
    rw [hws.skipSpace_eq, skipSpace_cons (by decide)]
  rw [decodeValue, token_of_advance h.advance, next_openArray hskip h.allowed]
  rfl

theorem decodeValue_openObject {fuel : ℕ} (h : ValuePosition d d') (hws : Ws d'.buf ('{' :: t)) :
    decodeValue (fuel + 1) d
      = decodeObject fuel [] ⟨t, .objectStart, d'.tokenState :: d'.tokenStack⟩ := by
  have hskip : skipSpace d'.buf = '{' :: t := by
    rw [hws.skipSpace_eq, skipSpace_cons (by decide)]
  rw [decodeValue, token_of_advance h.advance, next_openObject hskip h.allowed]
  rfl

theorem decodeArray_close {fuel : ℕ} {result : List Value} {s : TokenState}
    {stack : List TokenState} (h : Ws d.buf (']' :: t))
    (hs : d.tokenState = .arrayStart ∨ d.tokenState = .arrayComma)
    (hstack : d.tokenStack = s :: stack) :
    decodeArray (fuel + 1) result d = .ok (.arr result, ⟨t, s.valueEnd, stack⟩) := by
  have hskip : skipSpace d.buf = ']' :: t := skipSpace_of_separator h (by simp [IsSeparator])
  have hmore : d.more = false := by
    unfold Decoder.more
    rw [hskip]
    rfl
  rw [decodeArray, hmore, if_neg (by decide), token_closeArray hskip hs hstack]
  rfl

theorem decodeObject_close {fuel : ℕ} {result : List (List Char × Value)} {s : TokenState}
    {stack : List TokenState} (h : Ws d.buf ('}' :: t))
    (hs : d.tokenState = .objectStart ∨ d.tokenState = .objectComma)
    (hstack : d.tokenStack = s :: stack) :
    decodeObject (fuel + 1) result d = .ok (.obj result, ⟨t, s.valueEnd, stack⟩) := by
  have hskip : skipSpace d.buf = '}' :: t := skipSpace_of_separator h (by simp [IsSeparator])
  have hmore : d.more = false := by
    unfold Decoder.more
    rw [hskip]
    rfl
  rw [decodeObject, hmore, if_neg (by decide), token_closeObject hskip hs hstack]
  rfl

theorem decodeArray_cons {fuel : ℕ} {result : List Value} {x : Value} (hmore : d.more = true)
    (h : decodeValue fuel d = .ok (x, d')) :
    decodeArray (fuel + 1) result d = decodeArray fuel (result ++ [x]) d' := by
  rw [decodeArray, if_pos hmore, h]

theorem decodeObject_cons {fuel : ℕ} {result : List (List Char × Value)} {x : Value}
    {key : List Char} {d'' : Decoder} (hmore : d.more = true)
    (htok : d.token = some (.string key, d'')) (hkey : key ∉ Json.names result)
    (h : decodeValue fuel d'' = .ok (x, d')) :
    decodeObject (fuel + 1) result d = decodeObject fuel (result ++ [(key, x)]) d' := by
  rw [decodeObject, if_pos hmore, htok]
  dsimp only
  rw [if_neg hkey, h]

/-- Past an element the array is at its comma. -/
theorem arrayComma_of_position (h : ValuePosition d d')
    (hs : d.tokenState = .arrayStart ∨ d.tokenState = .arrayComma) :
    (afterValue d' r).tokenState = .arrayComma := by
  rcases hs with hs | hs
  · rcases advance_cases h.advance with ⟨_, _, hc, _⟩ | ⟨_, _, hc, _⟩ | ⟨_, _, hc, _⟩ | rfl
    · rw [hs] at hc
      cases hc
    · rw [hs] at hc
      cases hc
    · rw [hs] at hc
      cases hc
    · rw [afterValue, hs]
      rfl
  · rw [afterValue, (comma_of_position hs h).2]
    rfl

/-- A member's key and value, from the key's opening quote. -/
theorem decode_member {k : List Char} {x : Value} {t₁ t₂ t₃ t₄ t₅ : List Char} {fuel : ℕ}
    {result : List (List Char × Value)} (hpos : KeyPosition d d') (hbuf : Ws d'.buf ('"' :: t₁))
    (hk : DecodedOf t₁ k t₂) (hcolon : Ws t₂ (':' :: t₃)) (hws : Ws t₃ t₄)
    (hx : Decodes (.value x) t₄ t₅) (hfollow : Follow t₅) (hdist : x.Distinct)
    (hfuel : t₄.length ≤ fuel + t₅.length) (hkey : k ∉ Json.names result) :
    decodeObject (fuel + 1) result d
      = decodeObject fuel (result ++ [(k, x)]) ⟨t₅, .objectComma, d.tokenStack⟩ := by
  obtain ⟨us, hbody, rfl⟩ := hk
  have hskip : skipSpace d'.buf = '"' :: t₁ := by
    rw [hbuf.skipSpace_eq, skipSpace_cons (by decide)]
  have htok : d.token = some (.string (utf16DecodeLossy us), ⟨t₂, .objectColon, d'.tokenStack⟩) := by
    rw [token_of_advance hpos.advance, next_key hskip hpos.key hbody]
  have hadv : Decoder.advance ⟨t₂, .objectColon, d'.tokenStack⟩
      = some ⟨t₃, .objectValue, d'.tokenStack⟩ :=
    advance_colon (skipSpace_of_separator hcolon (by simp [IsSeparator])) rfl
  have hval := hx fuel _ _ hfollow hdist hfuel ⟨hadv, rfl⟩ hws
  rw [decodeObject_cons (more_of_keyPosition hpos hbuf) htok hkey hval, afterValue,
    ← advance_stack hpos.advance]
  rfl

theorem decodes_of_reads {g : JsonText.Symbol (List Char) Number}
    (h : Reads DecodedOf LiteralOf g t r) : Decodes g t r := by
  induction h with
  | null r => exact decodes_scalar rfl (.null r) (fun _ => rfl) (by simp) (by simp)
  | true r => exact decodes_scalar rfl (.true r) (fun _ => rfl) (by simp) (by simp)
  | false r => exact decodes_scalar rfl (.false r) (fun _ => rfl) (by simp) (by simp)
  | @num n t r hn =>
    have hn' : t = n.text ++ r := hn
    subst hn'
    have hscan : Follow r → scanScalar (n.text ++ r) = some (.number n, r) := scanScalar_number n
    refine decodes_scalar rfl (.num rfl) hscan ?_ ?_
    · intro u hu
      obtain ⟨d, ds, hd⟩ := int_eq_cons n
      unfold Number.text at hu
      rw [hd] at hu
      split_ifs at hu
      · cases hu
      · have := digit?_digitChar d
        rw [(List.cons.inj hu).1] at this
        cases this
    · intro u hu
      obtain ⟨d, ds, hd⟩ := int_eq_cons n
      unfold Number.text at hu
      rw [hd] at hu
      split_ifs at hu
      · cases hu
      · have := digit?_digitChar d
        rw [(List.cons.inj hu).1] at this
        cases this
  | @str s t r hs =>
    obtain ⟨us, hbody, rfl⟩ := hs
    refine decodes_scalar (show tokenValue (.string (utf16DecodeLossy us)) = _ from rfl)
      (.str ⟨us, hbody, rfl⟩) (fun _ => ?_) (by simp) (by simp)
    rw [scanScalar, scanString_eq_some.2 hbody, Option.map_some]
  | @emptyArr t r hws =>
    intro fuel d d₁ _ _ hfuel hpos hbuf
    have := hws.length_le
    simp only [List.length_cons] at hfuel this
    obtain ⟨fuel, rfl⟩ : ∃ n, fuel = n + 1 + 1 := ⟨fuel - 2, by omega⟩
    rw [decodeValue_openArray hpos hbuf, decodeArray_close hws (.inl rfl) rfl, afterValue]
  | @arr xs t r hxs ih =>
    intro fuel d d₁ _ hdist hfuel hpos hbuf
    have hlen := hxs.length_lt lexical_decodedOf
    simp only [List.length_cons] at hfuel hlen
    obtain ⟨fuel, rfl⟩ : ∃ n, fuel = n + 1 := ⟨fuel - 1, by omega⟩
    rw [decodeValue_openArray hpos hbuf]
    refine ih fuel ⟨t, .arrayStart, d₁.tokenState :: d₁.tokenStack⟩
      ⟨t, .arrayStart, d₁.tokenState :: d₁.tokenStack⟩ [] _ _ r rfl
      (Json.distinct_arr.1 hdist) ?_ ?_ rfl (.inl rfl) rfl
    · rw [List.length_cons]
      omega
    · obtain ⟨c, u, hskip, h1, h2⟩ : ∃ c u, skipSpace t = c :: u ∧ c ≠ ':' ∧ c ≠ ',' := by
        cases hxs with
        | lastElement hw hx _ =>
          obtain ⟨c, u, rfl, hsp, hsep⟩ := hx.value_start lexical_decodedOf
          simp only [IsSeparator, not_or] at hsep
          exact ⟨c, u, by rw [hw.skipSpace_eq, skipSpace_cons hsp], hsep.2.1, hsep.1⟩
        | element hw hx _ _ =>
          obtain ⟨c, u, rfl, hsp, hsep⟩ := hx.value_start lexical_decodedOf
          simp only [IsSeparator, not_or] at hsep
          exact ⟨c, u, by rw [hw.skipSpace_eq, skipSpace_cons hsp], hsep.2.1, hsep.1⟩
      exact ⟨advance_same hskip h1 h2, rfl⟩
  | @emptyObj t r hws =>
    intro fuel d d₁ _ _ hfuel hpos hbuf
    have := hws.length_le
    simp only [List.length_cons] at hfuel this
    obtain ⟨fuel, rfl⟩ : ∃ n, fuel = n + 1 + 1 := ⟨fuel - 2, by omega⟩
    rw [decodeValue_openObject hpos hbuf, decodeObject_close hws (.inl rfl) rfl, afterValue]
  | @obj ms t r hms ih =>
    intro fuel d d₁ _ hdist hfuel hpos hbuf
    have hlen := hms.length_lt lexical_decodedOf
    simp only [List.length_cons] at hfuel hlen
    obtain ⟨fuel, rfl⟩ : ∃ n, fuel = n + 1 := ⟨fuel - 1, by omega⟩
    obtain ⟨hnd, hdist⟩ := Json.distinct_obj.1 hdist
    rw [decodeValue_openObject hpos hbuf]
    refine ih fuel ⟨t, .objectStart, d₁.tokenState :: d₁.tokenStack⟩
      ⟨t, .objectStart, d₁.tokenState :: d₁.tokenStack⟩ [] _ _ r rfl hdist hnd ?_ ?_
      rfl (.inl rfl) rfl
    · rw [List.length_cons]
      omega
    · obtain ⟨u, hskip⟩ : ∃ u, skipSpace t = '"' :: u := by
        cases hms with
        | lastMember hw _ _ _ _ _ => exact ⟨_, by rw [hw.skipSpace_eq, skipSpace_cons (by decide)]⟩
        | member hw _ _ _ _ _ _ => exact ⟨_, by rw [hw.skipSpace_eq, skipSpace_cons (by decide)]⟩
      exact ⟨advance_same hskip (by decide) (by decide), .inl rfl⟩
  | @lastElement x t t₁ t₂ r hws hx hend ih =>
    rintro fuel d d₁ result s stack r' rfl hdist hfuel hpos rfl hs hstack
    have hlen := hx.length_lt lexical_decodedOf
    have := hws.length_le
    have := hend.length_le
    simp only [List.length_cons] at hfuel this
    obtain ⟨fuel, rfl⟩ : ∃ n, fuel = n + 1 + 1 := ⟨fuel - 2, by omega⟩
    have hfollow : Follow t₂ := follow_of_ws hend (follow_of_separator (by simp [IsSeparator]))
    rw [decodeArray_cons (more_of_valuePosition hpos hws hx)
      (ih (fuel + 1) d d₁ hfollow (hdist x (by simp)) (by omega) hpos hws)]
    refine decodeArray_close hend (.inr (arrayComma_of_position hpos hs)) ?_
    rw [afterValue, advance_stack hpos.advance, hstack]
  | @element x xs t t₁ t₂ t₃ r hws hx hcomma hxs ih ihxs =>
    rintro fuel d d₁ result s stack r' rfl hdist hfuel hpos rfl hs hstack
    have hlen := hx.length_lt lexical_decodedOf
    have hlen' := hxs.length_lt lexical_decodedOf
    have := hws.length_le
    have := hcomma.length_le
    simp only [List.length_cons] at hfuel this hlen'
    obtain ⟨fuel, rfl⟩ : ∃ n, fuel = n + 1 := ⟨fuel - 1, by omega⟩
    have hfollow : Follow t₂ := follow_of_ws hcomma (follow_of_separator (by simp [IsSeparator]))
    obtain ⟨hx', hxs'⟩ := List.forall_mem_cons.1 hdist
    rw [decodeArray_cons (more_of_valuePosition hpos hws hx)
      (ih fuel d d₁ hfollow hx' (by omega) hpos hws)]
    have hstate : (afterValue d₁ t₂).tokenState = .arrayComma := arrayComma_of_position hpos hs
    have hskip : skipSpace (afterValue d₁ t₂).buf = ',' :: t₃ :=
      skipSpace_of_separator hcomma (by simp [IsSeparator])
    rw [ihxs fuel _ _ (result ++ [x]) s stack r' rfl hxs' (by rw [List.length_cons]; omega)
      ⟨advance_arrayComma hskip hstate, rfl⟩ rfl (.inr hstate)
      (by rw [afterValue, advance_stack hpos.advance, hstack]),
      List.append_assoc, List.singleton_append]
  | @lastMember k x t t₁ t₂ t₃ t₄ t₅ r hws hk hcolon hws' hx hend ih =>
    rintro fuel d d₁ result s stack r' rfl hdist hnd hfuel hpos rfl hs hstack
    obtain ⟨us, hbody, rfl⟩ := hk
    have hlen := hx.length_lt lexical_decodedOf
    have := hbody.length_lt
    have := hws.length_le
    have := hcolon.length_le
    have := hws'.length_le
    have := hend.length_le
    simp only [List.length_cons] at *
    obtain ⟨fuel, rfl⟩ : ∃ n, fuel = n + 1 + 1 := ⟨fuel - 2, by omega⟩
    have hfollow : Follow t₅ := follow_of_ws hend (follow_of_separator (by simp [IsSeparator]))
    rw [Json.names_append, List.nodup_append_comm] at hnd
    rw [decode_member hpos hws ⟨us, hbody, rfl⟩ hcolon hws' ih hfollow
      (hdist (utf16DecodeLossy us, x) (by simp)) (by omega) (List.nodup_cons.1 hnd).1]
    exact decodeObject_close hend (.inr rfl) hstack
  | @member k x ms t t₁ t₂ t₃ t₄ t₅ t₆ r hws hk hcolon hws' hx hcomma hms ih ihms =>
    rintro fuel d d₁ result s stack r' rfl hdist hnd hfuel hpos rfl hs hstack
    obtain ⟨us, hbody, rfl⟩ := hk
    have hlen := hx.length_lt lexical_decodedOf
    have hlen' := hms.length_lt lexical_decodedOf
    have := hbody.length_lt
    have := hws.length_le
    have := hcolon.length_le
    have := hws'.length_le
    have := hcomma.length_le
    simp only [List.length_cons] at *
    obtain ⟨fuel, rfl⟩ : ∃ n, fuel = n + 1 := ⟨fuel - 1, by omega⟩
    have hfollow : Follow t₅ := follow_of_ws hcomma (follow_of_separator (by simp [IsSeparator]))
    obtain ⟨hx', hms'⟩ := List.forall_mem_cons.1 hdist
    have hkey : utf16DecodeLossy us ∉ Json.names result := by
      rw [Json.names_append, List.nodup_append_comm, Json.names_cons, List.cons_append,
        List.nodup_cons, List.mem_append, not_or] at hnd
      exact hnd.1.2
    rw [decode_member hpos hws ⟨us, hbody, rfl⟩ hcolon hws' ih hfollow hx' (by omega) hkey]
    have hskip : skipSpace t₅ = ',' :: t₆ :=
      skipSpace_of_separator hcomma (by simp [IsSeparator])
    rw [ihms fuel ⟨t₅, .objectComma, d.tokenStack⟩ _ (result ++ [(utf16DecodeLossy us, x)]) s stack
      r' rfl hms' (by simpa using hnd)
      (by rw [List.length_cons]; omega) ⟨advance_objectComma hskip rfl, .inr rfl⟩ rfl (.inr rfl)
      hstack, List.append_assoc, List.singleton_append]

end Complete

/-! ## The whole text -/

section Whole

/-- `CanonicalizeJSON`'s decoding of a whole text. -/
def decodeText (text : List Char) : Option Value :=
  match decodeValue (text.length + 1) (newDecoder text) with
  | .error _ => none
  | .ok (value, decoder) => if decoder.more || !decoder.atEOF then none else some value

theorem skipSpace_eq_nil {t : List Char} : skipSpace t = [] ↔ Ws t [] := by
  constructor
  · exact ws_of_skipSpace
  · intro h
    rw [h.skipSpace_eq]
    rfl

/-- The decoder accepts exactly the texts of values whose objects repeat no name. -/
theorem decodeText_eq_some {text : List Char} {v : Value} :
    decodeText text = some v ↔ Text DecodedOf LiteralOf v text ∧ v.Distinct := by
  unfold decodeText
  constructor
  · intro h
    split at h
    · cases h
    rename_i value d hdec
    split_ifs at h with hend
    obtain rfl := Option.some.inj h
    obtain ⟨d₁, t, hpos, hws, hreads, hdist, -, -⟩ := decodeValue_sound hdec (.inl rfl)
    have hd₁ : d₁ = newDecoder text := by
      rcases advance_cases hpos.advance with ⟨_, _, hc, _⟩ | ⟨_, _, hc, _⟩ | ⟨_, _, hc, _⟩ | rfl
      · cases hc
      · cases hc
      · cases hc
      · rfl
    subst hd₁
    have heof : skipSpace d.buf = [] := by
      simp only [Bool.or_eq_true, Bool.not_eq_true', not_or, Bool.not_eq_false] at hend
      simpa [Decoder.atEOF] using hend.2
    exact ⟨⟨t, d.buf, hws, hreads, skipSpace_eq_nil.1 heof⟩, hdist⟩
  · rintro ⟨⟨t₁, t₂, hws, hreads, hend⟩, hdist⟩
    have hlen := hws.length_le
    have hskip : skipSpace (newDecoder text).buf = skipSpace t₁ := hws.skipSpace_eq
    obtain ⟨c, t', rfl, hsp, hsep⟩ := hreads.value_start lexical_decodedOf
    simp only [IsSeparator, not_or] at hsep
    rw [skipSpace_cons hsp] at hskip
    have hdec := decodes_of_reads hreads (text.length + 1) (newDecoder text) (newDecoder text)
      (follow_of_ws hend trivial) hdist (by omega)
      ⟨advance_same hskip hsep.2.1 hsep.1, rfl⟩ hws
    rw [hdec]
    dsimp only
    have heof : skipSpace t₂ = [] := skipSpace_eq_nil.2 hend
    have hmore : (afterValue (newDecoder text) t₂).more = false := by
      unfold Decoder.more
      rw [afterValue, heof]
    have hat : (afterValue (newDecoder text) t₂).atEOF = true := by
      unfold Decoder.atEOF
      rw [afterValue, heof]
      rfl
    rw [hmore, hat]
    rfl

end Whole

end Canonical
