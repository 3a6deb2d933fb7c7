import Jumpship.Lib.Literals
import Jumpship.Proofs.Surrogates

/-!
# The scan and the literals of a text

`hasLoneSurrogateEscape` knows where a text's literals start and end without reading its grammar:
read over a literal it stops in a lone surrogate or after the closing quote, and read over
anything else it stays outside.
-/

namespace Canonical

open Go JsonText Unicode

/-! ## One literal -/

section Literals

/-- The code units of a literal fail to decode exactly when it has a lone surrogate. -/
theorem utf16Decode_units : ∀ ps : List Piece, (∀ p ∈ ps, p.Simple) →
    (utf16Decode (ps.flatMap Piece.units) = none ↔ LoneEscape ps)
  | [], _ => by
    refine iff_of_false (fun h => ?_) not_loneEscape_nil
    rw [List.flatMap_nil, utf16Decode] at h
    cases h
  | .plain c :: ps, h => by
    rw [List.flatMap_cons, Piece.units, utf16Decode_char, Option.map_eq_none_iff,
      utf16Decode_units ps (List.forall_mem_cons.1 h).2,
      loneEscape_cons (p := .plain c) fun v hv => by cases hv]
  | .escape u :: ps, h => by
    obtain ⟨hu, hps⟩ := List.forall_mem_cons.1 h
    have hu : u < 0x80 := hu
    rw [List.flatMap_cons, Piece.units, List.singleton_append,
      utf16Decode_unit (by simp [isHighSurrogate]; omega) (by simp [isLowSurrogate]; omega),
      Option.map_eq_none_iff, utf16Decode_units ps hps,
      loneEscape_cons (p := .escape u) fun v hv => by cases hv]
  | .unicode u :: ps, h => by
    obtain ⟨-, hps⟩ := List.forall_mem_cons.1 h
    rw [List.flatMap_cons, Piece.units, List.singleton_append]
    cases h1 : isHighSurrogate u with
    | false =>
      cases h2 : isLowSurrogate u with
      | false =>
        rw [utf16Decode_unit h1 h2, Option.map_eq_none_iff, utf16Decode_units ps hps,
          loneEscape_cons fun v hv => by cases hv; exact ⟨h1, h2⟩]
      | true =>
        refine iff_of_true ?_ (loneEscape_low h2 ps)
        rw [utf16Decode.eq_def]
        simp [h1, h2]
    | true =>
      rcases ps with _ | ⟨c | v | v, ps⟩
      · refine iff_of_true ?_ (loneEscape_high h1 fun v rest heq => by cases heq)
        rw [List.flatMap_nil, utf16Decode.eq_def]
        simp [h1]
      · obtain ⟨v, vs, hv, hlow⟩ := utf16Char_not_low c
        refine iff_of_true ?_ (loneEscape_high h1 fun v rest heq => by cases heq)
        rw [List.flatMap_cons, Piece.units, hv, List.cons_append, utf16Decode_high h1 hlow]
      · have hv : v < 0x80 := (List.forall_mem_cons.1 hps).1
        refine iff_of_true ?_ (loneEscape_high h1 fun v rest heq => by cases heq)
        rw [List.flatMap_cons, Piece.units, List.singleton_append,
          utf16Decode_high h1 (by simp [isLowSurrogate]; omega)]
      · rw [List.flatMap_cons, Piece.units, List.singleton_append]
        cases h2 : isLowSurrogate v with
        | true =>
          rw [utf16Decode_pair h1 h2, Option.map_eq_none_iff,
            utf16Decode_units ps (List.forall_mem_cons.1 hps).2, loneEscape_pair h1 h2]
        | false =>
          refine iff_of_true (utf16Decode_high h1 h2) (loneEscape_high h1 fun w rest heq => ?_)
          cases heq
          exact h2

variable {t r : List Char} {ps : List Piece}

/-- What the scan answers for a text whose strings are these and what is left of it. -/
structure Scanned (t : List Char) (strings : List (List Piece)) (r : List Char) : Prop where
  /-- It answers true in a lone surrogate. -/
  lone : ∀ ps ∈ strings, LoneEscape ps → surrogateScan false false (utf8 t) = true
  /-- Past every string that has none, it is outside a literal. -/
  paired : (∀ ps ∈ strings, ¬ LoneEscape ps) →
    surrogateScan false false (utf8 t) = surrogateScan false false (utf8 r)

theorem surrogateScan_lone_literal (h : PiecesOf t ps r) (hlone : LoneEscape ps) :
    surrogateScan true false (utf8 t) = true := by
  rw [surrogateScan_body h.stringBody, (utf16Decode_units ps h.simple).2 hlone]
  rfl

/-- A literal without lone surrogates ends, for the scan too, at its closing quote. -/
theorem surrogateScan_literal (h : PiecesOf t ps r) (hpaired : ¬ LoneEscape ps) :
    surrogateScan true false (utf8 t) = surrogateScan false false (utf8 r) := by
  rw [surrogateScan_body h.stringBody, if_pos]
  rw [Option.isSome_iff_ne_none]
  exact fun hnone => hpaired ((utf16Decode_units ps h.simple).1 hnone)

end Literals

/-! ## Texts -/

section Texts

variable {t t₁ r r₁ : List Char} {ps : List Piece} {ss ss' : List (List Piece)}

theorem Scanned.of_eq (ht : surrogateScan false false (utf8 t) = surrogateScan false false (utf8 t₁))
    (h : Scanned t₁ ss r₁)
    (hr : surrogateScan false false (utf8 r₁) = surrogateScan false false (utf8 r)) :
    Scanned t ss r :=
  ⟨fun ps hps hlone => ht.trans (h.lone ps hps hlone), fun hpaired =>
    ht.trans ((h.paired hpaired).trans hr)⟩

theorem Scanned.nil (h : surrogateScan false false (utf8 t) = surrogateScan false false (utf8 r)) :
    Scanned t [] r :=
  ⟨fun ps hps => (by cases hps), fun _ => h⟩

theorem Scanned.append (h : Scanned t ss t₁) (h' : Scanned t₁ ss' r) : Scanned t (ss ++ ss') r := by
  constructor
  · intro ps hps hlone
    by_cases hpaired : ∀ ps ∈ ss, ¬ LoneEscape ps
    · rcases List.mem_append.1 hps with hps | hps
      · exact absurd hlone (hpaired ps hps)
      · exact (h.paired hpaired).trans (h'.lone ps hps hlone)
    · push Not at hpaired
      obtain ⟨ps', hps', hlone'⟩ := hpaired
      exact h.lone ps' hps' hlone'
  · intro hpaired
    obtain ⟨hss, hss'⟩ := List.forall_mem_append.1 hpaired
    exact (h.paired hss).trans (h'.paired hss')

theorem Scanned.literal (h : PiecesOf t ps r) : Scanned ('"' :: t) [ps] r := by
  constructor
  · intro ps' hps' hlone
    obtain rfl := List.mem_singleton.1 hps'
    rw [surrogateScan_open, surrogateScan_lone_literal h hlone]
  · intro hpaired
    rw [surrogateScan_open, surrogateScan_literal h (hpaired ps List.mem_cons_self)]

/-- Every piece of a text takes the scan from outside a literal to outside a literal. -/
theorem scanned_of_reads {g : JsonText.Symbol (List Piece) Number}
    (h : Reads PiecesOf LiteralOf g t r) : Scanned t g.strings r := by
  induction h with
  | null r => exact .nil (surrogateScan_text (s := ['n', 'u', 'l', 'l']) (by simp) r)
  | true r => exact .nil (surrogateScan_text (s := ['t', 'r', 'u', 'e']) (by simp) r)
  | false r => exact .nil (surrogateScan_text (s := ['f', 'a', 'l', 's', 'e']) (by simp) r)
  | @num n t r hn =>
    obtain rfl : t = n.text ++ r := hn
    exact .nil (surrogateScan_text (text_chars n) r)
  | str hs => exact .literal hs
  | emptyArr hws | emptyObj hws =>
    refine .nil ?_
    rw [surrogateScan_char (by decide) (by decide), surrogateScan_ws hws,
      surrogateScan_char (by decide) (by decide)]
  | arr _ ih | obj _ ih =>
    exact .of_eq (surrogateScan_char (by decide) (by decide) _) ih
      (surrogateScan_char (by decide) (by decide) _)
  | lastElement hws _ hend ih =>
    rw [Symbol.strings, stringsList, stringsList, List.append_nil]
    exact .of_eq (surrogateScan_ws hws) ih (surrogateScan_ws hend)
  | element hws _ hcomma _ ih ihxs =>
    refine Scanned.append (.of_eq (surrogateScan_ws hws) ih ?_) ihxs
    rw [surrogateScan_ws hcomma, surrogateScan_char (by decide) (by decide)]
  | lastMember hws hk hcolon hws' _ hend ih =>
    rw [Symbol.strings, stringsMembers, stringsMembers, List.append_nil]
    refine .append (.of_eq (surrogateScan_ws hws) (.literal hk) ?_ : Scanned _ [_] _)
      (.of_eq rfl ih (surrogateScan_ws hend))
    rw [surrogateScan_ws hcolon, surrogateScan_char (by decide) (by decide),
      surrogateScan_ws hws']
  | member hws hk hcolon hws' _ hcomma _ ih ihms =>
    refine .append (.of_eq (surrogateScan_ws hws) (.literal hk) ?_ : Scanned _ [_] _)
      (Scanned.append (.of_eq rfl ih ?_) ihms)
    · rw [surrogateScan_ws hcolon, surrogateScan_char (by decide) (by decide),
        surrogateScan_ws hws']
    · rw [surrogateScan_ws hcomma, surrogateScan_char (by decide) (by decide)]

/-- On a JSON text the scan answers whether some literal or member name has a lone surrogate's
escape, and on the way it is inside a literal exactly where the grammar is. -/
theorem hasLoneSurrogateEscape_exact {input : List UInt8} {text : List Char}
    {v : Json (List Piece) Number} (hutf8 : utf8Decode input = some text)
    (htext : Text PiecesOf LiteralOf v text) :
    (hasLoneSurrogateEscape input = true ↔ ∃ ps ∈ strings v, LoneEscape ps) ∧
      (∀ {g : JsonText.Symbol (List Piece) Number} {t r : List Char},
        Reads PiecesOf LiteralOf g t r → (∀ ps ∈ g.strings, ¬ LoneEscape ps) →
          surrogateScan false false (utf8 t) = surrogateScan false false (utf8 r)) ∧
      ∀ {t r : List Char} {ps : List Piece}, PiecesOf t ps r → ¬ LoneEscape ps →
        surrogateScan true false (utf8 t) = surrogateScan false false (utf8 r) := by
  refine ⟨?_, fun h => (scanned_of_reads h).paired, surrogateScan_literal⟩
  obtain ⟨t₁, t₂, hws, hreads, hend⟩ := htext
  have hscanned : Scanned text (strings v) [] :=
    .of_eq (surrogateScan_ws hws) (scanned_of_reads hreads) (surrogateScan_ws hend)
  rw [← utf8Decode_eq_some.1 hutf8, hasLoneSurrogateEscape]
  constructor
  · intro hscan
    by_contra hno
    push Not at hno
    rw [hscanned.paired hno] at hscan
    cases hscan
  · rintro ⟨ps, hps, hlone⟩
    exact hscanned.lone ps hps hlone

/-- The text `"\\\uD800"`: an escaped backslash, then a high surrogate. -/
theorem hasLoneSurrogateEscape_exact_sample :
    hasLoneSurrogateEscape (ascii "\"\\\\\\uD800\"") = true := by
  have htext : Text PiecesOf LiteralOf (.str [.escape 0x5C, .unicode 0xD800])
      ['"', '\\', '\\', '\\', 'u', 'D', '8', '0', '0', '"'] :=
    ⟨_, _, .nil _, .str (.escape rfl (.unicode rfl (.close []))), .nil _⟩
  have hdecoded : utf8Decode (ascii "\"\\\\\\uD800\"")
      = some ['"', '\\', '\\', '\\', 'u', 'D', '8', '0', '0', '"'] := by
    decide +kernel
  refine (hasLoneSurrogateEscape_exact hdecoded htext).1.2 ⟨_, List.mem_cons_self, ?_⟩
  exact ⟨[.escape 0x5C], 0xD800, [], rfl, .inl ⟨rfl, fun v rest heq => (by cases heq)⟩⟩

end Texts

end Canonical
