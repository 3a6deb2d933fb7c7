import Jumpship.Capabilities.LivingSource
import Jumpship.Lib.Fallible
import Jumpship.Lib.Suffixes

/-!
# The anchors of a living source

An anchor takes a suffix when its id is used, and the suffixed id is not checked again. Ids of both
kinds always have their pattern's form; they are distinct unless an anchor finds its suffixed id taken
as well, by a heading or line that spells it or by one that is equal to it.
-/

namespace Capabilities

open Fallible Pattern Regex Suffixes Unicode

/-! ## Patterns -/

section Patterns

def wordClass : Regex := .cls [('a', 'z'), ('0', '9')]

/-- `NUMBERED_ANCHOR_RE`: `^numbered-list:([0-9]+[a-z]?):([a-z0-9]+(?:-[a-z0-9]+)*)$` -/
def numberedAnchorRe : Regex :=
  .cat (word "numbered-list:") (.cat (.plus (.cls [('0', '9')])) (.cat (.opt (.cls [('a', 'z')]))
    (.cat (.literal ':') (.cat (.plus wordClass)
      (.star (.group (.cat (.literal '-') (.plus wordClass))))))))

/-- `ADDENDUM_ANCHOR_RE`: `^addendum:[a-z0-9]+(?:[a-z0-9-]*[a-z0-9])?$` -/
def addendumAnchorRe : Regex :=
  .cat (word "addendum:") (.cat (.plus wordClass)
    (.opt (.group (.cat (.star (.cls [('a', 'z'), ('0', '9'), ('-', '-')])) wordClass))))

/-- `pattern.fullmatch(s)` -/
def fullmatch (p : Regex) (s : List Char) : Bool := p.expression.rmatch (s.map Char.toNat)

variable {w u v : List ℕ} {s t : List Char}

theorem mem_word_expression (text : String) :
    text.toList.map Char.toNat ∈ (Regex.word text).expression.matches' := by
  rw [Regex.word]
  induction text.toList with
  | nil => exact mem_matches_one.2 rfl
  | cons c cs ih =>
    cases cs with
    | nil => exact mem_matches_char.2 rfl
    | cons d cs => exact mem_matches_mul.2 ⟨[c.toNat], mem_matches_char.2 rfl, _, ih, rfl⟩

theorem mem_cls {ranges : List (Char × Char)} {c : ℕ} (h : c ∈ ranges.flatMap codes) :
    [c] ∈ (Regex.cls ranges).expression.matches' := mem_oneOf.2 ⟨c, h, rfl⟩

theorem mem_plus_cls {ranges : List (Char × Char)} (hne : w ≠ [])
    (h : ∀ c ∈ w, c ∈ ranges.flatMap codes) : w ∈ (Regex.cls ranges).plus.expression.matches' := by
  obtain ⟨c, w, rfl⟩ := List.exists_cons_of_ne_nil hne
  obtain ⟨hc, hw⟩ := List.forall_mem_cons.1 h
  exact mem_matches_mul.2 ⟨[c], mem_cls hc, w, mem_star_oneOf.2 hw, rfl⟩

theorem codes_of_isWordChar {c : Char} (h : isWordChar c = true) :
    c.toNat ∈ [('a', 'z'), ('0', '9')].flatMap codes := by
  simp only [isWordChar, isLower, isDigit, Bool.or_eq_true, Bool.and_eq_true, decide_eq_true_eq,
    Char.le_def, UInt32.le_iff_toNat_le] at h
  have h' : (97 ≤ c.toNat ∧ c.toNat ≤ 122) ∨ (48 ≤ c.toNat ∧ c.toNat ≤ 57) := h
  simp only [List.flatMap_cons, List.flatMap_nil, List.append_nil, List.mem_append, codes,
    List.mem_range'_1]
  have ha : 'a'.toNat = 97 := rfl
  have hz : 'z'.toNat = 122 := rfl
  have h0 : '0'.toNat = 48 := rfl
  have h9 : '9'.toNat = 57 := rfl
  omega

/-- Words of letters and digits. -/
def AreWords (words : List (List Char)) : Prop :=
  words ≠ [] ∧ ∀ word ∈ words, word ≠ [] ∧ ∀ c ∈ word, isWordChar c = true

theorem mem_plus_word {word : List Char} (h : word ≠ [] ∧ ∀ c ∈ word, isWordChar c = true) :
    word.map Char.toNat ∈ wordClass.plus.expression.matches' := by
  refine mem_plus_cls (by simpa using h.1) fun c hc => ?_
  obtain ⟨d, hd, rfl⟩ := List.mem_map.1 hc
  exact codes_of_isWordChar (h.2 d hd)

theorem intercalate_cons (sep word : List Char) (words : List (List Char)) :
    sep.intercalate (word :: words) = word ++ words.flatMap (sep ++ ·) := by
  induction words generalizing word with
  | nil => simp
  | cons w words ih =>
    rw [List.intercalate_cons_cons, ih, List.flatMap_cons, List.append_assoc, List.append_assoc]

/-- Words joined by hyphens, as the pattern of a slug has them. -/
theorem mem_slug {words : List (List Char)} (h : AreWords words) :
    (['-'].intercalate words).map Char.toNat ∈
      (Regex.cat wordClass.plus
        (.star (.group (.cat (.literal '-') wordClass.plus)))).expression.matches' := by
  obtain ⟨word, words, rfl⟩ := List.exists_cons_of_ne_nil h.1
  obtain ⟨hword, hwords⟩ := List.forall_mem_cons.1 h.2
  rw [intercalate_cons, List.map_append]
  refine mem_matches_mul.2 ⟨_, mem_plus_word hword, _, ?_, rfl⟩
  change _ ∈ (RegularExpression.star _).matches'
  rw [RegularExpression.matches'_star, Language.mem_kstar]
  refine ⟨words.map fun w => '-'.toNat :: w.map Char.toNat, ?_, fun y hy => ?_⟩
  · rw [List.map_flatMap, List.flatMap_def]
    rfl
  · obtain ⟨w, hw, rfl⟩ := List.mem_map.1 hy
    exact mem_matches_mul.2 ⟨['-'.toNat], mem_matches_char.2 rfl, _, mem_plus_word (hwords w hw), rfl⟩

/-- The text has the shape of what `ADDENDUM_ANCHOR_RE` has behind its colon. -/
structure Trimmed (s : List Char) : Prop where
  chars : ∀ c ∈ s, isWordChar c = true ∨ c = '-'
  head : ∃ c rest, s = c :: rest ∧ isWordChar c = true
  last : ∃ front c, s = front ++ [c] ∧ isWordChar c = true

theorem trimmed_word {word : List Char} (h : word ≠ [] ∧ ∀ c ∈ word, isWordChar c = true) :
    Trimmed word where
  chars c hc := .inl (h.2 c hc)
  head := by
    obtain ⟨c, rest, rfl⟩ := List.exists_cons_of_ne_nil h.1
    exact ⟨c, rest, rfl, h.2 c List.mem_cons_self⟩
  last := by
    obtain ⟨front, c, rfl⟩ := List.eq_nil_or_concat word |>.resolve_left h.1
    exact ⟨front, c, List.concat_eq_append, h.2 c (by simp)⟩

theorem Trimmed.append (hs : Trimmed s) (ht : Trimmed t) {sep : List Char} (hsep : ∀ c ∈ sep, c = '-') :
    Trimmed (s ++ (sep ++ t)) where
  chars c hc := by
    rcases List.mem_append.1 hc with hc | hc
    · exact hs.chars c hc
    · exact (List.mem_append.1 hc).elim (fun hc => .inr (hsep c hc)) (ht.chars c)
  head := by
    obtain ⟨c, rest, rfl, hc⟩ := hs.head
    exact ⟨c, _, rfl, hc⟩
  last := by
    obtain ⟨front, c, rfl, hc⟩ := ht.last
    exact ⟨s ++ (sep ++ front), c, by simp, hc⟩

theorem trimmed_intercalate {sep : List Char} (hsep : ∀ c ∈ sep, c = '-') {parts : List (List Char)}
    (hne : parts ≠ []) (h : ∀ part ∈ parts, Trimmed part) : Trimmed (sep.intercalate parts) := by
  obtain ⟨part, parts, rfl⟩ := List.exists_cons_of_ne_nil hne
  induction parts generalizing part with
  | nil => simpa using h
  | cons part' parts ih =>
    obtain ⟨hpart, hparts⟩ := List.forall_mem_cons.1 h
    rw [List.intercalate_cons_cons, List.append_assoc]
    exact hpart.append (ih part' (List.cons_ne_nil _ _) hparts) hsep

theorem fullmatch_addendum (h : Trimmed s) : fullmatch addendumAnchorRe (addendumPrefix ++ s) = true := by
  rw [fullmatch, RegularExpression.rmatch_iff_matches', List.map_append]
  refine mem_matches_mul.2 ⟨_, mem_word_expression "addendum:", _, ?_, rfl⟩
  obtain ⟨c, rest, rfl, hc⟩ := h.head
  have hword : [c] ≠ [] ∧ ∀ a ∈ [c], isWordChar a = true := ⟨List.cons_ne_nil _ _, by simpa using hc⟩
  have hfirst : [c.toNat] ∈ wordClass.plus.expression.matches' := mem_plus_word hword
  refine mem_matches_mul.2 ⟨_, hfirst, rest.map Char.toNat, ?_, rfl⟩
  rcases List.eq_nil_or_concat rest with rfl | ⟨mid, z, rfl⟩
  · exact mem_matches_add.2 (.inl (mem_matches_one.2 rfl))
  · obtain ⟨front, z', heq, hz⟩ := h.last
    rw [List.concat_eq_append, ← List.cons_append] at heq
    obtain ⟨-, hzz⟩ := List.append_inj' heq rfl
    obtain rfl := List.cons.inj hzz |>.1
    rw [List.concat_eq_append, List.map_append]
    refine mem_matches_add.2 (.inr (mem_matches_mul.2
      ⟨mid.map Char.toNat, mem_star_oneOf.2 fun n hn => ?_, _, mem_cls (codes_of_isWordChar hz), rfl⟩))
    obtain ⟨d, hd, rfl⟩ := List.mem_map.1 hn
    rcases h.chars d (by simp [hd]) with hword | rfl
    · have := codes_of_isWordChar hword
      simp only [List.flatMap_cons, List.flatMap_nil, List.append_nil, List.mem_append] at this ⊢
      tauto
    · decide

end Patterns

/-! ## What the ids are made of -/

section Ids

variable {normalize : List Char → List Char} {value line label body slug : List Char}
  {words : List (List Char)}

theorem areWords_slugWords {limitWords : Option ℕ}
    (h : slugWords normalize value limitWords = .ok words) : AreWords words := by
  have hfind : ∀ s, ∀ word ∈ findWords s, word ≠ [] ∧ ∀ c ∈ word, isWordChar c = true := fun s word hw => by
    obtain ⟨hmem, hall⟩ := List.mem_filter.1 hw
    exact ⟨List.ne_nil_of_mem_splitBy hmem, List.all_eq_true.1 hall⟩
  simp only [slugWords, ite_throw_eq_ok, pure_eq_ok] at h
  obtain ⟨hne, rfl⟩ := h
  refine ⟨hne, fun word hword => ?_⟩
  split at hword
  · exact hfind _ _ (List.mem_of_mem_take hword)
  · exact hfind _ _ hword

theorem slugify_ok {limitWords : Option ℕ} (h : slugify normalize value limitWords = .ok slug) :
    ∃ words, AreWords words ∧ slug = ['-'].intercalate words := by
  simp only [slugify, bind_eq_ok, pure_eq_ok] at h
  obtain ⟨words, hwords, rfl⟩ := h
  exact ⟨words, areWords_slugWords hwords, rfl⟩

theorem intercalate_concat (hne : words ≠ []) (word : List Char) :
    ['-'].intercalate (words ++ [word]) = ['-'].intercalate words ++ '-' :: word := by
  obtain ⟨w, words, rfl⟩ := List.exists_cons_of_ne_nil hne
  rw [List.cons_append, intercalate_cons, intercalate_cons, List.flatMap_append, ← List.append_assoc]
  simp

theorem trimmed_slug (h : AreWords words) : Trimmed (['-'].intercalate words) :=
  trimmed_intercalate (by simp) h.1 fun word hword => trimmed_word (h.2 word hword)

theorem length_sha256 (message : List UInt8) : (Sha256.sha256 message).length = 32 := by
  simp [Sha256.sha256, Sha256.State.words, Sha256.bytesOf]

/-- The digits of a hash are a word. -/
theorem word_sha256Hex (line : List Char) :
    (sha256Hex line).take 8 ≠ [] ∧ ∀ c ∈ (sha256Hex line).take 8, isWordChar c = true := by
  refine ⟨fun h => ?_, fun c hc => ?_⟩
  · have hlen := congrArg List.length h
    rw [List.length_take, sha256Hex, Hex.length_encodeToString, length_sha256] at hlen
    simp at hlen
  · have := Hex.isLower_encodeToString _ c (List.mem_of_mem_take hc)
    simp only [Hex.IsLower] at this
    simp only [isWordChar, isLower, isDigit, Bool.or_eq_true, Bool.and_eq_true, decide_eq_true_eq]
    rcases this with h | h
    · exact .inr h
    · exact .inl ⟨h.1, h.2.trans (by decide)⟩

theorem word_decimalText (n : ℕ) : decimalText n ≠ [] ∧ ∀ c ∈ decimalText n, isWordChar c = true := by
  refine ⟨Nat.toDigits_ne_nil, fun c hc => ?_⟩
  have h := Nat.isDigit_of_mem_toDigits (by decide) (by decide) hc
  simp only [Char.isDigit, Bool.and_eq_true, decide_eq_true_eq] at h
  simp only [isWordChar, isDigit, Bool.or_eq_true, Bool.and_eq_true, decide_eq_true_eq, Char.le_def]
  exact .inr h

/-- `[0-9]+[a-z]?` -/
def IsLabel (label : List Char) : Prop :=
  ∃ digits letter, label = digits ++ letter ∧ (digits ≠ [] ∧ ∀ c ∈ digits, isDigit c = true) ∧
    letter.length ≤ 1 ∧ ∀ c ∈ letter, isLower c = true

theorem isLabel_of_matchNumbered (h : matchNumbered line = some (label, body)) : IsLabel label := by
  unfold matchNumbered at h
  dsimp only at h
  split_ifs at h with hdigits
  split at h
  · obtain ⟨body', -, heq⟩ := Option.map_eq_some_iff.1 h
    obtain ⟨rfl, -⟩ := Prod.mk.inj heq
    refine ⟨_, _, rfl, ⟨hdigits, fun c hc => List.mem_takeWhile_imp hc⟩, ?_,
      fun c hc => (List.mem_filter.1 hc).2⟩
    exact (List.length_filter_le _ _).trans (List.length_take_le _ _)
  · cases h

theorem mem_label (h : IsLabel label) : ∃ digits letter, label.map Char.toNat = digits ++ letter ∧
    digits ∈ (Regex.plus (.cls [('0', '9')])).expression.matches' ∧
      letter ∈ (Regex.opt (.cls [('a', 'z')])).expression.matches' := by
  obtain ⟨digits, letter, rfl, ⟨hne, hdigits⟩, hlen, hletter⟩ := h
  have hrange : ∀ {lo hi c : Char}, lo ≤ c → c ≤ hi → c.toNat ∈ [(lo, hi)].flatMap codes := by
    intro lo hi c hlo hhi
    simp only [List.flatMap_cons, List.flatMap_nil, List.append_nil, codes, List.mem_range'_1]
    have hlo' : lo.toNat ≤ c.toNat := hlo
    have hhi' : c.toNat ≤ hi.toNat := hhi
    omega
  refine ⟨_, _, List.map_append, mem_plus_cls (by simpa using hne) fun n hn => ?_, ?_⟩
  · obtain ⟨c, hc, rfl⟩ := List.mem_map.1 hn
    have := hdigits c hc
    simp only [isDigit, Bool.and_eq_true, decide_eq_true_eq] at this
    exact hrange this.1 this.2
  · match letter, hlen with
    | [], _ => exact mem_matches_add.2 (.inl (mem_matches_one.2 rfl))
    | [c], _ =>
      have := hletter c List.mem_cons_self
      simp only [isLower, Bool.and_eq_true, decide_eq_true_eq] at this
      exact mem_matches_add.2 (.inr (mem_cls (hrange this.1 this.2)))

theorem fullmatch_numbered (hlabel : IsLabel label) (hwords : AreWords words) :
    fullmatch numberedAnchorRe (numberedId label (['-'].intercalate words)) = true := by
  obtain ⟨digits, letter, heq, hdigits, hletter⟩ := mem_label hlabel
  rw [fullmatch, RegularExpression.rmatch_iff_matches', numberedId, List.map_append, List.map_append,
    List.append_assoc, heq, List.append_assoc]
  refine mem_matches_mul.2 ⟨_, mem_word_expression "numbered-list:", _, ?_, rfl⟩
  refine mem_matches_mul.2 ⟨digits, hdigits, _, ?_, rfl⟩
  refine mem_matches_mul.2 ⟨letter, hletter, _, ?_, rfl⟩
  exact mem_matches_mul.2 ⟨[':'.toNat], mem_matches_char.2 rfl, _, mem_slug hwords, rfl⟩

end Ids

/-! ## The items of a source -/

section Items

variable (normalize : List Char → List Char)

/-- The id of a numbered line, and the one it takes when that is used. -/
def numberedItem (candidate : Candidate) : Except CapabilityError (List Char × List Char) := do
  let slug ← slugify normalize candidate.body (some 8)
  let anchorId := numberedId candidate.label slug
  pure (anchorId, anchorId ++ '-' :: (sha256Hex candidate.line).take 8)

/-- The ids of the headings, each with the one it takes when it is used. -/
def addendumItems : List (ℕ × List Char) → ℕ → List (List Char) →
    Except CapabilityError (List (List Char × List Char))
  | _, _, [] => pure []
  | stack, index, line :: lines =>
    match matchHeading line with
    | none => addendumItems stack (index + 1) lines
    | some (level, title) => do
      let slug ← slugify normalize title none
      let stack := pushHeading stack level slug
      let anchorId := addendumId (stack.map Prod.snd)
      let items ← addendumItems stack (index + 1) lines
      pure ((anchorId, anchorId ++ '-' :: decimalText (index + 1)) :: items)

/-- The numbered lines and the headings of a source, in order. -/
def anchorItems (lines : List (List Char)) :
    Except CapabilityError (List (List Char × List Char)) := do
  let addendumStart := lines.findIdx startsAddendum
  let candidates ← numberedCandidates addendumStart lines
  let numbered ← candidates.mapM (numberedItem normalize)
  let addenda ← addendumItems normalize [] addendumStart (lines.drop addendumStart)
  pure (numbered ++ addenda)

variable {normalize}

theorem numberedAnchors_ids {count : List Char → ℕ} {used labels : List (List Char)}
    {candidates : List Candidate} {anchors : List NumberedAnchor}
    (h : numberedAnchors normalize count used labels candidates = .ok anchors) :
    ∃ items, candidates.mapM (numberedItem normalize) = .ok items ∧
      anchors.map (·.anchorId) = assignFrom used items := by
  induction candidates generalizing used labels anchors with
  | nil =>
    obtain rfl := pure_eq_ok.1 h
    exact ⟨[], rfl, rfl⟩
  | cons candidate candidates ih =>
    simp only [numberedAnchors, bind_eq_ok, pure_eq_ok] at h
    obtain ⟨slug, hslug, rest, hrest, rfl⟩ := h
    obtain ⟨items, hitems, hids⟩ := ih hrest
    refine ⟨(numberedId candidate.label slug, numberedId candidate.label slug ++
      '-' :: (sha256Hex candidate.line).take 8) :: items, ?_, ?_⟩
    · simp only [List.mapM_cons, bind_eq_ok, pure_eq_ok, numberedItem]
      exact ⟨_, ⟨slug, hslug, rfl⟩, items, hitems, rfl⟩
    · rw [List.map_cons, hids, assignFrom, name_eq_contains]

theorem addendumAnchors_ids {used : List (List Char)} {stack : List (ℕ × List Char)} {index : ℕ}
    {lines : List (List Char)} {anchors : List AddendumAnchor}
    (h : addendumAnchors normalize used stack index lines = .ok anchors) :
    ∃ items, addendumItems normalize stack index lines = .ok items ∧
      anchors.map (·.anchorId) = assignFrom used items := by
  induction lines generalizing used stack index anchors with
  | nil =>
    obtain rfl := pure_eq_ok.1 h
    exact ⟨[], rfl, rfl⟩
  | cons line lines ih =>
    rw [addendumAnchors] at h
    rw [addendumItems]
    cases hmatch : matchHeading line with
    | none =>
      rw [hmatch] at h
      exact ih h
    | some heading =>
      obtain ⟨level, title⟩ := heading
      simp only [hmatch, bind_eq_ok, pure_eq_ok] at h ⊢
      obtain ⟨slug, hslug, rest, hrest, rfl⟩ := h
      obtain ⟨items, hitems, hids⟩ := ih hrest
      refine ⟨_, ⟨slug, hslug, items, hitems, rfl⟩, ?_⟩
      rw [List.map_cons, hids, assignFrom, name_eq_contains]

theorem fullmatch_numberedItem {candidate : Candidate} {item : List Char × List Char}
    (hlabel : IsLabel candidate.label) (h : numberedItem normalize candidate = .ok item) :
    fullmatch numberedAnchorRe item.1 = true ∧ fullmatch numberedAnchorRe item.2 = true := by
  simp only [numberedItem, bind_eq_ok, pure_eq_ok] at h
  obtain ⟨slug, hslug, rfl⟩ := h
  obtain ⟨words, hwords, rfl⟩ := slugify_ok hslug
  refine ⟨fullmatch_numbered hlabel hwords, ?_⟩
  have hall : AreWords (words ++ [(sha256Hex candidate.line).take 8]) :=
    ⟨by simp, List.forall_mem_append.2 ⟨hwords.2, by simpa using word_sha256Hex candidate.line⟩⟩
  have heq : numberedId candidate.label (['-'].intercalate words) ++
      '-' :: (sha256Hex candidate.line).take 8 =
        numberedId candidate.label (['-'].intercalate (words ++ [(sha256Hex candidate.line).take 8])) := by
    rw [intercalate_concat hwords.1]
    simp [numberedId]
  dsimp only
  rw [heq]
  exact fullmatch_numbered hlabel hall

theorem fullmatch_addendumItems {stack : List (ℕ × List Char)} {index : ℕ} {lines : List (List Char)}
    {items : List (List Char × List Char)} (hstack : ∀ e ∈ stack, Trimmed e.2)
    (h : addendumItems normalize stack index lines = .ok items) :
    ∀ item ∈ items,
      fullmatch addendumAnchorRe item.1 = true ∧ fullmatch addendumAnchorRe item.2 = true := by
  induction lines generalizing stack index items with
  | nil =>
    obtain rfl := pure_eq_ok.1 h
    nofun
  | cons line lines ih =>
    rw [addendumItems] at h
    cases hmatch : matchHeading line with
    | none =>
      rw [hmatch] at h
      exact ih hstack h
    | some heading =>
      obtain ⟨level, title⟩ := heading
      simp only [hmatch, bind_eq_ok, pure_eq_ok] at h
      obtain ⟨slug, hslug, rest, hrest, rfl⟩ := h
      obtain ⟨words, hwords, rfl⟩ := slugify_ok hslug
      have hpush : ∀ e ∈ pushHeading stack level (['-'].intercalate words), Trimmed e.2 := by
        refine List.forall_mem_append.2 ⟨fun e he => hstack e (List.mem_of_mem_filter he), ?_⟩
        simpa using trimmed_slug hwords
      have hpath : Trimmed (['-', '-'].intercalate
          ((pushHeading stack level (['-'].intercalate words)).map Prod.snd)) := by
        refine trimmed_intercalate (by simp) (by simp [pushHeading]) fun part hpart => ?_
        obtain ⟨e, he, rfl⟩ := List.mem_map.1 hpart
        exact hpush e he
      refine List.forall_mem_cons.2 ⟨⟨fullmatch_addendum hpath, ?_⟩, ih hpush hrest⟩
      have hhyphen : ∀ c ∈ ['-'], c = '-' := fun c => List.mem_singleton.1
      have hsuffix := hpath.append (trimmed_word (word_decimalText (index + 1))) hhyphen
      simpa [addendumId] using fullmatch_addendum hsuffix

end Items

/-! ## The anchors of a source -/

section Sources

variable {normalize : List Char → List Char} {lines : List (List Char)}
  {numbered : List NumberedAnchor} {addenda : List AddendumAnchor}

theorem isLabel_of_candidates {start : ℕ} {candidates : List Candidate}
    (h : numberedCandidates start lines = .ok candidates) : ∀ c ∈ candidates, IsLabel c.label := by
  simp only [numberedCandidates, bind_eq_ok, pure_eq_ok, mapM_eq_ok] at h
  obtain ⟨options, hforall, rfl⟩ := h
  intro c hc
  rw [List.reduceOption_mem_iff] at hc
  generalize lines.zipIdx = entries at hforall
  induction hforall with
  | nil => cases hc
  | @cons entry option entries options hentry _ ih =>
    rcases List.mem_cons.1 hc with rfl | hc
    · unfold candidateOf at hentry
      split at hentry
      · cases hentry
      · rename_i label body hmatch
        dsimp only at hentry
        rw [ite_throw_eq_ok] at hentry
        obtain ⟨-, hentry⟩ := hentry
        split_ifs at hentry
        · obtain rfl := Option.some.inj (pure_eq_ok.1 hentry)
          exact isLabel_of_matchNumbered hmatch
        · cases hentry
    · exact ih hc

/-- The ids are the names of the items, and have the forms of their kinds. -/
theorem parseLines_ids (h : parseLines normalize lines = .ok (numbered, addenda)) :
    ∃ items, anchorItems normalize lines = .ok items ∧
      numbered.map (·.anchorId) ++ addenda.map (·.anchorId) = assign items ∧
      (∀ a ∈ numbered, fullmatch numberedAnchorRe a.anchorId = true) ∧
        ∀ a ∈ addenda, fullmatch addendumAnchorRe a.anchorId = true := by
  simp only [parseLines, bind_eq_ok, unless_eq_ok, pure_eq_ok, Prod.mk.injEq] at h
  obtain ⟨-, candidates, hcandidates, -, numbered', hnumbered, _, haddenda, rfl, rfl⟩ := h
  obtain ⟨items, hitems, hids⟩ := numberedAnchors_ids hnumbered
  obtain ⟨items', hitems', hids'⟩ := addendumAnchors_ids haddenda
  refine ⟨items ++ items', ?_, ?_, fun a ha => ?_, fun a ha => ?_⟩
  · simp only [anchorItems, bind_eq_ok, pure_eq_ok]
    exact ⟨candidates, hcandidates, items, hitems, items', hitems', rfl⟩
  · rw [hids', assign, assignFrom_append, List.nil_append, hids]
  · have hmem : a.anchorId ∈ assignFrom [] items := hids ▸ List.mem_map_of_mem ha
    obtain ⟨item, hitem, heq⟩ := mem_assignFrom hmem
    obtain ⟨c, hc, hitemOf⟩ := exists_of_forall₂ (mapM_eq_ok.1 hitems).flip item hitem
    have hfull := fullmatch_numberedItem (isLabel_of_candidates hcandidates c hc) hitemOf
    rcases heq with heq | heq <;> rw [heq]
    · exact hfull.1
    · exact hfull.2
  · have hmem : a.anchorId ∈ assignFrom (numbered'.map (·.anchorId)) items' :=
      hids' ▸ List.mem_map_of_mem ha
    obtain ⟨item, hitem, heq⟩ := mem_assignFrom hmem
    have hfull := fullmatch_addendumItems (by simp) hitems' item hitem
    rcases heq with heq | heq <;> rw [heq]
    · exact hfull.1
    · exact hfull.2

/-- The anchors of a source have distinct ids of their kinds' forms, exactly when no line or heading
whose id is taken by those before it finds its suffixed id taken by them too. -/
theorem anchors_distinct_iff (normalize : List Char → List Char) {raw : List UInt8} {hash : List Char}
    {numbered : List NumberedAnchor} {addenda : List AddendumAnchor}
    (h : parseLivingSource normalize raw = .ok (hash, numbered, addenda)) :
    ∃ text items, utf8Decode raw = some text ∧ anchorItems normalize (splitlines text) = .ok items ∧
      ((numbered.map (·.anchorId) ++ addenda.map (·.anchorId)).Nodup ∧
          (∀ a ∈ numbered, fullmatch numberedAnchorRe a.anchorId = true) ∧
          (∀ a ∈ addenda, fullmatch addendumAnchorRe a.anchorId = true) ↔
        ∀ front item back, items = front ++ item :: back →
          Taken front item.1 → ¬ Taken front item.2) := by
  unfold parseLivingSource at h
  cases hraw : utf8Decode raw with
  | none =>
    rw [hraw] at h
    cases h
  | some text =>
    simp only [hraw, bind_eq_ok, pure_eq_ok, Prod.mk.injEq] at h
    obtain ⟨result, hresult, -, rfl, rfl⟩ := h
    obtain ⟨items, hitems, hids, hnumbered, haddenda⟩ := parseLines_ids hresult
    refine ⟨text, items, rfl, hitems, ?_⟩
    rw [hids, nodup_assign_iff]
    exact and_iff_left ⟨hnumbered, haddenda⟩

/-- Two numbered lines, the same, and an addendum with a heading of its own below. -/
def listedLines : List Char := "1. a b\n1. a b\n## Addendum\n### C".toList

theorem anchors_distinct_listed :
    ∃ hash numbered addenda, parseLivingSource id (utf8 listedLines) = .ok (hash, numbered, addenda) ∧
      ∃ text items, utf8Decode (utf8 listedLines) = some text ∧
        anchorItems id (splitlines text) = .ok items ∧
        ((numbered.map (·.anchorId) ++ addenda.map (·.anchorId)).Nodup ∧
            (∀ a ∈ numbered, fullmatch numberedAnchorRe a.anchorId = true) ∧
            (∀ a ∈ addenda, fullmatch addendumAnchorRe a.anchorId = true) ↔
          ∀ front item back, items = front ++ item :: back →
            Taken front item.1 → ¬ Taken front item.2) := by
  have hok : (parseLivingSource id (utf8 listedLines)).isOk = true := by decide +kernel
  cases hparse : parseLivingSource id (utf8 listedLines) with
  | error e =>
    rw [hparse] at hok
    cases hok
  | ok result => exact ⟨result.1, result.2.1, result.2.2, rfl, anchors_distinct_iff id hparse⟩

/-- Three numbered lines, all the same. -/
def repeatedLines : List Char := "1. a\n1. a\n1. a\n## Addendum".toList

theorem anchorItems_repeatedLines : ∃ item addendum,
    anchorItems id (splitlines repeatedLines) = .ok ([item, item] ++ item :: [addendum]) :=
  ⟨_, _, rfl⟩

/-- The third of them takes the id of the second. -/
theorem not_anchors_distinct : ¬ ∀ raw hash numbered addenda,
    parseLivingSource id raw = .ok (hash, numbered, addenda) →
      (numbered.map (·.anchorId) ++ addenda.map (·.anchorId)).Nodup ∧
        (∀ a ∈ numbered, fullmatch numberedAnchorRe a.anchorId = true) ∧
        ∀ a ∈ addenda, fullmatch addendumAnchorRe a.anchorId = true := by
  intro h
  obtain ⟨item, addendum, hitems⟩ := anchorItems_repeatedLines
  have hok : (parseLivingSource id (utf8 repeatedLines)).isOk = true := by decide +kernel
  cases hparse : parseLivingSource id (utf8 repeatedLines) with
  | error e =>
    rw [hparse] at hok
    cases hok
  | ok result =>
    have hnodup := (h _ _ _ _ hparse).1
    simp only [parseLivingSource, utf8Decode_utf8, bind_eq_ok, pure_eq_ok] at hparse
    obtain ⟨lines, hlines, rfl⟩ := hparse
    obtain ⟨items, hitems', hids, -⟩ := parseLines_ids hlines
    obtain rfl := Except.ok.inj (hitems.symm.trans hitems')
    rw [hids, nodup_assign_iff] at hnodup
    exact hnodup [item, item] item [addendum] rfl (.own [] item [item])
      (.other [item] item [] (.own [] item []))

end Sources

end Capabilities
