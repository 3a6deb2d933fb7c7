import Jumpship.Proofs.Surrogates
import Jumpship.Proofs.NumberText

/-!
# CanonicalizeJSON

`CanonicalizeJSON` accepts the texts of values that repeat no name and whose numbers are finite
doubles, and answers the text of the value with the members of every object in key order. That text
denotes the sorted value, so two inputs share it exactly when their values are the same.
-/

namespace Canonical

open Go JsonText Unicode

/-! ## Key order -/

section KeyOrder

theorem unitsLess_iff : ∀ left right : List ℕ, unitsLess left right = true ↔ left < right
  | [], [] => by simp [unitsLess]
  | [], _ :: _ => by simp [unitsLess]
  | _ :: _, [] => by simp [unitsLess]
  | l :: ls, r :: rs => by
    rw [unitsLess, List.cons_lt_cons_iff]
    split_ifs with h
    · simp [h]
    · rw [unitsLess_iff ls rs]
      simp only [ne_eq, not_not] at h
      simp [h]

theorem keyLE_iff {left right : List Char} : KeyLE left right ↔ utf16 left ≤ utf16 right := by
  rw [KeyLE, utf16Less, ← Bool.not_eq_true, unitsLess_iff, not_lt]

instance : Std.Total KeyLE :=
  ⟨fun a b => by rw [keyLE_iff, keyLE_iff]; exact le_total _ _⟩

instance : IsTrans (List Char) KeyLE :=
  ⟨fun a b c => by rw [keyLE_iff, keyLE_iff, keyLE_iff]; exact le_trans⟩

instance : Std.Antisymm KeyLE :=
  ⟨fun a b => by rw [keyLE_iff, keyLE_iff]; exact fun h h' => utf16_injective (le_antisymm h h')⟩

end KeyOrder

/-! ## Strings -/

section Strings

theorem toNat_eq {c : Char} {n : ℕ} (h : c.toNat = n) : c = Char.ofNat n := by
  rw [← h, Char.ofNat_toNat]

theorem hexDigit?_digit {n : ℕ} (h : n < 16) : hexDigit? (Hex.digit n) = some n := by
  interval_cases n <;> rfl

theorem escapes_appendRune : Escapes appendRune := by
  intro c t us r h
  unfold appendRune
  split_ifs with h1 h2 h3 h4 h5 h6 h7
  · rcases h1 with rfl | rfl
    · exact .escape rfl h
    · exact .escape rfl h
  · rw [toNat_eq h2]
    exact .escape rfl h
  · rw [toNat_eq h3]
    exact .escape rfl h
  · rw [toNat_eq h4]
    exact .escape rfl h
  · rw [toNat_eq h5]
    exact .escape rfl h
  · rw [toNat_eq h6]
    exact .escape rfl h
  · have hc : utf16Char c = [c.toNat] := if_pos (by omega)
    rw [hc]
    refine .unicode (hex4_eq_some.2 ⟨0, 0, c.toNat / 16, c.toNat % 16, rfl, rfl,
      hexDigit?_digit (by omega), hexDigit?_digit (by omega), by omega⟩) h
  · rw [not_or] at h1
    exact .plain ⟨by omega, h1.1, h1.2⟩ h

end Strings

/-! ## The canonical form -/

section Form

/-- The canonical form of a value: its text with the members of every object in key order. -/
def canonicalForm (v : Json (List Char) Binary64) : List Char :=
  write appendRune numberText (v.sortMembers KeyLE)

theorem writeMembers_sort (ms : List (List Char × Json (List Char) Binary64)) :
    Json.sortByName KeyLE (writeMembers appendRune numberText ms)
      = writeMembers appendRune numberText (Json.sortByName KeyLE ms) := by
  rw [writeMembers_eq, writeMembers_eq, Json.sortByName, Json.sortByName]
  refine (List.map_insertionSort (fun m n : List Char × Json (List Char) Binary64 => KeyLE m.1 n.1)
    (fun m n : List Char × List Char => KeyLE m.1 n.1) _ ms fun _ _ _ _ => Iff.rfl).symm

theorem appendElements_eq {xs : List Value} (ih : ∀ x ∈ xs, appendCanonical x =
      (x.mapNum parseFloat).elim (.error .unsupportedNumber) fun w => .ok (canonicalForm w)) :
    appendElements xs = (Json.mapNumList parseFloat xs).elim (.error .unsupportedNumber)
      fun ys => .ok (ys.map canonicalForm) := by
  induction xs with
  | nil => rfl
  | cons x xs ihxs =>
    obtain ⟨hx, hxs⟩ := List.forall_mem_cons.1 ih
    rw [appendElements, hx, ihxs hxs, Json.mapNumList]
    rcases x.mapNum parseFloat with _ | y
    · rfl
    rcases Json.mapNumList parseFloat xs with _ | ys
    · rfl
    · rfl

theorem appendMembers_eq {ms : List (List Char × Value)} (ih : ∀ m ∈ ms, appendCanonical m.2 =
      (m.2.mapNum parseFloat).elim (.error .unsupportedNumber) fun w => .ok (canonicalForm w)) :
    appendMembers ms = (Json.mapNumMembers parseFloat ms).elim (.error .unsupportedNumber)
      fun ns => .ok (ns.map fun n => (n.1, canonicalForm n.2)) := by
  induction ms with
  | nil => rfl
  | cons m ms ihms =>
    obtain ⟨k, x⟩ := m
    obtain ⟨hx, hms⟩ := List.forall_mem_cons.1 ih
    rw [appendMembers, hx, ihms hms, Json.mapNumMembers]
    rcases x.mapNum parseFloat with _ | y
    · rfl
    rcases Json.mapNumMembers parseFloat ms with _ | ns
    · rfl
    · rfl

theorem canonicalForm_arr (xs : List (Json (List Char) Binary64)) :
    canonicalForm (.arr xs) = '[' :: (joinComma (xs.map canonicalForm) ++ [']']) := by
  rw [canonicalForm, Json.sortMembers_arr, write, writeElements_eq, List.map_map]
  rfl

theorem canonicalForm_obj (ms : List (List Char × Json (List Char) Binary64)) :
    canonicalForm (.obj ms) = '{' :: (joinComma ((Json.sortByName KeyLE
      (ms.map fun m => (m.1, canonicalForm m.2))).map (writeMember appendRune)) ++ ['}']) := by
  rw [canonicalForm, Json.sortMembers_obj, write, ← writeMembers_sort, writeMembers_eq,
    List.map_map]
  rfl

/-- The encoder writes the canonical form of the value its numbers round to. -/
theorem appendCanonical_eq (v : Value) : appendCanonical v =
    (v.mapNum parseFloat).elim (.error .unsupportedNumber) fun w => .ok (canonicalForm w) := by
  induction v using Json.induct with
  | null => rfl
  | bool b => rcases b with _ | _ <;> rfl
  | num n =>
    rw [appendCanonical, canonicalNumber_eq, Json.mapNum]
    rcases parseFloat n with _ | x
    · rfl
    · rfl
  | str s => rfl
  | arr xs ih =>
    rw [appendCanonical, appendElements_eq ih, Json.mapNum]
    rcases Json.mapNumList parseFloat xs with _ | ys
    · rfl
    · dsimp only [Option.map, Option.elim]
      rw [canonicalForm_arr]
      rfl
  | obj ms ih =>
    rw [appendCanonical, appendMembers_eq ih, Json.mapNum]
    rcases Json.mapNumMembers parseFloat ms with _ | ns
    · rfl
    · dsimp only [Option.map, Option.elim]
      rw [canonicalForm_obj]
      rfl

theorem canonicalForm_of_sorted {v w : Json (List Char) Binary64}
    (h : v.sortMembers KeyLE = w.sortMembers KeyLE) : canonicalForm v = canonicalForm w := by
  rw [canonicalForm, canonicalForm, h]

/-- The canonical form is a text of the sorted value. -/
theorem text_canonicalForm (v : Json (List Char) Binary64) :
    Text StringOf NumberOf (v.sortMembers KeyLE) (canonicalForm v) :=
  text_write escapes_appendRune numberOf_numberText _

end Form

/-! ## Literals and doubles -/

section Numbers

variable {t r : List Char}

/-- The piece of text with its number literals rounded. -/
inductive Rounds : JsonText.Symbol (List Char) Number → JsonText.Symbol (List Char) Binary64 → Prop
  | value {v : Value} {w : Json (List Char) Binary64} :
      v.mapNum parseFloat = some w → Rounds (.value v) (.value w)
  | elements {xs : List Value} {ys : List (Json (List Char) Binary64)} :
      Json.mapNumList parseFloat xs = some ys → Rounds (.elements xs) (.elements ys)
  | members {ms : List (List Char × Value)} {ns : List (List Char × Json (List Char) Binary64)} :
      Json.mapNumMembers parseFloat ms = some ns → Rounds (.members ms) (.members ns)

theorem rounds_value {v : Value} {w : Json (List Char) Binary64} :
    Rounds (.value v) (.value w) ↔ v.mapNum parseFloat = some w :=
  ⟨fun h => by cases h; assumption, .value⟩

theorem rounds_elements {xs : List Value} {ys : List (Json (List Char) Binary64)} :
    Rounds (.elements xs) (.elements ys) ↔ Json.mapNumList parseFloat xs = some ys :=
  ⟨fun h => by cases h; assumption, .elements⟩

theorem rounds_members {ms : List (List Char × Value)}
    {ns : List (List Char × Json (List Char) Binary64)} :
    Rounds (.members ms) (.members ns) ↔ Json.mapNumMembers parseFloat ms = some ns :=
  ⟨fun h => by cases h; assumption, .members⟩

/-- A text of doubles is a text of literals that round to them. -/
theorem literal_of_reads {g' : JsonText.Symbol (List Char) Binary64}
    (h : Reads StringOf NumberOf g' t r) : ∃ g, Reads StringOf LiteralOf g t r ∧ Rounds g g' := by
  induction h with
  | null r => exact ⟨_, .null r, .value rfl⟩
  | true r => exact ⟨_, .true r, .value rfl⟩
  | false r => exact ⟨_, .false r, .value rfl⟩
  | num hn =>
    obtain ⟨n, rfl, hx⟩ := hn
    exact ⟨.value (.num n), .num rfl, .value (by rw [Json.mapNum, parseFloat, hx]; rfl)⟩
  | str hs => exact ⟨_, .str hs, .value rfl⟩
  | emptyArr hws => exact ⟨_, .emptyArr hws, .value rfl⟩
  | arr _ ih =>
    obtain ⟨g, hg, hxs⟩ := ih
    rcases hxs with _ | hxs
    exact ⟨_, .arr hg, .value (by rw [Json.mapNum, hxs]; rfl)⟩
  | emptyObj hws => exact ⟨_, .emptyObj hws, .value rfl⟩
  | obj _ ih =>
    obtain ⟨g, hg, hms⟩ := ih
    rcases hms with _ | _ | hms
    exact ⟨_, .obj hg, .value (by rw [Json.mapNum, hms]; rfl)⟩
  | lastElement hws _ hend ih =>
    obtain ⟨g, hg, hx⟩ := ih
    obtain ⟨hx⟩ := hx
    exact ⟨_, .lastElement hws hg hend, .elements (Json.mapNumList_cons.2 ⟨_, _, hx, rfl, rfl⟩)⟩
  | element hws _ hcomma _ ih ihxs =>
    obtain ⟨g, hg, hx⟩ := ih
    obtain ⟨gs, hgs, hxs⟩ := ihxs
    obtain ⟨hx⟩ := hx
    rcases hxs with _ | hxs
    exact ⟨_, .element hws hg hcomma hgs, .elements (Json.mapNumList_cons.2 ⟨_, _, hx, hxs, rfl⟩)⟩
  | lastMember hws hk hcolon hws' _ hend ih =>
    obtain ⟨g, hg, hx⟩ := ih
    obtain ⟨hx⟩ := hx
    exact ⟨_, .lastMember hws hk hcolon hws' hg hend,
      .members (Json.mapNumMembers_cons.2 ⟨_, _, hx, rfl, rfl⟩)⟩
  | member hws hk hcolon hws' _ hcomma _ ih ihms =>
    obtain ⟨g, hg, hx⟩ := ih
    obtain ⟨gs, hgs, hms⟩ := ihms
    obtain ⟨hx⟩ := hx
    rcases hms with _ | _ | hms
    exact ⟨_, .member hws hk hcolon hws' hg hcomma hgs,
      .members (Json.mapNumMembers_cons.2 ⟨_, _, hx, hms, rfl⟩)⟩

/-- A text of literals is a text of the doubles they round to. -/
theorem reads_of_literal {g : JsonText.Symbol (List Char) Number}
    (h : Reads StringOf LiteralOf g t r) :
    ∀ g', Rounds g g' → Reads StringOf NumberOf g' t r := by
  induction h with
  | null r | true r | false r =>
    rintro g' ⟨h⟩
    obtain rfl := Option.some.inj h
    constructor
  | num hn =>
    rintro g' ⟨h⟩
    obtain ⟨x, hx, rfl⟩ := Option.map_eq_some_iff.1 h
    exact .num ⟨_, hn, hx⟩
  | str hs =>
    rintro g' ⟨h⟩
    obtain rfl := Option.some.inj h
    exact .str hs
  | emptyArr hws =>
    rintro g' ⟨h⟩
    obtain rfl := Option.some.inj h
    exact .emptyArr hws
  | arr _ ih =>
    rintro g' ⟨h⟩
    obtain ⟨ys, hys, rfl⟩ := Option.map_eq_some_iff.1 h
    exact .arr (ih _ (.elements hys))
  | emptyObj hws =>
    rintro g' ⟨h⟩
    obtain rfl := Option.some.inj h
    exact .emptyObj hws
  | obj _ ih =>
    rintro g' ⟨h⟩
    obtain ⟨ns, hns, rfl⟩ := Option.map_eq_some_iff.1 h
    exact .obj (ih _ (.members hns))
  | lastElement hws _ hend ih =>
    intro g' h
    rcases h with _ | h
    obtain ⟨y, ys, hy, hys, rfl⟩ := Json.mapNumList_cons.1 h
    obtain rfl := Option.some.inj hys
    exact .lastElement hws (ih _ (.value hy)) hend
  | element hws _ hcomma _ ih ihxs =>
    intro g' h
    rcases h with _ | h
    obtain ⟨y, ys, hy, hys, rfl⟩ := Json.mapNumList_cons.1 h
    exact .element hws (ih _ (.value hy)) hcomma (ihxs _ (.elements hys))
  | lastMember hws hk hcolon hws' _ hend ih =>
    intro g' h
    rcases h with _ | _ | h
    obtain ⟨y, ns, hy, hns, rfl⟩ := Json.mapNumMembers_cons.1 h
    obtain rfl := Option.some.inj hns
    exact .lastMember hws hk hcolon hws' (ih _ (.value hy)) hend
  | member hws hk hcolon hws' _ hcomma _ ih ihms =>
    intro g' h
    rcases h with _ | _ | h
    obtain ⟨y, ns, hy, hns, rfl⟩ := Json.mapNumMembers_cons.1 h
    exact .member hws hk hcolon hws' (ih _ (.value hy)) hcomma (ihms _ (.members hns))

theorem text_literal_iff {w : Json (List Char) Binary64} {text : List Char} :
    Text StringOf NumberOf w text ↔
      ∃ v, Text StringOf LiteralOf v text ∧ v.mapNum parseFloat = some w := by
  constructor
  · rintro ⟨t₁, t₂, hws, hreads, hend⟩
    obtain ⟨g, hg, hround⟩ := literal_of_reads hreads
    obtain ⟨hv⟩ := hround
    exact ⟨_, ⟨t₁, t₂, hws, hg, hend⟩, hv⟩
  · rintro ⟨v, ⟨t₁, t₂, hws, hreads, hend⟩, hv⟩
    exact ⟨t₁, t₂, hws, reads_of_literal hreads _ (.value hv), hend⟩

end Numbers

/-! ## CanonicalizeJSON -/

section Canonicalize

/-- The bytes are a JSON text of the value, in UTF-8, and no object in it repeats a name. -/
def Denotes (input : List UInt8) (v : Json (List Char) Binary64) : Prop :=
  ∃ text, utf8 text = input ∧ Text StringOf NumberOf v text ∧ v.Distinct

theorem decodeText_unique {text : List Char} {v w : Value}
    (hv : Text DecodedOf LiteralOf v text) (hvd : v.Distinct)
    (hw : Text DecodedOf LiteralOf w text) (hwd : w.Distinct) : v = w := by
  have h := decodeText_eq_some.2 ⟨hv, hvd⟩
  rw [decodeText_eq_some.2 ⟨hw, hwd⟩] at h
  exact (Option.some.inj h).symm

/-- A text denotes one value. -/
theorem denotes_unique {input : List UInt8} {v w : Json (List Char) Binary64}
    (hv : Denotes input v) (hw : Denotes input w) : v = w := by
  obtain ⟨text, rfl, hv, hvd⟩ := hv
  obtain ⟨text', htext, hw, hwd⟩ := hw
  obtain rfl := utf8_injective htext
  obtain ⟨v', hv', hvm⟩ := text_literal_iff.1 hv
  obtain ⟨w', hw', hwm⟩ := text_literal_iff.1 hw
  rw [Json.distinct_mapNum v' v hvm] at hvd
  rw [Json.distinct_mapNum w' w hwm] at hwd
  obtain rfl := decodeText_unique (decodedOf_of_text hv') hvd (decodedOf_of_text hw') hwd
  exact Option.some.inj (hvm.symm.trans hwm)

theorem canonicalizeJSON_utf8 {text : List Char} {out : List UInt8} :
    canonicalizeJSON (utf8 text) = .ok out ↔ hasLoneSurrogateEscape (utf8 text) = false ∧
      ∃ v w, decodeText text = some v ∧ v.mapNum parseFloat = some w ∧
        out = utf8 (canonicalForm w) := by
  unfold canonicalizeJSON decodeText
  rw [utf8Decode_utf8]
  dsimp only
  split_ifs with hscan
  · simp [hscan]
  · rw [and_iff_right (Bool.eq_false_iff.2 hscan)]
    rcases decodeValue (text.length + 1) (newDecoder text) with e | ⟨v, d⟩
    · simp
    · dsimp only
      rcases hmore : d.more with _ | _
      · rcases heof : d.atEOF with _ | _
        · simp
        · rw [appendCanonical_eq]
          rcases hmap : v.mapNum parseFloat with _ | w
          · simp [Except.map, hmap]
          · simp [Except.map, hmap, eq_comm]
      · simp

/-- `CanonicalizeJSON` accepts exactly the texts that denote a value, and answers its canonical
form. -/
theorem canonicalizeJSON_eq_ok {input out : List UInt8} :
    canonicalizeJSON input = .ok out ↔ ∃ w, Denotes input w ∧ out = utf8 (canonicalForm w) := by
  constructor
  · intro h
    obtain ⟨text, htext⟩ : ∃ text, utf8Decode input = some text := by
      unfold canonicalizeJSON at h
      rcases hd : utf8Decode input with _ | text
      · rw [hd] at h
        cases h
      · exact ⟨text, rfl⟩
    obtain rfl := utf8Decode_eq_some.1 htext
    obtain ⟨hscan, v, w, hdec, hmap, rfl⟩ := canonicalizeJSON_utf8.1 h
    obtain ⟨htext, hdist⟩ := decodeText_eq_some.1 hdec
    refine ⟨w, ⟨text, rfl, text_literal_iff.2 ⟨v, ?_, hmap⟩, ?_⟩, rfl⟩
    · exact (hasLoneSurrogateEscape_eq_false htext).1 hscan
    · exact (Json.distinct_mapNum v w hmap).2 hdist
  · rintro ⟨w, ⟨text, rfl, htext, hdist⟩, rfl⟩
    obtain ⟨v, hv, hmap⟩ := text_literal_iff.1 htext
    have hdec := decodedOf_of_text hv
    exact canonicalizeJSON_utf8.2 ⟨(hasLoneSurrogateEscape_eq_false hdec).2 hv, v, w,
      decodeText_eq_some.2 ⟨hdec, (Json.distinct_mapNum v w hmap).1 hdist⟩, hmap, rfl⟩

/-- The canonical form denotes the value with its members sorted. -/
theorem denotes_canonicalForm {w : Json (List Char) Binary64} (h : w.Distinct) :
    Denotes (utf8 (canonicalForm w)) (w.sortMembers KeyLE) :=
  ⟨_, rfl, text_canonicalForm w, (Json.distinct_sortMembers KeyLE w).2 h⟩

theorem Denotes.distinct {input : List UInt8} {w : Json (List Char) Binary64}
    (h : Denotes input w) : w.Distinct :=
  h.choose_spec.2.2

/-- Two values without repeated names have one canonical form exactly when they are the same. -/
theorem canonicalForm_eq_iff {v w : Json (List Char) Binary64} (hv : v.Distinct)
    (hw : w.Distinct) : canonicalForm v = canonicalForm w ↔ v.Same w := by
  rw [Json.same_iff_sortMembers KeyLE hv hw]
  refine ⟨fun h => ?_, canonicalForm_of_sorted⟩
  have h' := denotes_canonicalForm hv
  rw [h] at h'
  exact denotes_unique h' (denotes_canonicalForm hw)

theorem canonicalizeJSON_fixed {input out : List UInt8} (h : canonicalizeJSON input = .ok out) :
    canonicalizeJSON out = .ok out := by
  obtain ⟨w, hw, rfl⟩ := canonicalizeJSON_eq_ok.1 h
  refine canonicalizeJSON_eq_ok.2 ⟨_, denotes_canonicalForm hw.distinct, ?_⟩
  rw [canonicalForm_of_sorted (Json.sortMembers_sortMembers KeyLE w hw.distinct)]

/-- Two accepted inputs have the same canonical JSON exactly when the values they denote are the
same, and canonical JSON is a fixed point. -/
theorem canonicalizeJSON_faithful {a b ca cb : List UInt8} (ha : canonicalizeJSON a = .ok ca)
    (hb : canonicalizeJSON b = .ok cb) :
    ∃ v w, (∀ v', Denotes a v' ↔ v' = v) ∧ (∀ w', Denotes b w' ↔ w' = w) ∧
      (ca = cb ↔ v.Same w) ∧ canonicalizeJSON ca = .ok ca ∧ canonicalizeJSON cb = .ok cb := by
  have hca := canonicalizeJSON_fixed ha
  have hcb := canonicalizeJSON_fixed hb
  obtain ⟨v, hv, rfl⟩ := canonicalizeJSON_eq_ok.1 ha
  obtain ⟨w, hw, rfl⟩ := canonicalizeJSON_eq_ok.1 hb
  refine ⟨v, w, fun v' => ⟨fun h => denotes_unique h hv, fun h => h ▸ hv⟩,
    fun w' => ⟨fun h => denotes_unique h hw, fun h => h ▸ hw⟩, ?_, hca, hcb⟩
  rw [utf8_injective.eq_iff]
  exact canonicalForm_eq_iff hv.distinct hw.distinct

/-- Two spellings of one object. -/
theorem canonicalizeJSON_faithful_object : ∃ v w,
    (∀ v', Denotes (ascii "\x7b\"b\":[],\"a\":\"\\u00e9\"\x7d") v' ↔ v' = v) ∧
    (∀ w', Denotes (ascii " \x7b\"a\":\"é\", \"b\":[ ]\x7d") w' ↔ w' = w) ∧
    (ascii "\x7b\"a\":\"é\",\"b\":[]\x7d" = ascii "\x7b\"a\":\"é\",\"b\":[]\x7d" ↔ v.Same w) ∧
    canonicalizeJSON (ascii "\x7b\"a\":\"é\",\"b\":[]\x7d") = .ok (ascii "\x7b\"a\":\"é\",\"b\":[]\x7d") ∧
    canonicalizeJSON (ascii "\x7b\"a\":\"é\",\"b\":[]\x7d") = .ok (ascii "\x7b\"a\":\"é\",\"b\":[]\x7d") :=
  canonicalizeJSON_faithful (by decide +kernel) (by decide +kernel)

end Canonicalize

end Canonical
