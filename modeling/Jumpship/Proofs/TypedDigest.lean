import Jumpship.Proofs.Canonicalization
import Jumpship.Client.Jcs

/-!
# TypedDigest

The domain `TypedDigest` puts before the payload is read back from the hashed bytes: an object type
holds no colon and a schema version no NUL. The validators behind that admit the strings of the
client's patterns.
-/

namespace Canonical

open Unicode Pattern Client

/-! ## Validators and patterns -/

section Validators

/-- A validator of bytes and a pattern over code units admit the same strings: a byte string is
admitted when it is the UTF-8 of a text that matches, and whatever matches is such a text. -/
def SameStrings (admits : List UInt8 → Bool) (pattern : RegularExpression ℕ) : Prop :=
  (∀ value, admits value = true ↔ ∃ s, value = utf8 s ∧ pattern.rmatch (utf16 s) = true) ∧
    ∀ units, pattern.rmatch units = true → ∃ s, units = utf16 s ∧ admits (utf8 s) = true

/-- Of ASCII strings it is enough to look at the text. -/
theorem sameStrings_of_ascii {admits : List UInt8 → Bool} {pattern : RegularExpression ℕ}
    (hbytes : ∀ value, admits value = true → ∃ s, value = utf8 s ∧ ∀ c ∈ s, c.toNat < 128)
    (hunits : ∀ units ∈ pattern.matches', ∀ u ∈ units, u < 128)
    (h : ∀ s, (∀ c ∈ s, c.toNat < 128) → (admits (utf8 s) = true ↔ utf16 s ∈ pattern.matches')) :
    SameStrings admits pattern := by
  simp only [SameStrings, RegularExpression.rmatch_iff_matches']
  constructor
  · intro value
    constructor
    · intro hv
      obtain ⟨s, rfl, hs⟩ := hbytes value hv
      exact ⟨s, rfl, (h s hs).1 hv⟩
    · rintro ⟨s, rfl, hs⟩
      exact (h s (ascii_of_utf16 (hunits _ hs))).2 hs
  · intro units hmem
    have hlt := hunits units hmem
    have hs : ∀ c ∈ units.map Char.ofNat, c.toNat < 128 := by
      intro c hc
      obtain ⟨u, hu, rfl⟩ := List.mem_map.1 hc
      have := hlt u hu
      rw [toNat_ofNat (.inl (by omega))]
      exact this
    have hunits' : utf16 (units.map Char.ofNat) = units := by
      rw [utf16_map_toNat hs, List.map_map]
      conv_rhs => rw [← List.map_id units]
      refine List.map_congr_left fun u hu => ?_
      have := hlt u hu
      exact toNat_ofNat (.inl (by omega))
    exact ⟨units.map Char.ofNat, hunits'.symm, (h _ hs).2 (hunits'.symm ▸ hmem)⟩

theorem utf8_length_ascii {s : List Char} (h : ∀ c ∈ s, c.toNat < 128) :
    (utf8 s).length = s.length := by
  rw [utf8_map_ofNat h, List.length_map]

theorem mem_span {first last : Char} (h : first.toNat ≤ last.toNat) {u : ℕ} :
    u ∈ span first last ↔ first.toNat ≤ u ∧ u ≤ last.toNat := by
  rw [span, List.mem_range'_1]
  omega

theorem span_ascii {first last : Char} (h : last.toNat < 128) : ∀ u ∈ span first last, u < 128 := by
  intro u hu
  rw [span, List.mem_range'_1] at hu
  omega

theorem char_le_iff {a b : Char} : a ≤ b ↔ a.toNat ≤ b.toNat := Iff.rfl

/-- A byte string whose code points are all admitted by an ASCII class is their encoding. -/
theorem ascii_of_runes {value : List UInt8} {p : Char → Bool} (h : (runes value).all p = true)
    (hp : ∀ c, p c = true → c.toNat < 128) :
    ∃ s, value = utf8 s ∧ (∀ c ∈ s, c.toNat < 128) ∧ s.all p = true := by
  rw [List.all_eq_true] at h
  refine ⟨runes value, (utf8_runes fun hmem => ?_).symm, fun c hc => hp c (h c hc),
    List.all_eq_true.2 h⟩
  exact absurd (hp _ (h _ hmem)) (by decide)

end Validators

/-! ## Object types -/

section DomainToken

theorem mem_domainTokenClass (r : Char) : (('a' ≤ r && r ≤ 'z') || ('0' ≤ r && r ≤ '9') ||
    r = '_' || r = '-') = true ↔ r.toNat ∈ domainTokenClass := by
  have hl : r.toNat = '_'.toNat ↔ r = '_' := Char.toNat_inj
  have hm : r.toNat = '-'.toNat ↔ r = '-' := Char.toNat_inj
  rw [domainTokenClass, List.mem_append, List.mem_append, mem_span (by decide),
    mem_span (by decide), List.mem_cons, List.mem_singleton, hl, hm]
  simp only [Bool.or_eq_true, Bool.and_eq_true, decide_eq_true_eq, char_le_iff, or_assoc]

theorem domainTokenClass_ascii : ∀ u ∈ domainTokenClass, u < 128 := by decide

theorem validDomainToken_iff {value : List UInt8} : validDomainToken value = true ↔
    value ≠ [] ∧ value.length ≤ 96 ∧ ∀ c ∈ runes value, c.toNat ∈ domainTokenClass := by
  unfold validDomainToken
  split_ifs with h
  · rw [Bool.or_eq_true, decide_eq_true_eq, decide_eq_true_eq] at h
    refine iff_of_false id ?_
    rintro ⟨h1, h2, -⟩
    rcases h with h | h
    · exact h1 h
    · omega
  · rw [Bool.or_eq_true, decide_eq_true_eq, decide_eq_true_eq, not_or, not_lt] at h
    rw [List.all_eq_true]
    simp only [mem_domainTokenClass]
    exact ⟨fun hall => ⟨h.1, h.2, hall⟩, fun hall => hall.2.2⟩

theorem sameStrings_domainToken : SameStrings validDomainToken domainToken := by
  refine sameStrings_of_ascii (fun value hv => ?_) (fun units hmem u hu => ?_) fun s hs => ?_
  · obtain ⟨-, -, hall⟩ := validDomainToken_iff.1 hv
    have hall' : (runes value).all (fun c => decide (c.toNat ∈ domainTokenClass)) = true := by
      simpa using hall
    obtain ⟨s, rfl, hs, -⟩ := ascii_of_runes hall' fun c hc =>
      domainTokenClass_ascii _ (of_decide_eq_true hc)
    exact ⟨s, rfl, hs⟩
  · obtain ⟨-, -, hall⟩ := mem_between_oneOf.1 hmem
    exact domainTokenClass_ascii u (hall u hu)
  · have hne : utf8 s ≠ [] ↔ 1 ≤ s.length := by
      rw [← utf8_length_ascii hs, Nat.one_le_iff_ne_zero, Ne, Ne, List.length_eq_zero_iff]
    rw [validDomainToken_iff, domainToken, mem_between_oneOf, runes_utf8, hne,
      utf8_length_ascii hs, utf16_map_toNat hs, List.length_map, List.forall_mem_map]

end DomainToken

/-! ## Schema versions -/

section SchemaVersion

theorem mem_digitClass (r : Char) :
    ('0' ≤ r && r ≤ '9') = true ↔ r.toNat ∈ span '0' '9' := by
  rw [mem_span (by decide)]
  simp only [Bool.and_eq_true, decide_eq_true_eq, char_le_iff]

theorem mem_versionPart {w : List ℕ} : w ∈ versionPart.matches' ↔
    w ≠ [] ∧ ¬ (1 < w.length ∧ w.head? = some 0x30) ∧ ∀ u ∈ w, u ∈ span '0' '9' := by
  have hspan : ∀ u, u ∈ span '0' '9' ↔ u = 0x30 ∨ u ∈ span '1' '9' := by
    intro u
    rw [mem_span (by decide), mem_span (by decide)]
    change 48 ≤ u ∧ u ≤ 57 ↔ u = 48 ∨ 49 ≤ u ∧ u ≤ 57
    omega
  rw [versionPart, mem_matches_add, mem_matches_char, mem_matches_mul]
  constructor
  · rintro (rfl | ⟨u, hu, v, hv, rfl⟩)
    · exact ⟨by simp, by simp, by decide⟩
    · obtain ⟨d, hd, rfl⟩ := mem_oneOf.1 hu
      refine ⟨by simp, ?_, List.forall_mem_cons.2 ⟨(hspan d).2 (.inr hd), mem_star_oneOf.1 hv⟩⟩
      rintro ⟨-, hhead⟩
      obtain rfl : d = 0x30 := by simpa using hhead
      revert hd
      decide
  · rintro ⟨hne, hzero, hall⟩
    rcases w with _ | ⟨d, w⟩
    · exact absurd rfl hne
    obtain ⟨hd, hw⟩ := List.forall_mem_cons.1 hall
    rcases (hspan d).1 hd with rfl | hd
    · rcases w with _ | ⟨e, w⟩
      · exact .inl rfl
      · exact absurd ⟨by simp, rfl⟩ hzero
    · exact .inr ⟨[d], mem_oneOf.2 ⟨d, hd, rfl⟩, w, mem_star_oneOf.2 hw, rfl⟩

theorem validPart_iff {part : List UInt8} : validPart part = true ↔ part ≠ [] ∧
    ¬ (1 < part.length ∧ part.head? = some 0x30) ∧ ∀ c ∈ runes part, c.toNat ∈ span '0' '9' := by
  unfold validPart
  split_ifs with h
  · refine iff_of_false id ?_
    rintro ⟨h1, h2, -⟩
    simp only [Bool.or_eq_true, Bool.and_eq_true, decide_eq_true_eq] at h
    rcases h with h | h
    · exact h1 h
    · exact h2 h
  · simp only [Bool.or_eq_true, Bool.and_eq_true, decide_eq_true_eq, not_or] at h
    rw [List.all_eq_true]
    simp only [mem_digitClass]
    exact ⟨fun hall => ⟨h.1, h.2, hall⟩, fun hall => hall.2.2⟩

theorem digit_ascii : ∀ u ∈ span '0' '9', u < 128 := by decide

theorem validPart_ascii {part : List UInt8} (h : validPart part = true) :
    ∃ s, part = utf8 s ∧ ∀ c ∈ s, c.toNat ∈ span '0' '9' := by
  obtain ⟨-, -, hall⟩ := validPart_iff.1 h
  have hall' : (runes part).all (fun c => decide (c.toNat ∈ span '0' '9')) = true := by
    simpa using hall
  obtain ⟨s, rfl, -, hs⟩ := ascii_of_runes hall' fun c hc => digit_ascii _ (of_decide_eq_true hc)
  exact ⟨s, rfl, by simpa using hs⟩

theorem validPart_utf8 {s : List Char} (hs : ∀ c ∈ s, c.toNat < 128) :
    validPart (utf8 s) = true ↔ utf16 s ∈ versionPart.matches' := by
  have hhead : (utf8 s).head? = some 0x30 ↔ (utf16 s).head? = some 0x30 := by
    rcases s with _ | ⟨c, s⟩
    · simp
    · rw [utf8_map_ofNat hs, utf16_map_toNat hs, List.map_cons, List.map_cons, List.head?_cons,
        List.head?_cons, Option.some.injEq, Option.some.injEq]
      exact ofNat_eq_iff (hs c List.mem_cons_self) (n := 0x30) (by decide)
  have hne : utf8 s ≠ [] ↔ utf16 s ≠ [] := by
    rw [utf8_map_ofNat hs, utf16_map_toNat hs, Ne, Ne, List.map_eq_nil_iff, List.map_eq_nil_iff]
  have hlen : (utf8 s).length = (utf16 s).length := by
    rw [utf8_length_ascii hs, utf16_map_toNat hs, List.length_map]
  rw [validPart_iff, mem_versionPart, runes_utf8, hhead, hne, hlen, utf16_map_toNat hs,
    List.forall_mem_map]

theorem validSchemaVersion_iff {value : List UInt8} : validSchemaVersion value = true ↔
    ∃ p q r, value = p ++ 0x2E :: (q ++ 0x2E :: r) ∧
      validPart p = true ∧ validPart q = true ∧ validPart r = true := by
  have hdot : ∀ {part : List UInt8}, validPart part = true → (0x2E : UInt8) ∉ part := by
    intro part h hmem
    obtain ⟨s, rfl, hs⟩ := validPart_ascii h
    have hlt : ∀ c ∈ s, c.toNat < 128 := fun c hc => digit_ascii _ (hs c hc)
    rw [utf8_map_ofNat hlt] at hmem
    obtain ⟨c, hc, heq⟩ := List.mem_map.1 hmem
    have := (ofNat_eq_iff (hlt c hc) (n := 0x2E) (by decide)).1 heq
    have hd := hs c hc
    rw [this] at hd
    revert hd
    decide
  unfold validSchemaVersion
  dsimp only
  constructor
  · intro h
    split_ifs at h with hlen
    rw [Ne, not_not] at hlen
    obtain ⟨p, q, r, hparts⟩ := List.length_eq_three.1 hlen
    rw [hparts] at h
    have hvalue : [0x2E].intercalate (value.splitOn 0x2E) = value := List.intercalate_splitOn _
    rw [hparts] at hvalue
    simp only [List.all_cons, List.all_nil, Bool.and_true, Bool.and_eq_true] at h
    refine ⟨p, q, r, ?_, h.1, h.2.1, h.2.2⟩
    rw [← hvalue]
    simp [List.intercalate]
  · rintro ⟨p, q, r, rfl, hp, hq, hr⟩
    have hsplit : (p ++ 0x2E :: (q ++ 0x2E :: r)).splitOn (0x2E : UInt8) = [p, q, r] := by
      rw [List.splitOn_append_cons_self_of_not_mem (hdot hp),
        List.splitOn_append_cons_self_of_not_mem (hdot hq)]
      have : ([0x2E].intercalate [r]).splitOn (0x2E : UInt8) = [r] :=
        List.splitOn_intercalate _ (by simpa using hdot hr) (by simp)
      simpa [List.intercalate] using this
    rw [hsplit]
    simp [hp, hq, hr]

theorem mem_schemaVersion {w : List ℕ} : w ∈ schemaVersion.matches' ↔
    ∃ p q r, w = p ++ 0x2E :: (q ++ 0x2E :: r) ∧ p ∈ versionPart.matches' ∧
      q ∈ versionPart.matches' ∧ r ∈ versionPart.matches' := by
  rw [schemaVersion, mem_matches_mul]
  constructor
  · rintro ⟨p, hp, w₁, hw₁, rfl⟩
    obtain ⟨d₁, h1, w₂, hw₂, rfl⟩ := mem_matches_mul.1 hw₁
    obtain ⟨q, hq, w₃, hw₃, rfl⟩ := mem_matches_mul.1 hw₂
    obtain ⟨d₂, h2, r, hr, rfl⟩ := mem_matches_mul.1 hw₃
    rw [mem_matches_char.1 h1, mem_matches_char.1 h2]
    exact ⟨p, q, r, rfl, hp, hq, hr⟩
  · rintro ⟨p, q, r, rfl, hp, hq, hr⟩
    refine ⟨p, hp, _, mem_matches_mul.2 ⟨[0x2E], mem_matches_char.2 rfl, _, ?_, rfl⟩, rfl⟩
    exact mem_matches_mul.2 ⟨q, hq, _, mem_matches_mul.2 ⟨[0x2E], mem_matches_char.2 rfl, r, hr, rfl⟩,
      rfl⟩

theorem versionPart_ascii {w : List ℕ} (h : w ∈ versionPart.matches') : ∀ u ∈ w, u < 128 :=
  fun u hu => digit_ascii u ((mem_versionPart.1 h).2.2 u hu)

theorem utf8_dot (s : List Char) : utf8 ('.' :: s) = 0x2E :: utf8 s := utf8_ascii (by decide) s

theorem utf16_dot (s : List Char) : utf16 ('.' :: s) = 0x2E :: utf16 s := rfl

/-- A version's text is cut at the same points in either encoding. -/
theorem utf16_three_parts {s : List Char} {p q r : List ℕ}
    (h : utf16 s = p ++ 0x2E :: (q ++ 0x2E :: r)) (hs : ∀ c ∈ s, c.toNat < 128) :
    ∃ p' q' r', s = p' ++ '.' :: (q' ++ '.' :: r') ∧ utf16 p' = p ∧ utf16 q' = q ∧
      utf16 r' = r := by
  have hinv : ∀ {t : List Char} {x : List ℕ}, (∀ c ∈ t, c.toNat < 128) → utf16 t = x →
      t = x.map Char.ofNat := by
    rintro t x ht rfl
    rw [utf16_map_toNat ht, List.map_map]
    conv_lhs => rw [← List.map_id t]
    exact List.map_congr_left fun c _ => (Char.ofNat_toNat c).symm
  have hs' := hinv hs h
  have hlt : ∀ u ∈ p ++ 0x2E :: (q ++ 0x2E :: r), u < 128 := by
    rw [← h, utf16_map_toNat hs, List.forall_mem_map]
    exact hs
  have hback : ∀ x : List ℕ, (∀ u ∈ x, u < 128) → utf16 (x.map Char.ofNat) = x := by
    intro x hx
    have hx' : ∀ c ∈ x.map Char.ofNat, c.toNat < 128 := by
      intro c hc
      obtain ⟨u, hu, rfl⟩ := List.mem_map.1 hc
      have := hx u hu
      rw [toNat_ofNat (.inl (by omega))]
      exact this
    rw [utf16_map_toNat hx', List.map_map]
    conv_rhs => rw [← List.map_id x]
    refine List.map_congr_left fun u hu => ?_
    have := hx u hu
    exact toNat_ofNat (.inl (by omega))
  simp only [List.mem_append, List.mem_cons] at hlt
  refine ⟨p.map Char.ofNat, q.map Char.ofNat, r.map Char.ofNat, ?_, hback p fun u hu => hlt u
    (.inl hu), hback q fun u hu => hlt u (by tauto), hback r fun u hu => hlt u (by tauto)⟩
  rw [hs']
  simp

theorem sameStrings_schemaVersion : SameStrings validSchemaVersion schemaVersion := by
  refine sameStrings_of_ascii (fun value hv => ?_) (fun units hmem u hu => ?_) fun s hs => ?_
  · obtain ⟨p, q, r, rfl, hp', hq', hr'⟩ := validSchemaVersion_iff.1 hv
    obtain ⟨p, rfl, hp⟩ := validPart_ascii hp'
    obtain ⟨q, rfl, hq⟩ := validPart_ascii hq'
    obtain ⟨r, rfl, hr⟩ := validPart_ascii hr'
    refine ⟨p ++ '.' :: (q ++ '.' :: r), by rw [utf8_append, utf8_dot, utf8_append, utf8_dot], ?_⟩
    intro c hc
    simp only [List.mem_append, List.mem_cons] at hc
    rcases hc with hc | rfl | hc | rfl | hc
    · exact digit_ascii _ (hp c hc)
    · decide
    · exact digit_ascii _ (hq c hc)
    · decide
    · exact digit_ascii _ (hr c hc)
  · obtain ⟨p, q, r, rfl, hp, hq, hr⟩ := mem_schemaVersion.1 hmem
    simp only [List.mem_append, List.mem_cons] at hu
    rcases hu with hu | rfl | hu | rfl | hu
    · exact versionPart_ascii hp u hu
    · decide
    · exact versionPart_ascii hq u hu
    · decide
    · exact versionPart_ascii hr u hu
  · rw [validSchemaVersion_iff, mem_schemaVersion]
    constructor
    · rintro ⟨p, q, r, heq, hp', hq', hr'⟩
      obtain ⟨p, rfl, hp⟩ := validPart_ascii hp'
      obtain ⟨q, rfl, hq⟩ := validPart_ascii hq'
      obtain ⟨r, rfl, hr⟩ := validPart_ascii hr'
      have hs' : s = p ++ '.' :: (q ++ '.' :: r) := by
        refine utf8_injective ?_
        rw [heq, utf8_append, utf8_dot, utf8_append, utf8_dot]
      subst hs'
      refine ⟨utf16 p, utf16 q, utf16 r, by rw [utf16_append, utf16_dot, utf16_append, utf16_dot],
        (validPart_utf8 fun c hc => digit_ascii _ (hp c hc)).1 hp',
        (validPart_utf8 fun c hc => digit_ascii _ (hq c hc)).1 hq',
        (validPart_utf8 fun c hc => digit_ascii _ (hr c hc)).1 hr'⟩
    · rintro ⟨p, q, r, heq, hp, hq, hr⟩
      obtain ⟨p, q, r, rfl, rfl, rfl, rfl⟩ := utf16_three_parts heq hs
      refine ⟨utf8 p, utf8 q, utf8 r, by rw [utf8_append, utf8_dot, utf8_append, utf8_dot],
        (validPart_utf8 (ascii_of_utf16 (versionPart_ascii hp))).2 hp,
        (validPart_utf8 (ascii_of_utf16 (versionPart_ascii hq))).2 hq,
        (validPart_utf8 (ascii_of_utf16 (versionPart_ascii hr))).2 hr⟩

end SchemaVersion

/-! ## Domain separation -/

section Separation

theorem typedDigestInput_eq_ok {objectType schemaVersion payload hashed : List UInt8} :
    typedDigestInput objectType schemaVersion payload = .ok hashed ↔
      validDomainToken objectType = true ∧ validSchemaVersion schemaVersion = true ∧
      ∃ canonical, canonicalizeJSON payload = .ok canonical ∧ hashed = ascii "jumpship:" ++
        objectType ++ ascii ":" ++ schemaVersion ++ [0] ++ canonical := by
  unfold typedDigestInput
  split_ifs with h
  · simp only [Bool.or_eq_true, Bool.not_eq_true'] at h
    refine iff_of_false (by simp) ?_
    rintro ⟨h1, h2, -⟩
    rcases h with h | h
    · rw [h] at h1
      cases h1
    · rw [h] at h2
      cases h2
  · simp only [Bool.or_eq_true, Bool.not_eq_true', not_or, Bool.not_eq_false] at h
    rw [and_iff_right h.1, and_iff_right h.2]
    rcases canonicalizeJSON payload with e | canonical
    · simp [Bind.bind, Except.bind]
    · simp [Bind.bind, Except.bind, eq_comm]

/-- A text of an ASCII class has no byte outside the class. -/
theorem notMem_utf8 {s : List Char} {cs : List ℕ} (hs : ∀ c ∈ s, c.toNat ∈ cs)
    (hcs : ∀ u ∈ cs, u < 128) {n : ℕ} (hn : n ∉ cs) (hlt : n < 128) : UInt8.ofNat n ∉ utf8 s := by
  have hascii : ∀ c ∈ s, c.toNat < 128 := fun c hc => hcs _ (hs c hc)
  rw [utf8_map_ofNat hascii]
  intro hmem
  obtain ⟨c, hc, heq⟩ := List.mem_map.1 hmem
  rw [ofNat_eq_iff (hascii c hc) hlt] at heq
  exact hn (heq ▸ hs c hc)

theorem colon_notMem {value : List UInt8} (h : validDomainToken value = true) :
    (0x3A : UInt8) ∉ value := by
  obtain ⟨-, -, hall⟩ := validDomainToken_iff.1 h
  have hall' : (runes value).all (fun c => decide (c.toNat ∈ domainTokenClass)) = true := by
    simpa using hall
  obtain ⟨s, rfl, -, hs⟩ := ascii_of_runes hall' fun c hc =>
    domainTokenClass_ascii _ (of_decide_eq_true hc)
  exact notMem_utf8 (by simpa using hs) domainTokenClass_ascii (n := 0x3A) (by decide) (by decide)

theorem nul_notMem {value : List UInt8} (h : validSchemaVersion value = true) :
    (0 : UInt8) ∉ value := by
  have hpart : ∀ {part : List UInt8}, validPart part = true → (0 : UInt8) ∉ part := by
    intro part hp
    obtain ⟨s, rfl, hs⟩ := validPart_ascii hp
    exact notMem_utf8 hs digit_ascii (n := 0) (by decide) (by decide)
  obtain ⟨p, q, r, rfl, hp, hq, hr⟩ := validSchemaVersion_iff.1 h
  simp only [List.mem_append, List.mem_cons, not_or]
  exact ⟨hpart hp, by decide, hpart hq, by decide, hpart hr⟩

/-- The first occurrence of a separator cuts a list in one way. -/
theorem append_cons_inj {α : Type} {x : α} {a b c d : List α} (ha : x ∉ a) (hb : x ∉ b)
    (h : a ++ x :: c = b ++ x :: d) : a = b ∧ c = d := by
  induction a generalizing b with
  | nil =>
    rcases b with _ | ⟨y, b⟩
    · exact ⟨rfl, (List.cons.inj h).2⟩
    · rw [(List.cons.inj h).1] at hb
      exact absurd List.mem_cons_self hb
  | cons y a ih =>
    rcases b with _ | ⟨z, b⟩
    · rw [(List.cons.inj h).1] at ha
      exact absurd List.mem_cons_self ha
    · obtain ⟨rfl, h'⟩ := List.cons.inj h
      obtain ⟨rfl, rfl⟩ := ih (fun hx => ha (List.mem_cons_of_mem _ hx))
        (fun hx => hb (List.mem_cons_of_mem _ hx)) h'
      exact ⟨rfl, rfl⟩

/-- The hashed bytes determine the type, the version and the canonical payload. -/
theorem typedDigestInput_injective {type₁ version₁ payload₁ type₂ version₂ payload₂ : List UInt8}
    {hashed : List UInt8} (h₁ : typedDigestInput type₁ version₁ payload₁ = .ok hashed)
    (h₂ : typedDigestInput type₂ version₂ payload₂ = .ok hashed) :
    type₁ = type₂ ∧ version₁ = version₂ ∧ ∃ canonical,
      canonicalizeJSON payload₁ = .ok canonical ∧ canonicalizeJSON payload₂ = .ok canonical := by
  obtain ⟨ht₁, hv₁, c₁, hc₁, rfl⟩ := typedDigestInput_eq_ok.1 h₁
  obtain ⟨ht₂, hv₂, c₂, hc₂, heq⟩ := typedDigestInput_eq_ok.1 h₂
  simp only [List.append_assoc, List.append_cancel_left_eq] at heq
  have hcolon : ascii ":" = [0x3A] := by decide
  rw [hcolon, List.singleton_append, List.singleton_append, List.singleton_append,
    List.singleton_append] at heq
  obtain ⟨ht, hrest⟩ := append_cons_inj (colon_notMem ht₁) (colon_notMem ht₂) heq
  obtain ⟨hv, rfl⟩ := append_cons_inj (nul_notMem hv₁) (nul_notMem hv₂) hrest
  exact ⟨ht, hv, c₁, hc₁, hc₂⟩

/-- Typed digests are domain separated: equal hashed bytes come from equal types, equal versions and
payloads with the same canonical JSON, and the validators behind that admit exactly the strings of
the client's patterns. -/
theorem typedDigest_separated :
    (∀ type₁ version₁ payload₁ type₂ version₂ payload₂ hashed : List UInt8,
      typedDigestInput type₁ version₁ payload₁ = .ok hashed →
      typedDigestInput type₂ version₂ payload₂ = .ok hashed →
      type₁ = type₂ ∧ version₁ = version₂ ∧ ∃ canonical,
        canonicalizeJSON payload₁ = .ok canonical ∧ canonicalizeJSON payload₂ = .ok canonical) ∧
    SameStrings validDomainToken domainToken ∧ SameStrings validSchemaVersion schemaVersion :=
  ⟨fun _ _ _ _ _ _ _ h₁ h₂ => typedDigestInput_injective h₁ h₂, sameStrings_domainToken,
    sameStrings_schemaVersion⟩

theorem typedDigest_separated_receipt :
    ascii "receipt" = ascii "receipt" ∧ ascii "1.0.0" = ascii "1.0.0" ∧ ∃ canonical,
      canonicalizeJSON (ascii "[1.0]") = .ok canonical ∧
      canonicalizeJSON (ascii "[1]") = .ok canonical :=
  typedDigest_separated.1 (ascii "receipt") (ascii "1.0.0") (ascii "[1.0]") (ascii "receipt")
    (ascii "1.0.0") (ascii "[1]")
    (ascii "jumpship:receipt:1.0.0" ++ [0] ++ ascii "[1]") (by decide +kernel) (by decide +kernel)

end Separation

end Canonical
