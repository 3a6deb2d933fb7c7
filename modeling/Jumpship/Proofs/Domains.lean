import Jumpship.Codegen.Patterns
import Jumpship.Proofs.TypedDigest

/-!
# What the envelope schema admits as a domain

The schema of the signature envelope is wider than the check of the typed digest: of the pairs it
admits, the digest takes those whose type is short and has no dot and whose version has no
pre-release.
-/

namespace Canonical

open Client Codegen.Patterns Pattern Regex Unicode

/-! ## Object types -/

section ObjectTypes

theorem admits_objectType {t : List Char} (h : objectTypeSchema.admits t = true) :
    utf16 t ∈ safeNamePattern.expression.matches' := by
  simp only [StringSchema.admits, objectTypeSchema, Option.all_some, Bool.and_eq_true] at h
  exact finds_ecmaScript.1 h.2

theorem ascii_of_mem {p : Regex} {t : List Char} (hp : p.Ascii)
    (h : utf16 t ∈ p.expression.matches') : ∀ c ∈ t, c.toNat < 128 :=
  ascii_of_utf16 (over_ascii hp _ h)

/-- The classes of a safe name differ from that of a domain token in the dot only. -/
theorem mem_safeName {w : List ℕ} (h : w ∈ safeNamePattern.expression.matches') :
    w ≠ [] ∧ ∀ u ∈ w, u ∈ domainTokenClass ∨ u = 0x2E := by
  obtain ⟨u, hu, v, hv, rfl⟩ := mem_matches_mul.1 h
  obtain ⟨c, hc, rfl⟩ := mem_oneOf.1 hu
  obtain ⟨-, -, hv⟩ := mem_between_oneOf.1 hv
  have hfirst : ∀ c ∈ [('a', 'z')].flatMap codes, c ∈ domainTokenClass ∨ c = 0x2E := by decide
  have hrest : ∀ c ∈ [('a', 'z'), ('0', '9'), ('_', '_'), ('.', '.'), ('-', '-')].flatMap codes,
      c ∈ domainTokenClass ∨ c = 0x2E := by decide
  exact ⟨List.cons_ne_nil _ _, List.forall_mem_cons.2 ⟨hfirst c hc, fun d hd => hrest d (hv d hd)⟩⟩

theorem validDomainToken_of_admits {t : List Char} (h : objectTypeSchema.admits t = true) :
    validDomainToken (utf8 t) = true ↔ t.length ≤ 96 ∧ '.' ∉ t := by
  have hmem := admits_objectType h
  have hascii := ascii_of_mem (by decide) hmem
  rw [utf16_map_toNat hascii] at hmem
  obtain ⟨hne, hclass⟩ := mem_safeName hmem
  rw [List.forall_mem_map] at hclass
  have hne' : utf8 t ≠ [] := by
    rwa [utf8_map_ofNat hascii, ne_eq, List.map_eq_nil_iff, ← @List.map_eq_nil_iff _ _ Char.toNat]
  have hdot : (0x2E : ℕ) ∉ domainTokenClass := by decide
  rw [validDomainToken_iff, runes_utf8, utf8_length_ascii hascii]
  constructor
  · rintro ⟨-, hlen, hall⟩
    exact ⟨hlen, fun hmem => hdot (hall '.' hmem)⟩
  · rintro ⟨hlen, hno⟩
    refine ⟨hne', hlen, fun c hc => (hclass c hc).resolve_right fun heq => hno ?_⟩
    have : c = '.' := Char.toNat_inj.1 heq
    rwa [← this]

end ObjectTypes

/-! ## Versions -/

section Versions

theorem admits_version {v : List Char} (h : objectSchemaVersionSchema.admits v = true) :
    utf16 v ∈ semverPattern.expression.matches' := by
  simp only [StringSchema.admits, objectSchemaVersionSchema, Option.all_some, Bool.and_eq_true] at h
  exact finds_ecmaScript.1 h.2

/-- A version of the contracts is one of the typed digest and perhaps a pre-release. -/
theorem mem_semver {w : List ℕ} (h : w ∈ semverPattern.expression.matches') :
    ∃ u ∈ Client.schemaVersion.matches', w = u ∨ ∃ s, w = u ++ 0x2D :: s := by
  have hpart : versionNumber.expression = versionPart := rfl
  simp only [semverPattern, seq, expression, hpart] at h
  obtain ⟨p, hp, w₁, h₁, rfl⟩ := mem_matches_mul.1 h
  obtain ⟨d, hd, w₂, h₂, rfl⟩ := mem_matches_mul.1 h₁
  obtain ⟨q, hq, w₃, h₃, rfl⟩ := mem_matches_mul.1 h₂
  obtain ⟨d', hd', w₄, h₄, rfl⟩ := mem_matches_mul.1 h₃
  obtain ⟨r, hr, s, hs, rfl⟩ := mem_matches_mul.1 h₄
  rw [mem_matches_char.1 hd, mem_matches_char.1 hd']
  refine ⟨p ++ 0x2E :: (q ++ 0x2E :: r), mem_schemaVersion.2 ⟨p, q, r, rfl, hp, hq, hr⟩, ?_⟩
  rcases mem_matches_add.1 hs with hs | hs
  · rw [mem_matches_one.1 hs, List.append_nil]
    exact .inl rfl
  · obtain ⟨m, hm, s, -, rfl⟩ := mem_matches_mul.1 hs
    rw [mem_matches_char.1 hm]
    exact .inr ⟨s, by simp⟩

theorem hyphen_notMem {w : List ℕ} (h : w ∈ Client.schemaVersion.matches') : 0x2D ∉ w := by
  have hdigit : (0x2D : ℕ) ∉ span '0' '9' := by decide
  obtain ⟨p, q, r, rfl, hp, hq, hr⟩ := mem_schemaVersion.1 h
  simp only [List.mem_append, List.mem_cons, not_or]
  exact ⟨fun hmem => hdigit ((mem_versionPart.1 hp).2.2 _ hmem), by decide,
    fun hmem => hdigit ((mem_versionPart.1 hq).2.2 _ hmem), by decide,
    fun hmem => hdigit ((mem_versionPart.1 hr).2.2 _ hmem)⟩

theorem validSchemaVersion_utf8 (v : List Char) :
    validSchemaVersion (utf8 v) = true ↔ Client.schemaVersion.rmatch (utf16 v) = true := by
  rw [sameStrings_schemaVersion.1]
  constructor
  · rintro ⟨s, hs, hmatch⟩
    rwa [utf8_injective hs]
  · intro h
    exact ⟨v, rfl, h⟩

theorem validDomainToken_utf8 (t : List Char) :
    validDomainToken (utf8 t) = true ↔ domainToken.rmatch (utf16 t) = true := by
  rw [sameStrings_domainToken.1]
  constructor
  · rintro ⟨s, hs, hmatch⟩
    rwa [utf8_injective hs]
  · intro h
    exact ⟨t, rfl, h⟩

theorem validSchemaVersion_of_admits {v : List Char}
    (h : objectSchemaVersionSchema.admits v = true) :
    validSchemaVersion (utf8 v) = true ↔ '-' ∉ v := by
  have hmem := admits_version h
  have hascii := ascii_of_mem (by decide) hmem
  have hhyphen : '-' ∈ v ↔ 0x2D ∈ utf16 v := by
    rw [utf16_map_toNat hascii]
    refine ⟨fun hv => List.mem_map.2 ⟨'-', hv, rfl⟩, fun hv => ?_⟩
    obtain ⟨c, hc, heq⟩ := List.mem_map.1 hv
    rwa [← (Char.toNat_inj.1 heq : c = '-')]
  rw [validSchemaVersion_utf8, RegularExpression.rmatch_iff_matches', hhyphen]
  refine ⟨hyphen_notMem, fun hno => ?_⟩
  obtain ⟨u, hu, heq | ⟨s, heq⟩⟩ := mem_semver hmem
  · rwa [heq]
  · rw [heq] at hno
    exact absurd (by simp) hno

end Versions

/-! ## Envelopes -/

section Envelopes

/-- The check of the typed digest, in Go and in the client. -/
def AcceptsDomain (objectType version : List Char) : Prop :=
  (validDomainToken (utf8 objectType) = true ∧ validSchemaVersion (utf8 version) = true) ∧
    domainToken.rmatch (utf16 objectType) = true ∧
    Client.schemaVersion.rmatch (utf16 version) = true

/-- Of what the envelope's schema admits, both domain checks accept the types of at most 96
characters and without a dot, with the versions without a pre-release. -/
theorem admits_acceptsDomain {objectType version : List Char}
    (htype : objectTypeSchema.admits objectType = true)
    (hversion : objectSchemaVersionSchema.admits version = true) :
    (AcceptsDomain objectType version ↔
      (objectType.length ≤ 96 ∧ '.' ∉ objectType) ∧ '-' ∉ version) ∧
    (validDomainToken (utf8 objectType) = true ∧ validSchemaVersion (utf8 version) = true ↔
      domainToken.rmatch (utf16 objectType) = true ∧
        Client.schemaVersion.rmatch (utf16 version) = true) := by
  have hsame : validDomainToken (utf8 objectType) = true ∧ validSchemaVersion (utf8 version) = true ↔
      domainToken.rmatch (utf16 objectType) = true ∧
        Client.schemaVersion.rmatch (utf16 version) = true := by
    rw [validDomainToken_utf8, validSchemaVersion_utf8]
  refine ⟨?_, hsame⟩
  rw [AcceptsDomain, ← hsame, and_self, validDomainToken_of_admits htype,
    validSchemaVersion_of_admits hversion]

theorem admits_objectTypeSchema {c : Char} {rest : List Char}
    (hc : c.toNat ∈ [('a', 'z')].flatMap codes) (hlen : rest.length ≤ 127)
    (hrest : ∀ d ∈ rest.map Char.toNat,
      d ∈ [('a', 'z'), ('0', '9'), ('_', '_'), ('.', '.'), ('-', '-')].flatMap codes) :
    objectTypeSchema.admits (c :: rest) = true := by
  have hmem : (c :: rest).map Char.toNat ∈ safeNamePattern.expression.matches' :=
    mem_matches_mul.2 ⟨[c.toNat], mem_oneOf.2 ⟨_, hc, rfl⟩, rest.map Char.toNat,
      mem_between_oneOf.2 ⟨Nat.zero_le _, by simpa using hlen, hrest⟩, rfl⟩
  have hascii : ∀ d ∈ c :: rest, d.toNat < 128 := fun d hd =>
    over_ascii (p := safeNamePattern) (by decide) _ hmem _ (List.mem_map_of_mem hd)
  rw [← utf16_map_toNat hascii] at hmem
  simp only [StringSchema.admits, objectTypeSchema, Option.all_some, Nat.zero_le, decide_true,
    Bool.true_and, Bool.and_eq_true, decide_eq_true_eq, List.length_cons]
  exact ⟨by omega, finds_ecmaScript.2 hmem⟩

theorem admits_plain : objectSchemaVersionSchema.admits "1.0.0".toList = true := by
  decide +kernel

/-- The type `a.b` is admitted with any version and never accepted. -/
theorem not_admits_acceptsDomain :
    ¬ ∀ objectType version : List Char, objectTypeSchema.admits objectType = true →
      objectSchemaVersionSchema.admits version = true → AcceptsDomain objectType version := by
  intro h
  have htype : objectTypeSchema.admits ['a', '.', 'b'] = true :=
    admits_objectTypeSchema (by decide) (by decide) (by decide)
  have haccepts := h _ _ htype admits_plain
  exact absurd haccepts.1.1 (by decide +kernel)

theorem admits_acceptsDomain_receipt : AcceptsDomain "receipt".toList "1.0.0".toList := by
  have htype : objectTypeSchema.admits "receipt".toList = true :=
    @admits_objectTypeSchema 'r' "eceipt".toList (by decide) (by decide) (by decide)
  exact (admits_acceptsDomain htype admits_plain).1.2
    ⟨⟨by decide, by decide⟩, by decide⟩

end Envelopes

end Canonical
