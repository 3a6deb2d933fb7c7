import Jumpship.Codegen.ReturnPaths
import Jumpship.Js.Location
import Jumpship.Lib.Reference

/-!
# Return paths and the application's origin

A return path stays in the application exactly when its second character is not a slash: the
pattern's class has the slash, and what stands behind two of them is an authority to RFC 3986 and to
the URL standard.
-/

namespace Codegen.ReturnPaths

open Codegen.Patterns Pattern Regex Unicode

/-! ## Origins -/

section Origins

/-- `reg-name` of RFC 3986 -/
def isNameChar (c : Char) : Bool :=
  c.isAlphanum ||
    c ∈ ['-', '.', '_', '~', '%', '!', '$', '&', '\x27', '(', ')', '*', '+', ',', ';', '=']

def isAddressChar (c : Char) : Bool := c.isAlphanum || c ∈ [':', '.']

/-- A name, or an address in brackets. -/
def IsHost (host : List Char) : Prop :=
  (host ≠ [] ∧ ∀ c ∈ host, isNameChar c = true) ∨
    ∃ address, host = '[' :: address ++ [']'] ∧ ∀ c ∈ address, isAddressChar c = true

/-- An origin an application is served from, `https://host` or `https://host:port`. -/
structure Origin where
  host : List Char
  port : Option ℕ
  isHost : IsHost host

namespace Origin

def https : List Char := ['h', 't', 't', 'p', 's']

def authority (o : Origin) : List Char :=
  o.host ++ o.port.elim [] fun n => ':' :: Nat.toDigits 10 n

def text (o : Origin) : List Char := https ++ [':', '/', '/'] ++ o.authority

/-- Scheme, host and port. -/
def triple (o : Origin) : Option (List Char) × Option (List Char × List Char) :=
  (some https, some (o.host.map Char.toLower, Reference.httpsPort (o.port.map (Nat.toDigits 10))))

/-- What the URL standard's parser makes of it: the port 443 is left out. -/
def location (o : Origin) : Js.Location := ⟨https, o.host, o.port.filter (· ≠ 443), [[]], none⟩

variable (o : Origin)

theorem notMem_host {c : Char} (hname : isNameChar c = false) (haddress : isAddressChar c = false)
    (hopen : c ≠ '[') (hclose : c ≠ ']') : c ∉ o.host := by
  intro hc
  rcases o.isHost with ⟨-, h⟩ | ⟨address, heq, h⟩
  · rw [h c hc] at hname
    cases hname
  · rw [heq] at hc
    simp only [List.cons_append, List.mem_cons, List.mem_append, List.not_mem_nil, or_false] at hc
    rcases hc with rfl | hc | rfl
    · exact hopen rfl
    · rw [h c hc] at haddress
      cases haddress
    · exact hclose rfl

theorem notMem_authority {c : Char} (hname : isNameChar c = false) (haddress : isAddressChar c = false)
    (hopen : c ≠ '[') (hclose : c ≠ ']') : c ∉ o.authority := by
  have hcolon : c ≠ ':' := by rintro rfl; cases haddress
  rw [authority, List.mem_append, not_or]
  refine ⟨o.notMem_host hname haddress hopen hclose, ?_⟩
  cases o.port with
  | none => exact List.not_mem_nil
  | some n =>
    have hdigit : c ∉ Nat.toDigits 10 n := fun hc => by
      have h := Nat.isDigit_of_mem_toDigits (by decide) (by decide) hc
      rw [isAddressChar, Char.isAlphanum, h] at haddress
      simp at haddress
    simpa using ⟨hcolon, hdigit⟩

theorem splitOff_of_notMem {mark : Char} {s : List Char} (h : mark ∉ s) :
    Reference.splitOff mark s = (s, none) := by
  have htake : s.takeWhile (· ≠ mark) = s := List.takeWhile_eq_self_iff.2 fun c hc => by
    have : c ≠ mark := fun heq => h (heq ▸ hc)
    simpa using this
  have hdrop : s.dropWhile (· ≠ mark) = [] := List.dropWhile_eq_nil_iff.2 fun c hc => by
    have : c ≠ mark := fun heq => h (heq ▸ hc)
    simpa using this
  simp only [Reference.splitOff, List.span_eq_takeWhile_dropWhile, htake, hdrop]

theorem splitOff_append {mark : Char} {s t : List Char} (h : mark ∉ s) :
    Reference.splitOff mark (s ++ mark :: t) = (s, some t) := by
  have hne : ∀ c ∈ s, (decide (c ≠ mark)) = true := fun c hc => by
    have : c ≠ mark := fun heq => h (heq ▸ hc)
    simpa using this
  have htake : (s ++ mark :: t).takeWhile (· ≠ mark) = s := by
    rw [List.takeWhile_append_of_pos hne, List.takeWhile_cons_of_neg (by simp), List.append_nil]
  have hdrop : (s ++ mark :: t).dropWhile (· ≠ mark) = mark :: t := by
    rw [List.dropWhile_append_of_pos hne, List.dropWhile_cons_of_neg (by simp)]
  simp only [Reference.splitOff, List.span_eq_takeWhile_dropWhile, htake, hdrop]

/-- The port is read from behind the host. -/
theorem hostPort_authority :
    Reference.hostPort o.authority = (o.host, o.port.map (Nat.toDigits 10)) := by
  have hat : '@' ∉ o.authority := o.notMem_authority (by decide) (by decide) (by decide) (by decide)
  rw [Reference.hostPort, splitOff_of_notMem hat, Option.getD_none]
  rcases o.isHost with ⟨hne, h⟩ | ⟨address, heq, h⟩
  · have hcolon : ':' ∉ o.host := fun hc => absurd (h _ hc) (by decide)
    have hopen : ∀ s, o.authority ≠ '[' :: s := fun s hs => by
      obtain ⟨c, rest, hhost⟩ := List.exists_cons_of_ne_nil hne
      rw [authority, hhost, List.cons_append] at hs
      have hc := h c (by rw [hhost]; exact List.mem_cons_self)
      rw [(List.cons.inj hs).1] at hc
      exact absurd hc (by decide)
    split
    · rename_i s hs
      exact absurd hs (hopen s)
    · rw [authority]
      cases o.port with
      | none => simpa using splitOff_of_notMem hcolon
      | some n => exact splitOff_append hcolon
  · have hclose : ']' ∉ address := fun hc => absurd (h _ hc) (by decide)
    have hne : ∀ c ∈ address, (decide (c ≠ ']')) = true := fun c hc => by
      have : c ≠ ']' := fun heq => hclose (heq ▸ hc)
      simpa using this
    have hauthority : o.authority =
        '[' :: (address ++ ']' :: o.port.elim [] fun n => ':' :: Nat.toDigits 10 n) := by
      rw [authority, heq, List.cons_append, List.cons_append, List.append_assoc]
      rfl
    rw [hauthority]
    simp only [List.span_eq_takeWhile_dropWhile]
    rw [List.takeWhile_append_of_pos hne, List.dropWhile_append_of_pos hne,
      List.takeWhile_cons_of_neg (by simp), List.dropWhile_cons_of_neg (by simp), heq]
    cases o.port with
    | none => simp [Reference.splitOff, List.span_eq_takeWhile_dropWhile]
    | some n =>
      simp [Reference.splitOff, List.span_eq_takeWhile_dropWhile]

/-- The text of an origin is read as its scheme, host and port. -/
theorem origin_text : (Reference.parse o.text).origin = o.triple := by
  have hnotMem : ∀ c ∈ ['/', '?', '#'], c ∉ o.authority := fun c hc => by
    fin_cases hc <;> exact o.notMem_authority (by decide) (by decide) (by decide) (by decide)
  have htake : o.authority.takeWhile (fun c => c ∉ ['/', '?', '#']) = o.authority :=
    List.takeWhile_eq_self_iff.2 fun c hc => by simpa using fun hmem => hnotMem c hmem hc
  have hscheme : Reference.splitScheme o.text = (some https, ['/', '/'] ++ o.authority) := by
    simp [text, https, Reference.splitScheme, List.span_eq_takeWhile_dropWhile]
  have hauthority : (Reference.splitAuthority (['/', '/'] ++ o.authority)).1 = some o.authority := by
    simp only [List.cons_append, List.nil_append, Reference.splitAuthority,
      List.span_eq_takeWhile_dropWhile, htake]
  have hparse : (Reference.parse o.text).scheme = some https ∧
      (Reference.parse o.text).authority = some o.authority := by
    simp only [Reference.parse, hscheme, hauthority, and_self]
  rw [Reference.URI.origin, hparse.1, hparse.2, triple, Option.map_some, Option.map_some,
    hostPort_authority]
  rfl

end Origin

end Origins

/-! ## What is admitted -/

section Admitted

variable {schema : StringSchema} {text : List Char}

/-- An admitted path is a slash and then characters that stand for themselves. -/
theorem eq_slash_of_admits (hschema : schema ∈ returnPathSchemas) (h : schema.admits text = true) :
    ∃ rest, text = '/' :: rest ∧ ∀ c ∈ rest, Js.isPlain c = true := by
  have hmem : utf16 text ∈ pathPattern.expression.matches' := by
    have hpattern : schema.pattern = some pathPattern := by
      fin_cases hschema <;> rfl
    simp only [StringSchema.admits, hpattern, Option.all_some, Bool.and_eq_true] at h
    exact finds_ecmaScript.1 h.2
  have hascii := ascii_of_utf16 (over_ascii pathPattern_ascii _ hmem)
  rw [utf16_map_toNat hascii] at hmem
  obtain ⟨u, hu, v, hv, heq⟩ := mem_matches_mul.1 hmem
  rw [mem_matches_char.1 hu] at heq
  cases text with
  | nil => cases heq
  | cons c rest =>
    obtain ⟨hc, rfl⟩ := List.cons.inj heq
    obtain rfl := Char.toNat_inj.1 hc
    refine ⟨rest, rfl, fun d hd => ?_⟩
    have hcode := mem_star_oneOf.1 hv _ (List.mem_map_of_mem hd)
    have hplain : ∀ n ∈ [('A', 'Z'), ('a', 'z'), ('0', '9'), ('_', '_'), ('.', '.'), ('/', '/'),
        ('?', '?'), ('=', '='), ('&', '&'), ('%', '%'), ('-', '-')].flatMap codes,
        Js.isPlain (Char.ofNat n) = true := by decide
    have := hplain _ hcode
    rwa [Char.ofNat_toNat] at this

end Admitted

/-! ## Where a return path leads -/

section Paths

variable {schema : StringSchema} {text : List Char}

/-- RFC 3986 resolves the text to a URI of the origin. -/
def StaysRfc (o : Origin) (text : List Char) : Prop :=
  (Reference.resolve o.text text).origin = o.triple

/-- The URL standard's parser makes a URL of the origin of it. -/
def StaysUrl (parser : Js.LocationParser) (o : Origin) (text : List Char) : Prop :=
  ∃ url, parser.parseWith o.location text = some url ∧ url.origin = o.location.origin

/-- The origin of a host with a name of one letter. -/
def named (c : Char) (h : isNameChar c = true) : Origin :=
  ⟨[c], none, .inl ⟨List.cons_ne_nil _ _, by simpa using h⟩⟩

theorem staysRfc_iff {rest : List Char} :
    (∀ o, StaysRfc o ('/' :: rest)) ↔ rest.head? ≠ some '/' := by
  refine ⟨fun h hslash => ?_, fun h o => ?_⟩
  · -- one authority is not two hosts
    obtain ⟨rest, rfl⟩ : ∃ rest', rest = '/' :: rest' := by
      cases rest with
      | nil => cases hslash
      | cons c rest => exact ⟨rest, by rw [Option.some.inj hslash]⟩
    have hhost : ∀ o : Origin, (Reference.resolve o.text ('/' :: '/' :: rest)).origin.2 =
        (some (rest.takeWhile fun c => c ∉ ['/', '?', '#'])).map fun authority =>
          ((Reference.hostPort authority).1.map Char.toLower,
            Reference.httpsPort (Reference.hostPort authority).2) := fun o => by
      rw [Reference.URI.origin, Reference.authority_resolve_slashes]
    have ha := congrArg Prod.snd (h (named 'a' rfl))
    have hb := congrArg Prod.snd (h (named 'b' rfl))
    rw [hhost] at ha hb
    exact absurd (ha.symm.trans hb) (by decide)
  · rw [StaysRfc, Reference.origin_resolve_slash h, o.origin_text]

theorem staysUrl_iff (parser : Js.LocationParser) {rest : List Char}
    (hplain : ∀ c ∈ rest, Js.isPlain c = true) :
    (∀ o, StaysUrl parser o ('/' :: rest)) ↔ rest.head? ≠ some '/' := by
  have hparse : ∀ o : Origin, parser.parseWith o.location ('/' :: rest) =
      Js.relativeSlash parser.parseHost o.location rest := fun o =>
    parser.parseWith_slash (by simp [Origin.location, Origin.https, Js.specialSchemes]) hplain
  refine ⟨fun h hslash => ?_, fun h o => ?_⟩
  · obtain ⟨rest, rfl⟩ : ∃ rest', rest = '/' :: rest' := by
      cases rest with
      | nil => cases hslash
      | cons c rest => exact ⟨rest, by rw [Option.some.inj hslash]⟩
    have hhost : ∀ o : Origin, parser.parseHost
        ((rest.dropWhile (· = '/')).takeWhile fun c => c ∉ ['/', '?']) = some o.host := fun o => by
      obtain ⟨url, hurl, horigin⟩ := h o
      rw [hparse] at hurl
      have hurlHost : url.host = o.host := congrArg (·.2.1) horigin
      rw [← hurlHost]
      exact Js.relativeSlash_host hurl
    have ha := hhost (named 'a' rfl)
    have hb := hhost (named 'b' rfl)
    exact absurd (Option.some.inj (ha.symm.trans hb)) (by decide)
  · exact ⟨_, (hparse o).trans (Js.relativeSlash_path h), Js.origin_withPath⟩

/-- The admitted paths that stay in every application: those without a second slash. -/
theorem stays_iff_second_character (hschema : schema ∈ returnPathSchemas)
    (h : schema.admits text = true) (parser : Js.LocationParser) :
    ((∀ o, StaysRfc o text) ↔ text[1]? ≠ some '/') ∧
      ((∀ o, StaysUrl parser o text) ↔ text[1]? ≠ some '/') := by
  obtain ⟨rest, rfl, hplain⟩ := eq_slash_of_admits hschema h
  rw [List.getElem?_cons_succ, ← List.head?_eq_getElem?]
  exact ⟨staysRfc_iff, staysUrl_iff parser hplain⟩

/-! ### Two slashes -/

theorem admits_slash {rest : List Char} (hlen : rest.length ≤ 1023)
    (hrest : ∀ n ∈ rest.map Char.toNat, n ∈ [('A', 'Z'), ('a', 'z'), ('0', '9'), ('_', '_'),
      ('.', '.'), ('/', '/'), ('?', '?'), ('=', '='), ('&', '&'), ('%', '%'), ('-', '-')].flatMap codes) :
    startIdentityOAuth.admits ('/' :: rest) = true := by
  have hmem : ('/' :: rest).map Char.toNat ∈ pathPattern.expression.matches' :=
    mem_matches_mul.2 ⟨[_], mem_matches_char.2 rfl, rest.map Char.toNat, mem_star_oneOf.2 hrest, rfl⟩
  have hascii : ∀ c ∈ '/' :: rest, c.toNat < 128 := fun c hc =>
    over_ascii pathPattern_ascii _ hmem _ (List.mem_map_of_mem hc)
  rw [← utf16_map_toNat hascii] at hmem
  simp only [StringSchema.admits, startIdentityOAuth, Option.all_some, Nat.zero_le, decide_true,
    Bool.true_and, Bool.and_eq_true, decide_eq_true_eq, List.length_cons]
  exact ⟨by omega, finds_ecmaScript.2 hmem⟩

/-- A host parser for names of lower-case letters, digits and dots. -/
def namesOnly : Js.LocationParser where
  parseHost host := if host.all fun c => c.isLower || c.isDigit || c = '.' then some host else none
  parseWith base text :=
    match text with
    | '/' :: text =>
      Js.relativeSlash
        (fun host => if host.all fun c => c.isLower || c.isDigit || c = '.' then some host else none)
        base text
    | _ => none
  parseWith_slash _ _ := rfl

/-- A path with a query stays. -/
theorem settings_stays :
    ((∀ o, StaysRfc o "/settings?tab=keys".toList) ↔ "/settings?tab=keys".toList[1]? ≠ some '/') ∧
      ((∀ o, StaysUrl namesOnly o "/settings?tab=keys".toList) ↔
        "/settings?tab=keys".toList[1]? ≠ some '/') :=
  stays_iff_second_character List.mem_cons_self
    (admits_slash (by decide) (by decide)) namesOnly

/-- `//evil.example` is admitted, and is another host's to both resolvers. -/
theorem not_stays :
    (¬ ∀ schema ∈ returnPathSchemas, ∀ text, schema.admits text = true → ∀ o, StaysRfc o text) ∧
      ¬ ∀ schema ∈ returnPathSchemas, ∀ text, schema.admits text = true →
        ∀ parser o, StaysUrl parser o text := by
  have hadmits : startIdentityOAuth.admits "//evil.example".toList = true :=
    admits_slash (by decide) (by decide)
  refine ⟨fun h => ?_, fun h => ?_⟩
  · have hstays := h _ List.mem_cons_self _ hadmits (named 'a' rfl)
    exact absurd (congrArg Prod.snd hstays) (by decide +kernel)
  · obtain ⟨url, hurl, horigin⟩ := h _ List.mem_cons_self _ hadmits namesOnly (named 'a' rfl)
    have hhost := @Js.relativeSlash_host _ _ _ "evil.example".toList hurl
    rw [show url.host = ['a'] from congrArg (·.2.1) horigin] at hhost
    exact absurd hhost (by decide)

end Paths

end Codegen.ReturnPaths
