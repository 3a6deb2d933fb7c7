import Jumpship.Proofs.FilledTemplates

/-!
# Where the Go client's requests go

`Do` stays below the base URL and in the template's segments exactly when no value is a dot segment
and `NewClient` keeps the base path.
-/

namespace Codegen.Requests

open Fallible UrlPath

/-! ## The Go client -/

section GoClient

/-- The segments of a path, the empty one behind a last slash left out. -/
def baseSegments (p : List UInt8) : List (List UInt8) :=
  let segs := (segments p).tail
  if segs.getLast? = some [] then segs.dropLast else segs

/-- The path has the base's segments and then exactly the template's. -/
def Follows (base : List (List UInt8)) (template : Template)
    (values : List (List UInt8 × List UInt8)) (path : List (List UInt8)) : Prop :=
  ∃ kept rest, path = kept ++ rest ∧
    List.Forall₂ (fun a b => decode? a = decode? b) base kept ∧
      List.Forall₂ (Fits values) template.segments rest

/-- The base paths that `NewClient` and `ResolveReference` keep: one that ends in a slash and is
valid is written again as it is, any other is unescaped and escaped again. -/
def KeepsPath (p : List UInt8) : Prop :=
  if [UrlPath.slash] <:+ p ∧ Go.validEncoded p = true then ∀ s ∈ baseSegments p, ¬ Go.IsDot s
  else ∀ s ∈ baseSegments p, ∀ d, decode? s = some d → UrlPath.slash ∉ d ∧ ¬ Go.IsDot d

theorem baseSegments_nil : baseSegments [] = [] := by decide

/-- An empty base path is kept. -/
theorem keepsPath_nil : KeepsPath [] := by
  simp [KeepsPath, baseSegments_nil]

theorem escapes_keepsSegment : Escapes Go.keepsSegment where
  percent := by decide
  slash := by decide
  openBrace := by decide
  closeBrace := by decide
  dot := by decide
  name b h := by
    simp only [isNameByte, Go.keepsSegment, Go.isUnreserved, Bool.or_eq_true, Bool.and_eq_true,
      decide_eq_true_eq, List.mem_cons, List.not_mem_nil, or_false] at h ⊢
    tauto

theorem validEncoded_of_names {s : List UInt8} (h : ∀ b ∈ s, isNameByte b = true) :
    Go.validEncoded s = true := by
  refine List.all_eq_true.2 fun b hb => ?_
  have hb := h b hb
  simp only [isNameByte, Go.keepsPath, Go.isUnreserved, Bool.or_eq_true, Bool.and_eq_true,
    decide_eq_true_eq, List.mem_cons, List.not_mem_nil, or_false] at hb ⊢
  tauto

theorem validEncoded_encode {keep : UInt8 → Bool} (hkeep : ∀ b, keep b = true → Go.keepsPath b = true)
    (s : List UInt8) : Go.validEncoded (encode keep s) = true := by
  refine List.all_eq_true.2 fun b hb => ?_
  rw [Bool.or_eq_true]
  rcases mem_encode hb with h | h | h | h
  · exact .inl (hkeep b h)
  · rw [h]
    exact .inr (by decide)
  · refine .inl ?_
    simp only [Go.keepsPath, Go.isUnreserved, Bool.or_eq_true, Bool.and_eq_true,
      decide_eq_true_eq, UInt8.le_iff_toNat_le]
    exact .inl (.inl (.inr h))
  · refine .inl ?_
    simp only [Go.keepsPath, Go.isUnreserved, Bool.or_eq_true, Bool.and_eq_true,
      decide_eq_true_eq, UInt8.le_iff_toNat_le]
    have h90 : b.toNat ≤ 90 := h.2.trans (by decide)
    exact .inl (.inl (.inl (.inr ⟨h.1, h90⟩)))

theorem validEncoded_absolute {segs : List (List UInt8)} :
    Go.validEncoded (absolute segs) = true ↔ ∀ s ∈ segs, Go.validEncoded s = true := by
  have hslash : Go.keepsPath UrlPath.slash = true := by decide
  simp only [Go.validEncoded, List.all_eq_true, absolute, List.mem_flatMap]
  refine ⟨fun h s hs b hb => h b ⟨s, hs, List.mem_cons_of_mem _ hb⟩, ?_⟩
  rintro h b ⟨s, hs, hb⟩
  rcases List.mem_cons.1 hb with rfl | hb
  · simp [hslash]
  · exact h s hs b hb

theorem exists_forall₂_decodes {segs : List (List UInt8)} (h : ∀ s ∈ segs, ∃ d, Decodes s d) :
    ∃ ds, List.Forall₂ Decodes segs ds := by
  induction segs with
  | nil => exact ⟨[], .nil⟩
  | cons s segs ih =>
    rw [List.forall_mem_cons] at h
    obtain ⟨d, hd⟩ := h.1
    obtain ⟨ds, hds⟩ := ih h.2
    exact ⟨d :: ds, .cons hd hds⟩

theorem exists_decodes_of_absolute {segs : List (List UInt8)} {t : List UInt8}
    (h : Decodes (absolute segs) t) : ∀ s ∈ segs, ∃ d, Decodes s d := by
  obtain ⟨ds, hds, -⟩ := decodes_absolute_iff.1 h
  induction hds generalizing t with
  | nil => simp
  | cons hd hds ih =>
    rintro s (_ | ⟨_, hs⟩)
    · exact ⟨_, hd⟩
    · exact ih (decodes_absolute_iff.2 ⟨_, hds, rfl⟩) s hs

theorem suffix_of_decodes {p path : List UInt8} (h : Decodes p path) (hp : [UrlPath.slash] <:+ p) :
    [UrlPath.slash] <:+ path := by
  obtain ⟨q, rfl⟩ := hp
  obtain ⟨u, u', -, hu', rfl⟩ := h.split
  cases hu'
  exact ⟨u, rfl⟩

variable {parseAuthority : List UInt8 → Option (Bool × List UInt8)} {baseURL : List UInt8}
  {client : Go.URL}

theorem newClient_spec (h : newClient parseAuthority baseURL = some client) :
    ∃ path, Decodes (Go.basePath baseURL) path ∧
      client.path = (if [UrlPath.slash] <:+ path then path else path ++ [UrlPath.slash]) ∧
        client.rawPath = (if Go.basePath baseURL = encode Go.keepsPath path then []
          else Go.basePath baseURL) := by
  obtain ⟨parsed, hparsed, h⟩ := Option.bind_eq_some_iff.1 h
  split_ifs at h with hbad hslash
  · obtain rfl := Option.some.inj h
    obtain ⟨path, hpath, hp, hraw⟩ := Go.parse_spec hparsed fun hh => hbad (.inr (.inl hh))
    rw [hp] at hslash
    exact ⟨path, hpath, by rw [if_pos hslash, hp], hraw⟩
  · obtain rfl := Option.some.inj h
    obtain ⟨path, hpath, hp, hraw⟩ := Go.parse_spec hparsed fun hh => hbad (.inr (.inl hh))
    rw [hp] at hslash
    exact ⟨path, hpath, by rw [if_neg hslash, hp], hraw⟩

/-- The path requests are resolved against: the base's spelling, or its text escaped anew. -/
theorem escapedPath_client (h : newClient parseAuthority baseURL = some client) :
    ∃ path, Decodes (Go.basePath baseURL) path ∧
      client.path = (if [UrlPath.slash] <:+ path then path else path ++ [UrlPath.slash]) ∧
        ((client.escapedPath = Go.basePath baseURL ∧ Go.validEncoded (Go.basePath baseURL) = true ∧
            [UrlPath.slash] <:+ path) ∨
          ¬ ([UrlPath.slash] <:+ Go.basePath baseURL ∧
              Go.validEncoded (Go.basePath baseURL) = true) ∧
            client.escapedPath = encode Go.keepsPath client.path) := by
  obtain ⟨path, hpath, hp, hraw⟩ := newClient_spec h
  have hslash : [UrlPath.slash] <:+ client.path := by
    rw [hp]
    split_ifs with hs
    · exact hs
    · exact List.suffix_append _ _
  have hstar : client.path ≠ [0x2A] := by
    intro hstar
    rw [hstar] at hslash
    exact absurd hslash (by decide)
  refine ⟨path, hpath, hp, ?_⟩
  by_cases hkept : [UrlPath.slash] <:+ Go.basePath baseURL ∧
      Go.validEncoded (Go.basePath baseURL) = true
  · have hs := suffix_of_decodes hpath hkept.1
    refine .inl ⟨?_, hkept.2, hs⟩
    rw [if_pos hs] at hp
    have hne : Go.basePath baseURL ≠ [] := by
      intro hnil
      rw [hnil] at hkept
      exact absurd hkept.1 (by decide)
    have hclient : client = { client with path, rawPath := client.rawPath } := by rw [← hp]
    rw [hclient, hraw]
    exact Go.escapedPath_setPath hpath hkept.2 hne (hp ▸ hstar)
  · by_cases hvalid : client.rawPath ≠ [] ∧ Go.validEncoded client.rawPath = true ∧
        Go.unescape client.rawPath = some client.path
    · have hrawPath : client.rawPath = Go.basePath baseURL := by
        rw [hraw]
        refine if_neg fun henc => hvalid.1 ?_
        rw [hraw, if_pos henc]
      have hsame : path = client.path := by
        have hdec := decode?_eq_some_iff.1 hvalid.2.2
        rw [hrawPath] at hdec
        exact hpath.unique hdec
      refine .inl ⟨?_, hrawPath ▸ hvalid.2.1, hsame ▸ hslash⟩
      rw [Go.URL.escapedPath, if_pos hvalid, hrawPath]
    · refine .inr ⟨hkept, ?_⟩
      rw [Go.URL.escapedPath, if_neg hvalid, if_neg hstar]

theorem byte_of_validEncoded {s : List UInt8} (h : Go.validEncoded s = true) :
    ∀ b ∈ s, Go.isControl b = false ∧ b ≠ 0x23 ∧ b ≠ 0x3F := by
  intro b hb
  have hb := List.all_eq_true.1 h b hb
  refine ⟨?_, ?_, ?_⟩
  · by_contra hc
    rw [Bool.not_eq_false] at hc
    simp only [Go.isControl, Bool.or_eq_true, decide_eq_true_eq, UInt8.lt_iff_toNat_lt,
      ← UInt8.toNat_inj, UInt8.reduceToNat] at hc
    simp only [Go.keepsPath, Go.isUnreserved, Bool.or_eq_true, Bool.and_eq_true, decide_eq_true_eq,
      List.mem_cons, List.not_mem_nil, or_false, UInt8.le_iff_toNat_le, ← UInt8.toNat_inj,
      UInt8.reduceToNat] at hb
    omega
  · rintro rfl
    exact absurd hb (by decide)
  · rintro rfl
    exact absurd hb (by decide)

/-- The base's path, its segments and a relative path in place of the last. -/
theorem fullPath_eq {segs elems : List (List UInt8)} {b : UInt8} {l : List UInt8} (hne : segs ≠ [])
    (h : ∀ s ∈ segs, UrlPath.slash ∉ s) (hb : b ≠ UrlPath.slash) :
    Go.fullPath (absolute segs) (b :: l ++ absolute elems)
      = absolute (segs.dropLast ++ (b :: l) :: elems) := by
  have hmem : UrlPath.slash ∈ absolute segs := by
    obtain ⟨s, segs, rfl⟩ := List.exists_cons_of_ne_nil hne
    simp
  have hprefix : ¬ [UrlPath.slash] <+: b :: l ++ absolute elems := by
    rintro ⟨u, hu⟩
    exact hb (List.cons.inj hu).1.symm
  have hbefore : Go.beforeLastSlash (absolute segs) = absolute segs.dropLast := by
    rw [Go.beforeLastSlash, segments_absolute h, List.dropLast_cons_of_ne_nil hne, intercalate_cons]
    rfl
  rw [Go.fullPath, if_neg (by simp), if_neg hprefix, if_pos hmem, hbefore, absolute_append,
    absolute_cons]

theorem filled_decodes {template : Template} {values : List (List UInt8 × List UInt8)}
    (h : Assigns template values) :
    ∀ t ∈ filled Go.keepsSegment template values, ∃ d, Decodes t d := by
  intro t ht
  obtain ⟨l, hl, rfl⟩ | ⟨p, -, rfl⟩ := mem_filled h ht
  · refine ⟨t, decode?_eq_some_iff.1 (decode?_eq_self fun hp => ?_)⟩
    exact (isNameByte_iff ((template.names _ hl).2 _ hp)).2.1 rfl
  · exact ⟨_, Go.decodes_encode (by decide) _⟩

theorem validEncoded_filled {template : Template} {values : List (List UInt8 × List UInt8)}
    (h : Assigns template values) :
    ∀ t ∈ filled Go.keepsSegment template values, Go.validEncoded t = true := by
  intro t ht
  obtain ⟨l, hl, rfl⟩ | ⟨p, -, rfl⟩ := mem_filled h ht
  · exact validEncoded_of_names (template.names _ hl).2
  · refine validEncoded_encode (fun b hb => ?_) _
    simp only [Go.keepsSegment, Go.keepsPath, Bool.or_eq_true, decide_eq_true_eq, List.mem_cons,
      List.not_mem_nil, or_false] at hb ⊢
    tauto

theorem trimSlash_absolute (s : List UInt8) (segs : List (List UInt8)) :
    trimSlash (absolute (s :: segs)) = s ++ absolute segs := by
  rw [absolute_cons, trimSlash, if_pos rfl]

/-- The path of a request: the resolved segments of the base and of the filled template. -/
theorem requestURL_spec (hclient : newClient parseAuthority baseURL = some client)
    {template : Template} {values : List (List UInt8 × List UInt8)} (h : Assigns template values)
    (query : List UInt8) {segs : List (List UInt8)} (hsegs : client.escapedPath = absolute segs)
    (hne : segs ≠ []) (hslash : ∀ s ∈ segs, UrlPath.slash ∉ s) :
    ∃ url, requestURL parseAuthority client template values query = some url ∧
      url.escapedPath
        = absolute (Go.resolved (segs.dropLast ++ filled Go.keepsSegment template values)) := by
  obtain ⟨b, l, rest, hfilled, hname⟩ := filled_ne_nil Go.keepsSegment template values
  have hplain := plain_filled escapes_keepsSegment h
  have hvalid := validEncoded_filled h
  have hdecodes := filled_decodes h
  have hnoslash := slash_notMem_filled escapes_keepsSegment h
  have hrender := render_eq escapes_keepsSegment h
  rw [hfilled] at hplain hvalid hdecodes hnoslash hrender ⊢
  have hb := isNameByte_iff (hname b List.mem_cons_self)
  have hbrace : (absolute ((b :: l) :: rest)).any isBrace = false := by
    rw [List.any_eq_false]
    intro c hc
    obtain ⟨t, ht, hc⟩ := List.mem_flatMap.1 hc
    rcases List.mem_cons.1 hc with rfl | hc
    · decide
    · simp [isBrace, (hplain t ht c hc).1, (hplain t ht c hc).2]
  have hvalidAll := validEncoded_absolute.2 hvalid
  obtain ⟨d, hd⟩ := hdecodes _ List.mem_cons_self
  obtain ⟨ds, hds⟩ := exists_forall₂_decodes fun t ht => hdecodes t (List.mem_cons_of_mem _ ht)
  obtain ⟨path, hpath⟩ : ∃ path, Decodes (b :: l ++ absolute rest) path :=
    ⟨_, hd.append (decodes_absolute_iff.2 ⟨ds, hds, rfl⟩)⟩
  obtain ⟨path', rfl⟩ := hpath.exists_cons hb.2.1
  have hstar : b ≠ 0x2A := by
    rintro rfl
    exact absurd (hname _ List.mem_cons_self) (by decide)
  have hvalidRef : Go.validEncoded (b :: l ++ absolute rest) = true := by
    rw [Go.validEncoded, absolute_cons, List.all_cons, Bool.and_eq_true] at hvalidAll
    exact hvalidAll.2
  have hparse : Go.parse parseAuthority (b :: l ++ absolute rest) =
      some { path := b :: path', rawPath := if b :: l ++ absolute rest = encode Go.keepsPath (b :: path')
        then [] else b :: l ++ absolute rest } := by
    refine Go.parse_relative (by simp) ?_ ?_ ?_ (byte_of_validEncoded hvalidRef) hpath
    · intro c hc
      refine ⟨?_, (isNameByte_iff (hname c hc)).1⟩
      rintro rfl
      exact absurd (hname _ hc) (by decide)
    · rcases rest with _ | ⟨t, rest⟩
      · exact .inl rfl
      · exact .inr ⟨_, rfl⟩
    · intro heq
      exact hstar (List.cons.inj heq).1
  have hresolved : ∀ s ∈ Go.resolved (segs.dropLast ++ (b :: l) :: rest),
      s = [] ∨ s ∈ segs ∨ s ∈ (b :: l) :: rest := by
    intro s hs
    rcases Go.mem_resolved hs with hs | ⟨hs, -⟩
    · exact .inl hs
    · rcases List.mem_append.1 hs with hs | hs
      · exact .inr (.inl (List.mem_of_mem_dropLast hs))
      · exact .inr (.inr hs)
  obtain ⟨p₀, hp₀, -, hcases⟩ := escapedPath_client hclient
  have hbase : Go.validEncoded (absolute segs) = true ∧ ∃ t, Decodes (absolute segs) t := by
    rw [← hsegs]
    obtain ⟨hsame, hv, -⟩ | ⟨-, henc⟩ := hcases
    · rw [hsame]
      exact ⟨hv, _, hp₀⟩
    · rw [henc]
      exact ⟨validEncoded_encode (fun _ hb => hb) _, _, Go.decodes_encode (by decide) _⟩
  have hsegsDecode := exists_decodes_of_absolute hbase.2.choose_spec
  have hsegsValid := validEncoded_absolute.1 hbase.1
  obtain ⟨rs, hrs⟩ : ∃ rs, List.Forall₂ Decodes
      (Go.resolved (segs.dropLast ++ (b :: l) :: rest)) rs := by
    refine exists_forall₂_decodes fun s hs => ?_
    rcases hresolved s hs with rfl | hs | hs
    · exact ⟨[], .nil⟩
    · exact hsegsDecode s hs
    · exact hdecodes s hs
  have hresult : Decodes (absolute (Go.resolved (segs.dropLast ++ (b :: l) :: rest))) (absolute rs) :=
    decodes_absolute_iff.2 ⟨rs, hrs, rfl⟩
  have hresultValid := validEncoded_absolute.2 fun s hs => by
    rcases hresolved s hs with rfl | hs | hs
    · rfl
    · exact hsegsValid s hs
    · exact hvalid s hs
  have hrequest : requestURL parseAuthority client template values query = some (client.resolveReference
      { path := b :: path', rawQuery := query,
        rawPath := if b :: l ++ absolute rest = encode Go.keepsPath (b :: path') then []
          else b :: l ++ absolute rest }) := by
    unfold requestURL Go.pathEscape
    rw [hrender]
    simp only [hbrace, Bool.false_eq_true, if_false]
    rw [trimSlash_absolute, hparse]
    rfl
  have href : Go.URL.escapedPath
      { path := b :: path', rawQuery := query,
        rawPath := if b :: l ++ absolute rest = encode Go.keepsPath (b :: path') then []
          else b :: l ++ absolute rest } = b :: l ++ absolute rest :=
    @Go.escapedPath_setPath { rawQuery := query } _ _ hpath hvalidRef (by simp) fun heq =>
      hstar (List.cons.inj heq).1
  have hjoined : ∀ s ∈ segs.dropLast ++ (b :: l) :: rest, UrlPath.slash ∉ s := by
    intro s hs
    rcases List.mem_append.1 hs with hs | hs
    · exact hslash s (List.mem_of_mem_dropLast hs)
    · exact hnoslash s hs
  have hresultNe : ∃ r r', Go.resolved (segs.dropLast ++ (b :: l) :: rest) = r :: r' :=
    List.exists_cons_of_ne_nil (Go.resolved_ne_nil _)
  obtain ⟨r, r', hr⟩ := hresultNe
  have hrsNe : absolute rs ≠ [0x2A] := by
    rw [hr] at hrs
    cases hrs with
    | cons _ _ =>
      intro heq
      exact absurd (List.cons.inj heq).1 (by decide)
  rw [Go.resolveReference_relative _ (by simp), href, hsegs,
    Go.resolvePath_eq (fullPath_eq hne hslash hb.1) (by simp) hjoined] at hrequest
  refine ⟨_, hrequest, ?_⟩
  rw [Go.URL.setResolved, Go.setPath_eq hresult, Option.getD_some]
  refine Go.escapedPath_setPath hresult hresultValid ?_ hrsNe
  rw [hr]
  simp

/-! ### Which requests stay in place -/

section Follows

variable {template : Template} {values : List (List UInt8 × List UInt8)}
  {base kept : List (List UInt8)}

theorem forall₂_concat {α β : Type} {R : α → β → Prop} {a : List α} {x : α} {l : List β}
    (h : List.Forall₂ R (a ++ [x]) l) : ∃ b y, l = b ++ [y] ∧ List.Forall₂ R a b ∧ R x y := by
  induction a generalizing l with
  | nil =>
    cases h with
    | cons hx h =>
      cases h
      exact ⟨[], _, rfl, .nil, hx⟩
  | cons z a ih =>
    cases h with
    | cons hz h =>
      obtain ⟨b, y, rfl, hab, hxy⟩ := ih h
      exact ⟨_ :: b, y, rfl, .cons hz hab, hxy⟩

theorem length_of_follows (hf : Follows base template values
    (Go.resolved (kept ++ filled Go.keepsSegment template values))) :
    (Go.resolved (kept ++ filled Go.keepsSegment template values)).length
      = base.length + (filled Go.keepsSegment template values).length := by
  obtain ⟨front, rest, heq, hfront, hrest⟩ := hf
  rw [heq, List.length_append, ← hfront.length_eq, ← hrest.length_eq, filled, List.length_map]

theorem exists_filled_eq (template : Template) (values : List (List UInt8 × List UInt8)) :
    ∃ init last, filled Go.keepsSegment template values = init ++ [last] := by
  obtain ⟨b, l, rest, h, -⟩ := filled_ne_nil Go.keepsSegment template values
  rcases List.eq_nil_or_concat' (filled Go.keepsSegment template values) with hnil | h'
  · rw [h] at hnil
    cases hnil
  · exact h'

/-- Segments that the path does not keep are missed in the request. -/
theorem not_follows_of_lt (h : kept.length < base.length) : ¬ Follows base template values
    (Go.resolved (kept ++ filled Go.keepsSegment template values)) := by
  intro hf
  have hlen := length_of_follows hf
  obtain ⟨init, last, hfilled⟩ := exists_filled_eq template values
  have hle := Go.length_resolved_le (kept ++ init) last
  have hcount : ((kept ++ init).countP fun s => ¬ Go.IsDot s) ≤ (kept ++ init).length :=
    List.countP_le_length
  rw [hfilled, List.length_append, List.length_singleton, ← List.append_assoc] at hlen
  rw [List.length_append] at hcount
  omega

/-- A path kept as it is spelled loses its dot segments, and the request those of the values. -/
theorem follows_iff_of_kept (h : Assigns template values) :
    Follows base template values (Go.resolved (base ++ filled Go.keepsSegment template values)) ↔
      (∀ p ∈ values, ¬ Go.IsDot p.2) ∧ ∀ s ∈ base, ¬ Go.IsDot s := by
  rw [← not_isDot_filled_iff escapes_keepsSegment h]
  refine ⟨fun hf => ?_, fun ⟨hvalues, hbase⟩ => ?_⟩
  · have hlen := length_of_follows hf
    obtain ⟨init, last, hfilled⟩ := exists_filled_eq template values
    rw [hfilled, List.length_append, List.length_singleton, ← List.append_assoc] at hlen
    have hinit : ∀ s ∈ base ++ init, ¬ Go.IsDot s := by
      refine Go.not_isDot_of_length_resolved (hlen.symm.le.trans' ?_)
      rw [List.length_append]
      omega
    have hlast : ¬ Go.IsDot last := by
      intro hdot
      -- a dot segment at the end leaves an empty segment, which is no value that is one
      have hend : (Go.resolved (base ++ init ++ [last])).getLast? = some [] :=
        Go.getLast?_resolved (by rw [Go.endsInDot_append_singleton, decide_eq_true hdot])
      obtain ⟨front, rest, heq, -, hrest⟩ := hf
      rw [hfilled, ← List.append_assoc] at heq
      obtain ⟨sinit, l₂, hsegs, -, hl₂⟩ := List.map_eq_append_iff.1 hfilled
      obtain ⟨s, rfl, hs⟩ := List.map_eq_singleton_iff.1 hl₂
      rw [hsegs] at hrest
      obtain ⟨rinit, r, rfl, -, hr⟩ := forall₂_concat hrest
      rw [heq, ← List.append_assoc, List.getLast?_concat, Option.some.injEq] at hend
      subst hend
      have hmem : s ∈ template.segments := by simp [hsegs]
      obtain ⟨l, rfl, hl⟩ | ⟨n, v, rfl, hv, ht⟩ := filled_segment h hmem
      · exact (template.names _ hmem).1 hr.symm
      · obtain ⟨v', hv', hdec⟩ := hr
        rw [(lookup_eq_some_iff h.nodup).2 hv] at hv'
        obtain rfl : v = [] := (Option.some.inj hv').trans (Option.some.inj hdec).symm
        rw [← hs, ht] at hdot
        rcases hdot with hdot | hdot <;> cases hdot
    refine ⟨fun t ht => ?_, fun s hs => hinit s (List.mem_append_left _ hs)⟩
    rw [hfilled] at ht
    rcases List.mem_append.1 ht with ht | ht
    · exact hinit t (List.mem_append_right _ ht)
    · rwa [List.mem_singleton.1 ht]
  · have hall : ∀ s ∈ base ++ filled Go.keepsSegment template values, ¬ Go.IsDot s := by
      intro s hs
      rcases List.mem_append.1 hs with hs | hs
      · exact hbase s hs
      · exact hvalues s hs
    obtain ⟨b, l, rest, hfilled, -⟩ := filled_ne_nil Go.keepsSegment template values
    rw [Go.resolved_of_not_isDot (by simp [hfilled]) hall]
    exact ⟨base, _, rfl, List.forall₂_same.2 fun _ _ => rfl, fits_filled escapes_keepsSegment h⟩

/-- In a path that was escaped anew no segment is read as a dot segment or with a slash. -/
theorem read_of_follows_encoded (h : Assigns template values) {ds : List (List UInt8)}
    (hds : ∀ d ∈ ds, UrlPath.slash ∉ d)
    (hf : Follows base template values
      (Go.resolved (ds.map (encode Go.keepsPath) ++ filled Go.keepsSegment template values))) :
    (∀ p ∈ values, ¬ Go.IsDot p.2) ∧
      ∀ s ∈ base, ∀ d, decode? s = some d → UrlPath.slash ∉ d ∧ ¬ Go.IsDot d := by
  have hread : ∀ t ∈ ds.map (encode Go.keepsPath), ¬ Go.IsDot t → ∀ v, decode? t = some v →
      UrlPath.slash ∉ v ∧ ¬ Go.IsDot v := by
    intro t ht hdot v hv
    obtain ⟨d, hd, rfl⟩ := List.mem_map.1 ht
    rw [decode?_encode (by decide), Option.some.injEq] at hv
    subst hv
    exact ⟨hds d hd, fun hd => hdot ((Go.isDot_encode_iff (by decide) (by decide)).2 hd)⟩
  have hnil : ∀ v, decode? [] = some v → UrlPath.slash ∉ v ∧ ¬ Go.IsDot v := by
    intro v hv
    obtain rfl := Option.some.inj hv
    exact ⟨by simp, by decide⟩
  have hvalues : ∀ p ∈ values, ¬ Go.IsDot p.2 := by
    obtain ⟨front, rest, heq, -, hrest⟩ := hf
    refine not_isDot_of_fits h hrest fun t ht v hv => ?_
    rcases Go.mem_resolved (heq ▸ List.mem_append_right front ht) with rfl | ⟨ht, hdot⟩
    · exact (hnil v hv).2
    · rcases List.mem_append.1 ht with ht | ht
      · exact (hread t ht hdot v hv).2
      · obtain ⟨l, hl, rfl⟩ | ⟨p, -, rfl⟩ := mem_filled h ht
        · have hplain : decode? t = some t := decode?_eq_self fun hp =>
            (isNameByte_iff ((template.names _ hl).2 _ hp)).2.1 rfl
          rw [hplain, Option.some.injEq] at hv
          exact hv ▸ hdot
        · rw [decode?_encode (by decide), Option.some.injEq] at hv
          subst hv
          exact fun hd => hdot ((Go.isDot_encode_iff (by decide) (by decide)).2 hd)
  refine ⟨hvalues, ?_⟩
  have hfilled := (not_isDot_filled_iff escapes_keepsSegment h).2 hvalues
  obtain ⟨b, l, rest', hcons, -⟩ := filled_ne_nil Go.keepsSegment template values
  have hlen := length_of_follows hf
  obtain ⟨front, rest, heq, hfront, hrest⟩ := hf
  rw [hcons] at hfilled hlen heq
  obtain ⟨kept, hkept, hmem⟩ := Go.resolved_append (ds.map (encode Go.keepsPath))
    (List.cons_ne_nil b l) hfilled
  rw [hkept] at heq hlen
  have hsame : kept = front := by
    refine (List.append_inj heq ?_).1
    rw [← hfront.length_eq]
    simpa using hlen
  subst hsame
  intro s hs d hd
  obtain ⟨k, hk, hsk⟩ := exists_of_forall₂ hfront s hs
  rw [hsk] at hd
  rcases hmem k hk with rfl | ⟨hk, hdot⟩
  · exact hnil d hd
  · exact hread k hk hdot d hd

theorem follows_of_encoded (h : Assigns template values) {ds : List (List UInt8)}
    (hbase : List.Forall₂ Decodes base ds) (hds : ∀ d ∈ ds, ¬ Go.IsDot d)
    (hvalues : ∀ p ∈ values, ¬ Go.IsDot p.2) :
    Follows base template values
      (Go.resolved (ds.map (encode Go.keepsPath) ++ filled Go.keepsSegment template values)) := by
  have hall : ∀ s ∈ ds.map (encode Go.keepsPath) ++ filled Go.keepsSegment template values,
      ¬ Go.IsDot s := by
    intro s hs
    rcases List.mem_append.1 hs with hs | hs
    · obtain ⟨d, hd, rfl⟩ := List.mem_map.1 hs
      exact fun hdot => hds d hd ((Go.isDot_encode_iff (by decide) (by decide)).1 hdot)
    · exact (not_isDot_filled_iff escapes_keepsSegment h).2 hvalues s hs
  obtain ⟨b, l, rest, hfilled, -⟩ := filled_ne_nil Go.keepsSegment template values
  rw [Go.resolved_of_not_isDot (by simp [hfilled]) hall]
  refine ⟨_, _, rfl, ?_, fits_filled escapes_keepsSegment h⟩
  rw [List.forall₂_map_right_iff]
  refine hbase.imp fun s d hsd => ?_
  rw [decode?_eq_some_iff.2 hsd, decode?_encode (by decide)]

end Follows

theorem suffix_iff_of_last {u last : List UInt8} (h : UrlPath.slash ∉ last) :
    [UrlPath.slash] <:+ u ++ UrlPath.slash :: last ↔ last = [] := by
  refine ⟨?_, ?_⟩
  · rintro ⟨q, hq⟩
    rcases List.eq_nil_or_concat' last with hnil | ⟨l, c, rfl⟩
    · exact hnil
    · rw [← List.cons_append, ← List.append_assoc] at hq
      have hend := congrArg List.getLast? hq
      rw [List.getLast?_concat, List.getLast?_concat, Option.some.injEq] at hend
      rw [hend] at h
      exact absurd (List.mem_append_right _ (List.mem_singleton_self c)) h
  · rintro rfl
    exact List.suffix_append _ _

theorem suffix_absolute_iff {segs : List (List UInt8)} (h : ∀ s ∈ segs, UrlPath.slash ∉ s)
    (hne : segs ≠ []) : [UrlPath.slash] <:+ absolute segs ↔ segs.getLast? = some [] := by
  obtain ⟨init, last, rfl⟩ := (List.eq_nil_or_concat' segs).resolve_left hne
  rw [List.getLast?_concat, Option.some.injEq, absolute_append, absolute_cons, absolute_nil,
    List.append_nil, suffix_iff_of_last (h last (by simp))]

theorem baseSegments_absolute {segs : List (List UInt8)} (h : ∀ s ∈ segs, UrlPath.slash ∉ s) :
    baseSegments (absolute segs) = if segs.getLast? = some [] then segs.dropLast else segs := by
  rw [baseSegments, segments_absolute h]
  rfl

theorem absolute_injective {segs segs' : List (List UInt8)} (h : ∀ s ∈ segs, UrlPath.slash ∉ s)
    (h' : ∀ s ∈ segs', UrlPath.slash ∉ s) (heq : absolute segs = absolute segs') : segs = segs' := by
  have hsegs := congrArg segments heq
  rw [segments_absolute h, segments_absolute h'] at hsegs
  exact List.tail_eq_of_cons_eq hsegs

theorem forall₂_decodes_unique {segs ds ds' : List (List UInt8)} (h : List.Forall₂ Decodes segs ds)
    (h' : List.Forall₂ Decodes segs ds') : ds = ds' := by
  induction h generalizing ds' with
  | nil =>
    cases h'
    rfl
  | cons hd _ ih =>
    cases h' with
    | cons hd' h' => rw [hd.unique hd', ih h']

theorem mem_of_mem_baseSegments {s : List UInt8} {segs : List (List UInt8)}
    (h : ∀ s ∈ segs, UrlPath.slash ∉ s) (hs : s ∈ baseSegments (absolute segs)) : s ∈ segs := by
  rw [baseSegments_absolute h] at hs
  split_ifs at hs
  · exact List.mem_of_mem_dropLast hs
  · exact hs

theorem exists_decodes_baseSegments {path : List UInt8} (hpath : Decodes (Go.basePath baseURL) path) :
    ∀ s ∈ baseSegments (Go.basePath baseURL), ∃ d, Decodes s d := by
  intro s hs
  obtain hp | ⟨q, hp⟩ := Go.basePath_eq baseURL
  · rw [hp] at hs
    cases hs
  · obtain ⟨segs, -, hslash, hq⟩ := exists_absolute q
    rw [hp, hq] at hpath hs
    exact exists_decodes_of_absolute hpath s (mem_of_mem_baseSegments hslash hs)

/-- A base path that is escaped anew, in the segments it is read as. -/
theorem client_path_of_read {path : List UInt8} {ds : List (List UInt8)}
    (hpath : Decodes (Go.basePath baseURL) path)
    (hbase : List.Forall₂ Decodes (baseSegments (Go.basePath baseURL)) ds)
    (hds : ∀ d ∈ ds, UrlPath.slash ∉ d) :
    (if [UrlPath.slash] <:+ path then path else path ++ [UrlPath.slash])
      = absolute (ds ++ [[]]) := by
  obtain hp | ⟨q, hp⟩ := Go.basePath_eq baseURL
  · rw [hp] at hpath hbase
    cases hpath
    rw [baseSegments_nil] at hbase
    cases hbase
    rfl
  · obtain ⟨segs, hne, hslash, hq⟩ := exists_absolute q
    rw [hp, hq] at hpath hbase
    rw [baseSegments_absolute hslash] at hbase
    obtain ⟨ds', hds', rfl⟩ := decodes_absolute_iff.1 hpath
    split_ifs at hbase with hlast
    · obtain ⟨init, rfl⟩ := List.getLast?_eq_some_iff.1 hlast
      obtain ⟨front, y, rfl, hfront, hy⟩ := forall₂_concat hds'
      rw [List.dropLast_concat] at hbase
      obtain rfl := forall₂_decodes_unique hbase hfront
      cases hy
      rw [if_pos]
      rw [absolute_append]
      exact List.suffix_append _ _
    · obtain rfl := forall₂_decodes_unique hbase hds'
      have hne' : ds ≠ [] := by
        rintro rfl
        cases hbase
        exact hne rfl
      rw [if_neg, absolute_append]
      · rfl
      · rw [suffix_absolute_iff hds hne']
        intro hend
        obtain ⟨front, rfl⟩ := List.getLast?_eq_some_iff.1 hend
        obtain ⟨init, s, rfl, -, hs⟩ := forall₂_concat hbase.flip
        rw [Decodes.eq_nil hs] at hlast
        exact hlast List.getLast?_concat

variable {template : Template} {values : List (List UInt8 × List UInt8)} {query : List UInt8}

theorem exists_client_path {path : List UInt8} (hpath : Decodes (Go.basePath baseURL) path)
    (hclient : client.path = if [UrlPath.slash] <:+ path then path else path ++ [UrlPath.slash]) :
    ∃ q, client.path = UrlPath.slash :: q := by
  obtain hp | ⟨q, hp⟩ := Go.basePath_eq baseURL
  · rw [hp] at hpath
    cases hpath
    exact ⟨[], hclient⟩
  · rw [hp] at hpath
    obtain ⟨q', rfl⟩ := hpath.exists_cons (by decide)
    split_ifs at hclient
    · exact ⟨q', hclient⟩
    · exact ⟨q' ++ [UrlPath.slash], hclient⟩

/-- Where the base is kept, and what a request has of it and of the template. -/
theorem follows_iff (hclient : newClient parseAuthority baseURL = some client)
    (h : Assigns template values) {segs : List (List UInt8)}
    (hsegs : client.escapedPath = absolute segs) (hslash : ∀ s ∈ segs, UrlPath.slash ∉ s)
    (hne : segs ≠ []) :
    Follows (baseSegments (Go.basePath baseURL)) template values
        (Go.resolved (segs.dropLast ++ filled Go.keepsSegment template values)) ↔
      (∀ p ∈ values, ¬ Go.IsDot p.2) ∧ KeepsPath (Go.basePath baseURL) := by
  obtain ⟨path, hpath, hclientPath, hcases⟩ := escapedPath_client hclient
  rw [KeepsPath]
  obtain ⟨hsame, hvalid, hpathSlash⟩ | ⟨hkept, henc⟩ := hcases
  · rw [hsame] at hsegs
    have hbase := baseSegments_absolute hslash
    rw [← hsegs] at hbase
    by_cases hend : [UrlPath.slash] <:+ Go.basePath baseURL
    · rw [if_pos ⟨hend, hvalid⟩]
      rw [hsegs, suffix_absolute_iff hslash hne] at hend
      rw [hbase, if_pos hend]
      exact follows_iff_of_kept h
    · rw [if_neg fun hk => hend hk.1]
      rw [hsegs, suffix_absolute_iff hslash hne] at hend
      rw [if_neg hend] at hbase
      refine iff_of_false (not_follows_of_lt ?_) fun ⟨_, hread⟩ => ?_
      · rw [hbase, List.length_dropLast]
        have := List.length_pos_iff.2 hne
        omega
      · -- the last segment hides the slash that the path ends in
        rw [hsegs] at hpath
        obtain ⟨ds, hds, rfl⟩ := decodes_absolute_iff.1 hpath
        obtain ⟨init, last, rfl⟩ := (List.eq_nil_or_concat' segs).resolve_left hne
        obtain ⟨front, y, rfl, -, hy⟩ := forall₂_concat hds
        have hread := (hread last (by simp [hbase]) y (decode?_eq_some_iff.2 hy)).1
        rw [absolute_append, absolute_cons, absolute_nil, List.append_nil,
          suffix_iff_of_last hread] at hpathSlash
        subst hpathSlash
        rw [hy.eq_nil] at hend
        exact hend List.getLast?_concat
  · rw [if_neg hkept]
    obtain ⟨q, hq⟩ := exists_client_path hpath hclientPath
    obtain ⟨ds, hdsNe, hds, hqds⟩ := exists_absolute q
    rw [hq, hqds] at henc hclientPath
    have hsegsEq : segs = ds.map (encode Go.keepsPath) := by
      rw [hsegs, Go.encode_absolute (by decide)] at henc
      refine absolute_injective hslash ?_ henc
      intro s hs
      obtain ⟨d, hd, rfl⟩ := List.mem_map.1 hs
      exact Go.slash_notMem_encode (.inr (hds d hd))
    rw [hsegsEq, ← List.map_dropLast]
    refine ⟨read_of_follows_encoded h fun d hd => hds d (List.mem_of_mem_dropLast hd),
      fun ⟨hvalues, hread⟩ => ?_⟩
    obtain ⟨bs, hbs⟩ := exists_forall₂_decodes (exists_decodes_baseSegments hpath)
    have hbsRead : ∀ d ∈ bs, UrlPath.slash ∉ d ∧ ¬ Go.IsDot d := by
      intro d hd
      obtain ⟨s, hs, hsd⟩ := exists_of_forall₂ hbs.flip d hd
      exact hread s hs d (decode?_eq_some_iff.2 hsd)
    have hpathBase := client_path_of_read hpath hbs fun d hd => (hbsRead d hd).1
    rw [hpathBase] at hclientPath
    obtain rfl : ds = bs ++ [[]] := by
      refine absolute_injective hds (fun s hs => ?_) hclientPath
      rcases List.mem_append.1 hs with hs | hs
      · exact (hbsRead s hs).1
      · simp [List.mem_singleton.1 hs]
    rw [List.dropLast_concat]
    exact follows_of_encoded h hbs (fun d hd => (hbsRead d hd).2) hvalues

theorem escapedPath_eq_absolute (hclient : newClient parseAuthority baseURL = some client) :
    ∃ segs, client.escapedPath = absolute segs ∧ segs ≠ [] ∧ ∀ s ∈ segs, UrlPath.slash ∉ s := by
  have hslash : ∃ q, client.escapedPath = UrlPath.slash :: q := by
    obtain ⟨path, hpath, hclientPath, ⟨hsame, -, hend⟩ | ⟨-, henc⟩⟩ := escapedPath_client hclient
    · rw [hsame]
      refine (Go.basePath_eq baseURL).resolve_left fun hp => ?_
      rw [hp] at hpath
      cases hpath
      exact absurd hend (by decide)
    · obtain ⟨q, hq⟩ := exists_client_path hpath hclientPath
      rw [henc, hq]
      exact ⟨encode Go.keepsPath q, rfl⟩
  obtain ⟨q, hq⟩ := hslash
  obtain ⟨segs, hne, hsegs, habs⟩ := exists_absolute q
  exact ⟨segs, hq.trans habs, hne, hsegs⟩

theorem requestURL_perm (client : Go.URL) (h : Assigns template values)
    {values' : List (List UInt8 × List UInt8)} (hperm : values'.Perm values) :
    requestURL parseAuthority client template values' query
      = requestURL parseAuthority client template values query := by
  have hrender := render_eq escapes_keepsSegment h
  have hrender' := render_eq escapes_keepsSegment (h.perm hperm)
  rw [filled_perm h hperm] at hrender'
  unfold requestURL Go.pathEscape
  rw [hrender, hrender']

/-- What `Do` requests has the base's path and the template's segments, in whatever order the values
come. -/
structure Confined (parseAuthority : List UInt8 → Option (Bool × List UInt8)) (baseURL : List UInt8)
    (client : Go.URL) (template : Template) (values : List (List UInt8 × List UInt8))
    (query : List UInt8) : Prop where
  follows : ∃ url, requestURL parseAuthority client template values query = some url ∧
    Follows (baseSegments (Go.basePath baseURL)) template values (segments url.escapedPath).tail
  perm : ∀ values' : List (List UInt8 × List UInt8), values'.Perm values →
    requestURL parseAuthority client template values' query
      = requestURL parseAuthority client template values query

theorem confined_iff (hclient : newClient parseAuthority baseURL = some client)
    (h : Assigns template values) : Confined parseAuthority baseURL client template values query ↔
      (∀ p ∈ values, ¬ Go.IsDot p.2) ∧ KeepsPath (Go.basePath baseURL) := by
  obtain ⟨segs, hsegs, hne, hslash⟩ := escapedPath_eq_absolute hclient
  obtain ⟨url, hurl, hpath⟩ := requestURL_spec hclient h query hsegs hne hslash
  have hresolved : (segments url.escapedPath).tail
      = Go.resolved (segs.dropLast ++ filled Go.keepsSegment template values) := by
    rw [hpath, segments_absolute, List.tail_cons]
    intro s hs
    rcases Go.mem_resolved hs with rfl | ⟨hs, -⟩
    · simp
    · rcases List.mem_append.1 hs with hs | hs
      · exact hslash s (List.mem_of_mem_dropLast hs)
      · exact slash_notMem_filled escapes_keepsSegment h s hs
  rw [← follows_iff hclient h hsegs hslash hne, ← hresolved]
  refine ⟨fun hc => ?_, fun hf => ⟨⟨url, hurl, hf⟩, fun _ hperm => requestURL_perm client h hperm⟩⟩
  obtain ⟨url', hurl', hf⟩ := hc.follows
  rw [hurl, Option.some.injEq] at hurl'
  exact hurl' ▸ hf

end GoClient

end Codegen.Requests
