import Jumpship.Proofs.GoRequests

/-!
# Parameters stay in their segments

`net/url` and the URL standard both take the dot segments of a path away, whoever wrote them: an
escaped value is one when it is a dot or two, since both escapes keep the dot. Every other value is
one segment of the request.
-/

namespace Codegen.Requests

open UrlPath

/-! ## The TypeScript client -/

section TypeScriptClient

theorem escapes_keepsComponent : Escapes Js.keepsComponent where
  percent := by decide
  slash := by decide
  openBrace := by decide
  closeBrace := by decide
  dot := by decide
  name b h := by
    simp only [isNameByte, Js.keepsComponent, Bool.or_eq_true, Bool.and_eq_true,
      decide_eq_true_eq, List.mem_cons, List.not_mem_nil, or_false] at h ⊢
    tauto

/-! ### Dot segments -/

theorem hexValue?_spec {b : UInt8} {x : ℕ} (h : hexValue? b = some x) :
    x < 16 ∧ (x = 2 → b = 0x32) ∧ (x = 14 → b = 0x65 ∨ b = 0x45) := by
  unfold hexValue? at h
  simp only [← UInt8.toNat_inj, UInt8.reduceToNat]
  split_ifs at h <;> obtain rfl := Option.some.inj h <;> omega

theorem singleDots_of_decodes {s t : List UInt8} (h : Decodes s (UrlPath.dot :: t)) :
    ∃ a ∈ Js.singleDots, ∃ s', s = a ++ s' ∧ Decodes s' t := by
  generalize hw : UrlPath.dot :: t = w at h
  cases h with
  | nil => cases hw
  | kept hb h =>
    obtain ⟨rfl, rfl⟩ := List.cons.inj hw
    exact ⟨[UrlPath.dot], List.mem_cons_self, _, rfl, h⟩
  | @triplet d e x y s t hd he h =>
    obtain ⟨hb, rfl⟩ := List.cons.inj hw
    obtain ⟨hx, hx2, -⟩ := hexValue?_spec hd
    obtain ⟨hy, -, hy14⟩ := hexValue?_spec he
    have hsum : 16 * x + y = 46 := by
      have := congrArg UInt8.toNat hb
      rw [UInt8.toNat_ofNat'] at this
      have h46 : UrlPath.dot.toNat = 46 := rfl
      omega
    obtain rfl := hx2 (by omega)
    rcases hy14 (by omega) with rfl | rfl
    · exact ⟨_, List.mem_cons_of_mem _ List.mem_cons_self, _, rfl, h⟩
    · exact ⟨_, List.mem_cons_of_mem _ (List.mem_cons_of_mem _ List.mem_cons_self), _, rfl, h⟩

/-- What is read as a dot segment is one to the URL standard. -/
theorem isDots_of_decodes {s t : List UInt8} (h : Decodes s t) (ht : Go.IsDot t) : Js.IsDots s := by
  rcases ht with rfl | rfl
  · obtain ⟨a, ha, s', rfl, hs'⟩ := singleDots_of_decodes h
    rw [hs'.eq_nil, List.append_nil]
    exact .inl ha
  · obtain ⟨a, ha, s', rfl, hs'⟩ := singleDots_of_decodes h
    obtain ⟨b, hb, s'', rfl, hs''⟩ := singleDots_of_decodes hs'
    rw [hs''.eq_nil, List.append_nil]
    exact .inr (List.mem_flatMap.2 ⟨a, ha, List.mem_map.2 ⟨b, hb, rfl⟩⟩)

theorem isDot_of_isDots {s : List UInt8} (h : Js.IsDots s) : ∃ t, Decodes s t ∧ Go.IsDot t := by
  have hsingle : ∀ a ∈ Js.singleDots, decode? a = some [UrlPath.dot] := by decide
  have hdouble : ∀ a ∈ Js.doubleDots, decode? a = some [UrlPath.dot, UrlPath.dot] := by decide
  rcases h with h | h
  · exact ⟨_, decode?_eq_some_iff.1 (hsingle s h), .inl rfl⟩
  · exact ⟨_, decode?_eq_some_iff.1 (hdouble s h), .inr rfl⟩

/-! ### The path state -/

variable {isFile : Bool}

theorem mem_shorten {path : List (List UInt8)} {s : List UInt8} (h : s ∈ Js.shorten isFile path) :
    s ∈ path := by
  unfold Js.shorten at h
  split_ifs at h
  · exact h
  · exact List.mem_of_mem_dropLast h

theorem pathState_of_not_isDots : ∀ {segs path : List (List UInt8)}, (∀ s ∈ segs, ¬ Js.IsDots s) →
    Js.pathState isFile path segs = path ++ segs
  | [], path, _ => (List.append_nil path).symm
  | [s], path, h => by
    have hs := not_or.1 (h s List.mem_cons_self)
    rw [Js.pathState, if_neg hs.2, if_neg hs.1]
  | s :: s' :: segs, path, h => by
    rw [List.forall_mem_cons] at h
    have hs := not_or.1 h.1
    rw [Js.pathState, if_neg hs.2, if_neg hs.1, pathState_of_not_isDots h.2, List.append_assoc]
    · rfl
    · simp

theorem not_isDots_pathState : ∀ {segs path : List (List UInt8)}, (∀ s ∈ path, ¬ Js.IsDots s) →
    ∀ s ∈ Js.pathState isFile path segs, ¬ Js.IsDots s
  | [], _, h => h
  | [s], path, h => by
    have hnil : ¬ Js.IsDots [] := by decide
    intro t ht
    rw [Js.pathState] at ht
    split_ifs at ht with h₁ h₂
    · rcases List.mem_append.1 ht with ht | ht
      · exact h t (mem_shorten ht)
      · rwa [List.mem_singleton.1 ht]
    · rcases List.mem_append.1 ht with ht | ht
      · exact h t ht
      · rwa [List.mem_singleton.1 ht]
    · rcases List.mem_append.1 ht with ht | ht
      · exact h t ht
      · rw [List.mem_singleton.1 ht]
        exact not_or.2 ⟨h₂, h₁⟩
  | s :: s' :: segs, path, h => by
    rw [Js.pathState]
    · split_ifs with h₁ h₂
      · exact not_isDots_pathState fun t ht => h t (mem_shorten ht)
      · exact not_isDots_pathState h
      · refine not_isDots_pathState fun t ht => ?_
        rcases List.mem_append.1 ht with ht | ht
        · exact h t ht
        · rw [List.mem_singleton.1 ht]
          exact not_or.2 ⟨h₂, h₁⟩
    · simp

/-! ### The URL a call fetches -/

variable {parser : Js.URLParser} {baseURL : List ℕ} {base url : Js.URLRecord} {template : Template}
  {values : List (List UInt8 × List ℕ)} {texts : List (List UInt8 × List UInt8)}

/-- The UTF-8 of each value; none where a value is no text. -/
def textsOf (values : List (List UInt8 × List ℕ)) : Option (List (List UInt8 × List UInt8)) :=
  values.mapM fun p => (Unicode.utf16Decode p.2).map fun s => (p.1, Unicode.utf8 s)

theorem foldlM_encode : ∀ (values : List (List UInt8 × List ℕ)) (path : List UInt8),
    values.foldlM (fun path p => (Js.encodeURIComponent p.2).map fun s =>
        replaceAll (braced p.1) s path) path
      = (textsOf values).map fun texts => texts.foldl (fun rendered p =>
          replaceAll (braced p.1) (encode Js.keepsComponent p.2) rendered) path
  | [], _ => rfl
  | (n, v) :: values, path => by
    have ih := foldlM_encode values
    rw [List.foldlM_cons, textsOf, List.mapM_cons]
    rw [textsOf] at ih
    cases hv : Unicode.utf16Decode v with
    | none =>
      rw [show Js.encodeURIComponent v = none by rw [Js.encodeURIComponent, hv]; rfl]
      rfl
    | some s =>
      rw [show Js.encodeURIComponent v = some (encode Js.keepsComponent (Unicode.utf8 s)) by
        rw [Js.encodeURIComponent, hv]; rfl]
      refine (ih _).trans ?_
      cases values.mapM fun p => (Unicode.utf16Decode p.2).map fun s => (p.1, Unicode.utf8 s) <;> rfl

/-- What `call` fetches has the base's segments and then exactly the template's, in whatever order
the values come. -/
structure CallConfined (parser : Js.URLParser) (baseURL : List ℕ) (base : Js.URLRecord)
    (template : Template) (values : List (List UInt8 × List ℕ))
    (texts : List (List UInt8 × List UInt8)) (url : Js.URLRecord) : Prop where
  follows : ∃ rest, url.path =
    (if base.path.getLast? = some [] then base.path.dropLast else base.path) ++ rest ∧
      List.Forall₂ (Fits texts) template.segments rest
  perm : ∀ values' : List (List UInt8 × List ℕ), values'.Perm values →
    callURL parser baseURL template values' = callURL parser baseURL template values

/-- The URL with a slash behind it has the same segments, and one more. -/
def KeepsBase (parser : Js.URLParser) (baseURL : List ℕ) (base : Js.URLRecord) : Prop :=
  ∃ base', parser.parse (withSlash baseURL) = some base' ∧ Js.shorten base'.isFile base'.path =
    if base.path.getLast? = some [] then base.path.dropLast else base.path

theorem isRelative_filled (h : Assigns template texts) :
    Js.IsRelative (trimSlash (absolute (filled Js.keepsComponent template texts))) ∧
      segments (trimSlash (absolute (filled Js.keepsComponent template texts)))
        = filled Js.keepsComponent template texts := by
  obtain ⟨b, l, rest, hfilled, hname⟩ := filled_ne_nil Js.keepsComponent template texts
  have hslash := slash_notMem_filled escapes_keepsComponent h
  have hbyte : ∀ t ∈ filled Js.keepsComponent template texts, ∀ c ∈ t,
      Js.keepsComponent c = true ∨ c = UrlPath.percent := by
    intro t ht c hc
    obtain ⟨l, hl, rfl⟩ | ⟨p, -, rfl⟩ := mem_filled h ht
    · exact .inl (escapes_keepsComponent.name c ((template.names _ hl).2 c hc))
    · rcases mem_encode hc with hc | hc | hc | hc
      · exact .inl hc
      · exact .inr hc
      · refine .inl ?_
        simp only [Js.keepsComponent, Bool.or_eq_true, Bool.and_eq_true, decide_eq_true_eq,
          UInt8.le_iff_toNat_le]
        exact .inl (.inr hc)
      · refine .inl ?_
        simp only [Js.keepsComponent, Bool.or_eq_true, Bool.and_eq_true, decide_eq_true_eq,
          UInt8.le_iff_toNat_le]
        have h90 : c.toNat ≤ 90 := hc.2.trans (by decide)
        exact .inl (.inl (.inr ⟨hc.1, h90⟩))
  rw [hfilled] at hslash hbyte ⊢
  rw [trimSlash_absolute]
  rw [List.forall_mem_cons] at hslash
  refine ⟨⟨⟨b, _, rfl, escapes_keepsComponent.name b (hname b List.mem_cons_self)⟩, ?_⟩,
    segments_append_absolute hslash.1 hslash.2⟩
  intro c hc
  rcases List.mem_append.1 hc with hc | hc
  · exact (hbyte _ List.mem_cons_self c hc).imp_right .inl
  · obtain ⟨t, ht, hc⟩ := List.mem_flatMap.1 hc
    rcases List.mem_cons.1 hc with rfl | hc
    · exact .inr (.inr rfl)
    · exact (hbyte t (List.mem_cons_of_mem _ ht) c hc).imp_right .inl

theorem callURL_eq (h : Assigns template texts) (htexts : textsOf values = some texts) :
    callURL parser baseURL template values = (parser.parse (withSlash baseURL)).bind fun base =>
      if base.hasOpaquePath then none
      else some { base with
        path := Js.pathState base.isFile (Js.shorten base.isFile base.path)
          (filled Js.keepsComponent template texts) } := by
  have hbrace : (absolute (filled Js.keepsComponent template texts)).any isBrace = false := by
    rw [List.any_eq_false]
    intro c hc
    obtain ⟨t, ht, hc⟩ := List.mem_flatMap.1 hc
    have hplain := plain_filled escapes_keepsComponent h t ht
    rcases List.mem_cons.1 hc with rfl | hc
    · decide
    · simp [isBrace, (hplain c hc).1, (hplain c hc).2]
  obtain ⟨hrelative, hsegments⟩ := isRelative_filled h
  rw [callURL, foldlM_encode, htexts, Option.map_some, render_eq escapes_keepsComponent h]
  simp only [Option.bind_eq_bind, Option.bind_some, hbrace, Bool.false_eq_true, if_false]
  cases parser.parse (withSlash baseURL) with
  | none => rfl
  | some base =>
    rw [Option.bind_some, Option.bind_some, parser.parseWith_of_isRelative base hrelative, hsegments]

def textOf (p : List UInt8 × List ℕ) : List UInt8 × List UInt8 :=
  (p.1, Unicode.utf8 ((Unicode.utf16Decode p.2).getD []))

theorem textsOf_eq_some_iff : textsOf values = some texts ↔
    (∀ p ∈ values, (Unicode.utf16Decode p.2).isSome) ∧ texts = values.map textOf := by
  induction values generalizing texts with
  | nil =>
    refine ⟨fun h => ⟨by simp, (Option.some.inj h).symm⟩, ?_⟩
    rintro ⟨-, rfl⟩
    rfl
  | cons p values ih =>
    rw [textsOf] at ih
    rw [textsOf, List.mapM_cons, List.forall_mem_cons, List.map_cons]
    cases hp : Unicode.utf16Decode p.2 with
    | none => simp
    | some s =>
      have htext : textOf p = (p.1, Unicode.utf8 s) := by rw [textOf, hp]; rfl
      rw [htext]
      refine ⟨fun h => ?_, ?_⟩
      · obtain ⟨t, ht, h⟩ := Option.bind_eq_some_iff.1 h
        obtain rfl := Option.some.inj ht
        obtain ⟨ts, hts, h⟩ := Option.bind_eq_some_iff.1 h
        obtain ⟨hall, rfl⟩ := ih.1 hts
        exact ⟨⟨rfl, hall⟩, (Option.some.inj h).symm⟩
      · rintro ⟨⟨-, hall⟩, rfl⟩
        exact Option.bind_eq_some_iff.2 ⟨_, rfl,
          Option.bind_eq_some_iff.2 ⟨_, ih.2 ⟨hall, rfl⟩, rfl⟩⟩

theorem names_textsOf (htexts : textsOf values = some texts) :
    texts.map Prod.fst = values.map Prod.fst := by
  rw [(textsOf_eq_some_iff.1 htexts).2, List.map_map]
  rfl

theorem textsOf_perm {values' : List (List UInt8 × List ℕ)} (htexts : textsOf values = some texts)
    (hperm : values'.Perm values) : ∃ texts', textsOf values' = some texts' ∧ texts'.Perm texts := by
  obtain ⟨hall, rfl⟩ := textsOf_eq_some_iff.1 htexts
  exact ⟨_, textsOf_eq_some_iff.2 ⟨fun p hp => hall p (hperm.mem_iff.1 hp), rfl⟩, hperm.map textOf⟩

theorem callURL_perm (h : Assigns template texts) (htexts : textsOf values = some texts)
    {values' : List (List UInt8 × List ℕ)} (hperm : values'.Perm values) :
    callURL parser baseURL template values' = callURL parser baseURL template values := by
  obtain ⟨texts', htexts', hperm'⟩ := textsOf_perm htexts hperm
  rw [callURL_eq h htexts, callURL_eq (h.perm hperm') htexts', filled_perm h hperm']

theorem not_isDots_filled (h : Assigns template texts) (hvalues : ∀ p ∈ texts, ¬ Go.IsDot p.2) :
    ∀ s ∈ filled Js.keepsComponent template texts, ¬ Js.IsDots s := by
  intro s hs hdots
  obtain ⟨t, hst, ht⟩ := isDot_of_isDots hdots
  obtain ⟨l, hl, rfl⟩ | ⟨p, hp, rfl⟩ := mem_filled h hs
  · have hself : decode? s = some s := decode?_eq_self fun hp =>
      (isNameByte_iff ((template.names _ hl).2 _ hp)).2.1 rfl
    rw [hst.unique (decode?_eq_some_iff.1 hself)] at ht
    exact not_isDot_of_names (template.names _ hl).2 ht
  · rw [hst.unique (Go.decodes_encode escapes_keepsComponent.percent _)] at ht
    exact hvalues p hp ht

theorem callConfined_iff (h : Assigns template values)
    (htexts : textsOf values = some texts) (hurl : callURL parser baseURL template values = some url) :
    CallConfined parser baseURL base template values texts url ↔
      (∀ p ∈ texts, ¬ Go.IsDot p.2) ∧ KeepsBase parser baseURL base := by
  have h' : Assigns template texts := ⟨names_textsOf htexts ▸ h.nodup, names_textsOf htexts ▸ h.mem_iff⟩
  rw [callURL_eq h' htexts] at hurl
  obtain ⟨base', hbase', hurl⟩ := Option.bind_eq_some_iff.1 hurl
  split_ifs at hurl
  obtain rfl := Option.some.inj hurl
  have hfilled : (∀ p ∈ texts, ¬ Go.IsDot p.2) →
      Js.pathState base'.isFile (Js.shorten base'.isFile base'.path)
        (filled Js.keepsComponent template texts)
        = Js.shorten base'.isFile base'.path ++ filled Js.keepsComponent template texts :=
    fun hvalues => pathState_of_not_isDots (not_isDots_filled h' hvalues)
  refine ⟨fun hc => ?_, fun ⟨hvalues, base'', hbase'', hkept⟩ => ⟨?_, ?_⟩⟩
  · obtain ⟨rest, hpath, hrest⟩ := hc.follows
    change Js.pathState _ _ _ = _ at hpath
    have hclean : ∀ s ∈ Js.pathState base'.isFile (Js.shorten base'.isFile base'.path)
        (filled Js.keepsComponent template texts), ¬ Js.IsDots s :=
      not_isDots_pathState fun s hs => parser.not_isDots hbase' s (mem_shorten hs)
    rw [hpath] at hclean
    have hvalues := not_isDot_of_fits h' hrest fun t ht v hv hdot =>
      hclean t (List.mem_append_right _ ht) (isDots_of_decodes (decode?_eq_some_iff.1 hv) hdot)
    have heq := (hfilled hvalues).symm.trans hpath
    refine ⟨hvalues, base', hbase', (List.append_inj' heq ?_).1⟩
    rw [← hrest.length_eq, filled, List.length_map]
  · rw [hbase'] at hbase''
    obtain rfl := Option.some.inj hbase''
    exact ⟨_, (hfilled hvalues).trans (by rw [hkept]), fits_filled escapes_keepsComponent h'⟩
  · exact fun values' hperm => callURL_perm h' htexts hperm

end TypeScriptClient

/-! ## Both clients -/

section Clients

/-- The requests that stay where the template says: those without a value that is a dot segment, to
a base whose path the client keeps. -/
theorem path_confined_iff (template : Template) :
    (∀ (parseAuthority : List UInt8 → Option (Bool × List UInt8)) (baseURL : List UInt8)
        (client : Go.URL) (values : List (List UInt8 × List UInt8)) (query : List UInt8),
      newClient parseAuthority baseURL = some client → Assigns template values →
        (Confined parseAuthority baseURL client template values query ↔
          (∀ p ∈ values, ¬ Go.IsDot p.2) ∧ KeepsPath (Go.basePath baseURL))) ∧
      ∀ (parser : Js.URLParser) (baseURL : List ℕ) (base url : Js.URLRecord)
          (values : List (List UInt8 × List ℕ)) (texts : List (List UInt8 × List UInt8)),
        parser.parse baseURL = some base → Assigns template values → textsOf values = some texts →
          callURL parser baseURL template values = some url →
            (CallConfined parser baseURL base template values texts url ↔
              (∀ p ∈ texts, ¬ Go.IsDot p.2) ∧ KeepsBase parser baseURL base) :=
  ⟨fun _ _ _ _ _ hclient h => confined_iff hclient h,
    fun _ _ _ _ _ _ _ h htexts hurl => callConfined_iff h htexts hurl⟩

/-- `/v1/webhooks/{provider}` -/
def webhookTemplate : Template where
  segments := [.literal (ascii "v1"), .literal (ascii "webhooks"), .parameter (ascii "provider")]
  first := ⟨_, _, rfl⟩
  names := by decide +kernel

/-- A parser that knows one URL. -/
def sampleParser : Js.URLParser where
  parse text :=
    if text = (ascii "https://api.example.test/").map UInt8.toNat then some ⟨false, false, [[]]⟩ else none
  parseWith base text :=
    if base.hasOpaquePath then none
    else some { base with path := Js.pathState base.isFile (Js.shorten base.isFile base.path) (segments text) }
  not_isDots := by
    intro text url h
    split_ifs at h
    obtain rfl := Option.some.inj h
    decide
  parseWith_of_isRelative _ _ := rfl

def sampleClient : Go.URL where
  scheme := https
  host := ascii "api.example.test"
  path := [UrlPath.slash]

theorem newClient_sample :
    newClient (fun a => some (false, a)) (ascii "https://api.example.test") = some sampleClient := by
  decide +kernel

theorem assigns_webhook {β : Type} (v : β) : Assigns webhookTemplate [(ascii "provider", v)] where
  nodup := by simp
  mem_iff n := by
    simp [webhookTemplate]

/-- A value with a slash and a dot in it stays in its segment. -/
theorem path_confined_sample :
    Confined (fun a => some (false, a)) (ascii "https://api.example.test") sampleClient webhookTemplate
        [(ascii "provider", ascii "../x")] [] ∧
      CallConfined sampleParser ((ascii "https://api.example.test/").map UInt8.toNat)
        ⟨false, false, [[]]⟩ webhookTemplate
        [(ascii "provider", (ascii "../x").map UInt8.toNat)] [(ascii "provider", ascii "../x")]
        ⟨false, false, [ascii "v1", ascii "webhooks", ascii "..%2Fx"]⟩ := by
  have hbase : Go.basePath (ascii "https://api.example.test") = [] := by decide +kernel
  refine ⟨((path_confined_iff webhookTemplate).1 _ _ _ _ _ newClient_sample (assigns_webhook _)).2
      ⟨by decide +kernel, hbase ▸ keepsPath_nil⟩,
    ((path_confined_iff webhookTemplate).2 _ _ _ _ _ _ (by decide +kernel) (assigns_webhook _)
      (by decide +kernel) (by decide +kernel)).2 ⟨by decide +kernel, ?_⟩⟩
  exact ⟨⟨false, false, [[]]⟩, by decide +kernel, by decide +kernel⟩

/-- Two dots are escaped to two dots, and taken away with the segment before them. -/
theorem not_path_confined :
    ¬ ∀ (template : Template) (parseAuthority : List UInt8 → Option (Bool × List UInt8))
        (baseURL : List UInt8) (client : Go.URL) (values : List (List UInt8 × List UInt8))
        (query : List UInt8), newClient parseAuthority baseURL = some client →
      Assigns template values → (∀ p ∈ values, p.2 ≠ []) →
        Confined parseAuthority baseURL client template values query := by
  intro h
  have hconfined := h webhookTemplate _ _ _ [(ascii "provider", [UrlPath.dot, UrlPath.dot])] []
    newClient_sample (assigns_webhook _) (by decide)
  exact ((confined_iff newClient_sample (assigns_webhook _)).1 hconfined).1 _ List.mem_cons_self (.inr rfl)

end Clients

end Codegen.Requests
