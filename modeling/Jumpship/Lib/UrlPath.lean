import Mathlib

/-!
# Paths of URLs

A path is a byte text, its segments separated by slashes. `encode` writes the bytes it does not keep
as a percent sign and two digits, `decode?` reads them back. `replaceAll` puts one text for each
occurrence of another; on the segments of a path it replaces the ones that are the text.
-/

namespace UrlPath

def slash : UInt8 := 0x2F

def percent : UInt8 := 0x25

def dot : UInt8 := 0x2E

/-! ## Segments -/

section Segments

def segments (p : List UInt8) : List (List UInt8) := p.splitOn slash

/-- The path with these segments, a slash before each. -/
def absolute (segs : List (List UInt8)) : List UInt8 := segs.flatMap (slash :: ·)

@[simp] theorem absolute_nil : absolute [] = [] := rfl

@[simp] theorem absolute_cons (s : List UInt8) (segs : List (List UInt8)) :
    absolute (s :: segs) = slash :: (s ++ absolute segs) := rfl

@[simp] theorem absolute_append (segs segs' : List (List UInt8)) :
    absolute (segs ++ segs') = absolute segs ++ absolute segs' := List.flatMap_append

theorem intercalate_cons (s : List UInt8) (segs : List (List UInt8)) :
    [slash].intercalate (s :: segs) = s ++ absolute segs := by
  induction segs generalizing s with
  | nil => simp
  | cons s' segs ih => rw [List.intercalate_cons_cons, ih, absolute_cons, List.append_assoc]; rfl

theorem segments_append_absolute {s : List UInt8} {segs : List (List UInt8)} (hs : slash ∉ s)
    (h : ∀ s' ∈ segs, slash ∉ s') : segments (s ++ absolute segs) = s :: segs := by
  rw [← intercalate_cons, segments, List.splitOn_intercalate]
  · simpa using ⟨hs, h⟩
  · simp

theorem segments_absolute {segs : List (List UInt8)} (h : ∀ s ∈ segs, slash ∉ s) :
    segments (absolute segs) = [] :: segs :=
  segments_append_absolute (s := []) (by simp) h

theorem segments_ne_nil (p : List UInt8) : segments p ≠ [] := List.splitOn_ne_nil _ _

theorem slash_notMem_segments (p : List UInt8) : ∀ s ∈ segments p, slash ∉ s := by
  induction p with
  | nil => simp [segments]
  | cons b p ih =>
    rw [segments, List.splitOn_cons_eq_if_modifyHead]
    split_ifs with h
    · simpa [segments] using ih
    · obtain ⟨s, segs, hp⟩ := List.exists_cons_of_ne_nil (segments_ne_nil p)
      rw [segments] at hp
      have hb : slash ≠ b := fun hb => h (by simp [hb])
      rw [segments, hp, List.forall_mem_cons] at ih
      rw [hp, List.modifyHead_cons, List.forall_mem_cons]
      exact ⟨by simp [hb, ih.1], ih.2⟩

theorem intercalate_segments (p : List UInt8) : [slash].intercalate (segments p) = p :=
  List.intercalate_splitOn _

/-- A path that starts with a slash is the one with the segments behind it. -/
theorem exists_absolute (q : List UInt8) :
    ∃ segs, segs ≠ [] ∧ (∀ s ∈ segs, slash ∉ s) ∧ slash :: q = absolute segs := by
  refine ⟨segments q, segments_ne_nil q, slash_notMem_segments q, ?_⟩
  obtain ⟨s, segs, h⟩ := List.exists_cons_of_ne_nil (segments_ne_nil q)
  rw [h, absolute_cons, ← intercalate_cons, ← h, intercalate_segments]

end Segments

/-! ## Percent-encoding -/

section Percent

def upperHex (n : ℕ) : UInt8 := if n < 10 then UInt8.ofNat (48 + n) else UInt8.ofNat (55 + n)

def hexValue? (b : UInt8) : Option ℕ :=
  if 48 ≤ b.toNat ∧ b.toNat ≤ 57 then some (b.toNat - 48)
  else if 97 ≤ b.toNat ∧ b.toNat ≤ 102 then some (b.toNat - 87)
  else if 65 ≤ b.toNat ∧ b.toNat ≤ 70 then some (b.toNat - 55)
  else none

def encodeByte (keep : UInt8 → Bool) (b : UInt8) : List UInt8 :=
  if keep b then [b] else [percent, upperHex (b.toNat / 16), upperHex (b.toNat % 16)]

def encode (keep : UInt8 → Bool) (s : List UInt8) : List UInt8 := s.flatMap (encodeByte keep)

/-- None where a percent sign is not followed by two digits. -/
def decode? : List UInt8 → Option (List UInt8)
  | [] => some []
  | b :: t =>
    if b = percent then
      match t with
      | h :: l :: rest => do
        let x ← hexValue? h
        let y ← hexValue? l
        (decode? rest).map (UInt8.ofNat (16 * x + y) :: ·)
      | _ => none
    else (decode? t).map (b :: ·)

variable {keep : UInt8 → Bool}

@[simp] theorem encode_nil : encode keep [] = [] := rfl

@[simp] theorem encode_cons (b : UInt8) (s : List UInt8) :
    encode keep (b :: s) = encodeByte keep b ++ encode keep s := rfl

@[simp] theorem decode?_nil : decode? [] = some [] := rfl

theorem hexValue?_upperHex {n : ℕ} (h : n < 16) : hexValue? (upperHex n) = some n := by
  interval_cases n <;> decide

theorem decode?_cons_of_ne {b : UInt8} (h : b ≠ percent) (t : List UInt8) :
    decode? (b :: t) = (decode? t).map (b :: ·) := by
  rw [decode?.eq_def]
  simp only [if_neg h]

theorem decode?_triplet (h l : UInt8) (rest : List UInt8) :
    decode? (percent :: h :: l :: rest) = (hexValue? h).bind fun x => (hexValue? l).bind fun y =>
      (decode? rest).map (UInt8.ofNat (16 * x + y) :: ·) := by
  rw [decode?.eq_def]
  simp only [if_true]
  rfl

theorem decode?_encodeByte (hkeep : keep percent = false) (b : UInt8) (t : List UInt8) :
    decode? (encodeByte keep b ++ t) = (decode? t).map (b :: ·) := by
  have hb := b.toNat_lt
  unfold encodeByte
  split_ifs with h
  · exact decode?_cons_of_ne (by rintro rfl; simp [hkeep] at h) t
  · change decode? (percent :: upperHex _ :: upperHex _ :: t) = _
    rw [decode?_triplet, hexValue?_upperHex (by omega), hexValue?_upperHex (by omega)]
    simp only [Option.bind_some, Nat.div_add_mod, UInt8.ofNat_toNat]

theorem decode?_encode_append (hkeep : keep percent = false) (s t : List UInt8) :
    decode? (encode keep s ++ t) = (decode? t).map (s ++ ·) := by
  induction s with
  | nil => simp
  | cons b s ih =>
    rw [encode_cons, List.append_assoc, decode?_encodeByte hkeep, ih, Option.map_map]
    rfl

theorem decode?_encode (hkeep : keep percent = false) (s : List UInt8) :
    decode? (encode keep s) = some s := by
  simpa using decode?_encode_append hkeep s []

/-- A text of kept bytes is written as it is. -/
theorem encode_eq_self {s : List UInt8} (h : ∀ b ∈ s, keep b = true) : encode keep s = s := by
  induction s with
  | nil => rfl
  | cons b s ih =>
    rw [List.forall_mem_cons] at h
    rw [encode_cons, ih h.2, encodeByte, if_pos h.1]
    rfl

theorem decode?_eq_self {s : List UInt8} (h : percent ∉ s) : decode? s = some s := by
  induction s with
  | nil => rfl
  | cons b s ih =>
    rw [List.mem_cons, not_or] at h
    rw [decode?_cons_of_ne (Ne.symm h.1), ih h.2]
    rfl

/-- What the texts that `decode?` reads are made of. -/
inductive Decodes : List UInt8 → List UInt8 → Prop
  | nil : Decodes [] []
  | kept {b : UInt8} {s t : List UInt8} (hb : b ≠ percent) (h : Decodes s t) :
      Decodes (b :: s) (b :: t)
  | triplet {d e : UInt8} {x y : ℕ} {s t : List UInt8} (hd : hexValue? d = some x)
      (he : hexValue? e = some y) (h : Decodes s t) :
      Decodes (percent :: d :: e :: s) (UInt8.ofNat (16 * x + y) :: t)

theorem decode?_eq_some_iff {s t : List UInt8} : decode? s = some t ↔ Decodes s t := by
  refine ⟨fun h => ?_, fun h => ?_⟩
  · fun_induction decode? s generalizing t with
    | case1 => cases h; exact .nil
    | case2 d e rest ih =>
      simp only [Option.bind_eq_bind, Option.bind_eq_some_iff, Option.map_eq_some_iff] at h
      obtain ⟨x, hd, y, he, u, hu, rfl⟩ := h
      exact .triplet hd he (ih hu)
    | case3 => cases h
    | case4 b rest hb ih =>
      obtain ⟨u, hu, rfl⟩ := Option.map_eq_some_iff.1 h
      exact .kept hb (ih hu)
  · induction h with
    | nil => rfl
    | kept hb _ ih => rw [decode?_cons_of_ne hb, ih]; rfl
    | triplet hd he _ ih => rw [decode?_triplet, hd, he, ih]; rfl

/-- Only a text of nothing is read as nothing. -/
theorem Decodes.eq_nil {s : List UInt8} (h : Decodes s []) : s = [] := by
  cases h
  rfl

theorem Decodes.exists_cons {b : UInt8} {s t : List UInt8} (h : Decodes (b :: s) t)
    (hb : b ≠ percent) : ∃ t', t = b :: t' := by
  cases h with
  | kept _ _ => exact ⟨_, rfl⟩
  | triplet _ _ _ => exact absurd rfl hb

theorem Decodes.append {s s' t t' : List UInt8} (h : Decodes s t) (h' : Decodes s' t') :
    Decodes (s ++ s') (t ++ t') := by
  induction h with
  | nil => exact h'
  | kept hb _ ih => exact .kept hb ih
  | triplet hd he _ ih => exact .triplet hd he ih

/-- A slash ends every triplet. -/
theorem Decodes.split {s s' t : List UInt8} (h : Decodes (s ++ slash :: s') t) :
    ∃ u u', Decodes s u ∧ Decodes s' u' ∧ t = u ++ slash :: u' := by
  generalize hw : s ++ slash :: s' = w at h
  induction h generalizing s with
  | nil => simp at hw
  | @kept b w t hb h ih =>
    rcases s with _ | ⟨c, s⟩
    · obtain ⟨rfl, rfl⟩ := List.cons.inj hw
      exact ⟨[], t, .nil, h, rfl⟩
    · rw [List.cons_append, List.cons.injEq] at hw
      obtain ⟨rfl, hw⟩ := hw
      obtain ⟨u, u', hu, hu', rfl⟩ := ih hw
      exact ⟨c :: u, u', .kept hb hu, hu', rfl⟩
  | @triplet d e x y w t hd he h ih =>
    have hslash : hexValue? slash = none := by decide
    rcases s with _ | ⟨c, _ | ⟨c', _ | ⟨c'', s⟩⟩⟩
    · exact absurd (List.cons.inj hw).1 (by decide)
    · simp only [List.cons_append, List.nil_append, List.cons.injEq] at hw
      rw [← hw.2.1, hslash] at hd
      cases hd
    · simp only [List.cons_append, List.nil_append, List.cons.injEq] at hw
      rw [← hw.2.2.1, hslash] at he
      cases he
    · simp only [List.cons_append, List.cons.injEq] at hw
      obtain ⟨rfl, rfl, rfl, hw⟩ := hw
      obtain ⟨u, u', hu, hu', rfl⟩ := ih hw
      exact ⟨_ :: u, u', .triplet hd he hu, hu', rfl⟩

theorem Decodes.unique {s t u : List UInt8} (h : Decodes s t) (h' : Decodes s u) : t = u :=
  Option.some.inj ((decode?_eq_some_iff.2 h).symm.trans (decode?_eq_some_iff.2 h'))

theorem decodes_append_absolute {segs : List (List UInt8)} {s t : List UInt8}
    (h : Decodes (s ++ absolute segs) t) :
    ∃ u ds, Decodes s u ∧ List.Forall₂ Decodes segs ds ∧ t = u ++ absolute ds := by
  induction segs generalizing s t with
  | nil => exact ⟨t, [], by simpa using h, .nil, by simp⟩
  | cons s' segs ih =>
    obtain ⟨u, u', hu, hu', rfl⟩ := h.split
    obtain ⟨v, ds, hv, hds, rfl⟩ := ih hu'
    exact ⟨u, v :: ds, hu, .cons hv hds, rfl⟩

/-- A path is read segment by segment. -/
theorem decodes_absolute_iff {segs : List (List UInt8)} {t : List UInt8} :
    Decodes (absolute segs) t ↔ ∃ ds, List.Forall₂ Decodes segs ds ∧ t = absolute ds := by
  refine ⟨fun h => ?_, ?_⟩
  · obtain ⟨u, ds, hu, hds, rfl⟩ := decodes_append_absolute (s := []) h
    cases hu
    exact ⟨ds, hds, rfl⟩
  · rintro ⟨ds, hds, rfl⟩
    induction hds with
    | nil => exact .nil
    | cons hd _ ih => exact .kept (by decide) (hd.append ih)

theorem upperHex_digit {n : ℕ} (h : n < 16) :
    (48 ≤ (upperHex n).toNat ∧ (upperHex n).toNat ≤ 57) ∨
      65 ≤ (upperHex n).toNat ∧ (upperHex n).toNat ≤ 70 := by
  interval_cases n <;> decide

/-- What an encoded text is made of. -/
theorem mem_encode {s : List UInt8} {c : UInt8} (h : c ∈ encode keep s) :
    keep c = true ∨ c = percent ∨ (48 ≤ c.toNat ∧ c.toNat ≤ 57) ∨ 65 ≤ c.toNat ∧ c.toNat ≤ 70 := by
  obtain ⟨b, -, hb⟩ := List.mem_flatMap.1 h
  have hlt := b.toNat_lt
  unfold encodeByte at hb
  split_ifs at hb with hk
  · obtain rfl : c = b := by simpa using hb
    exact .inl hk
  · simp only [List.mem_cons, List.not_mem_nil, or_false] at hb
    rcases hb with rfl | rfl | rfl
    · exact .inr (.inl rfl)
    · exact .inr (.inr (upperHex_digit (by omega)))
    · exact .inr (.inr (upperHex_digit (by omega)))

end Percent

/-! ## Templates -/

section Templates

/-- The text with `new` for each occurrence of `old`, from left to right, the first `skip` bytes left
out. `old` is not empty. -/
def replaceFrom (old new : List UInt8) : ℕ → List UInt8 → List UInt8
  | _, [] => []
  | skip + 1, _ :: t => replaceFrom old new skip t
  | 0, b :: t =>
    if old.isPrefixOf (b :: t) then new ++ replaceFrom old new (old.length - 1) t
    else b :: replaceFrom old new 0 t

def replaceAll (old new text : List UInt8) : List UInt8 := replaceFrom old new 0 text

def openBrace : UInt8 := 0x7B

def closeBrace : UInt8 := 0x7D

inductive Segment where
  | literal (s : List UInt8)
  | parameter (name : List UInt8)
deriving DecidableEq

/-- `{name}` -/
def braced (name : List UInt8) : List UInt8 := openBrace :: (name ++ [closeBrace])

def Segment.text : Segment → List UInt8
  | literal s => s
  | parameter name => braced name

def Segment.content : Segment → List UInt8
  | literal s => s
  | parameter name => name

def Plain (s : List UInt8) : Prop := ∀ b ∈ s, b ≠ openBrace ∧ b ≠ closeBrace

def Segment.fill (name value : List UInt8) : Segment → Segment
  | literal s => literal s
  | parameter n => if n = name then literal value else parameter n

def pathOf (segs : List Segment) : List UInt8 := absolute (segs.map Segment.text)

variable {name value : List UInt8}

theorem replaceFrom_skip (old new : List UInt8) : ∀ s t : List UInt8,
    replaceFrom old new s.length (s ++ t) = replaceFrom old new 0 t
  | [], _ => rfl
  | _ :: s, t => replaceFrom_skip old new s t

theorem replaceAll_braced (t : List UInt8) :
    replaceAll (braced name) value (braced name ++ t) = value ++ replaceAll (braced name) value t := by
  have hprefix : (braced name).isPrefixOf (openBrace :: (name ++ [closeBrace] ++ t)) = true :=
    List.isPrefixOf_iff_prefix.2 ⟨t, rfl⟩
  have hskip := replaceFrom_skip (braced name) value (name ++ [closeBrace]) t
  change replaceFrom _ _ 0 (openBrace :: (name ++ [closeBrace] ++ t)) = _
  rw [replaceFrom, if_pos hprefix]
  exact congrArg (value ++ ·) hskip

theorem replaceAll_cons_of_ne {b : UInt8} (h : b ≠ openBrace) (t : List UInt8) :
    replaceAll (braced name) value (b :: t) = b :: replaceAll (braced name) value t := by
  have hprefix : (braced name).isPrefixOf (b :: t) = false := by
    rw [braced, List.isPrefixOf_cons_cons, beq_false_of_ne (Ne.symm h), Bool.false_and]
  rw [replaceAll, replaceFrom, hprefix]
  rfl

theorem replaceAll_append {s : List UInt8} (h : ∀ b ∈ s, b ≠ openBrace) (t : List UInt8) :
    replaceAll (braced name) value (s ++ t) = s ++ replaceAll (braced name) value t := by
  induction s with
  | nil => rfl
  | cons b s ih =>
    rw [List.forall_mem_cons] at h
    rw [List.cons_append, replaceAll_cons_of_ne h.1, ih h.2]
    rfl

/-- The first closing brace ends a name. -/
theorem eq_of_append_closeBrace : ∀ {a b u v : List UInt8}, Plain a → Plain b →
    a ++ closeBrace :: u = b ++ closeBrace :: v → a = b
  | [], [], _, _, _, _, _ => rfl
  | [], _ :: _, _, _, _, hb, h => absurd (List.cons.inj h).1.symm (hb _ List.mem_cons_self).2
  | _ :: _, [], _, _, ha, _, h => absurd (List.cons.inj h).1 (ha _ List.mem_cons_self).2
  | c :: a, c' :: b, _, _, ha, hb, h => by
    rw [List.cons_append, List.cons_append, List.cons.injEq] at h
    rw [h.1, eq_of_append_closeBrace (fun x hx => ha x (List.mem_cons_of_mem _ hx))
      (fun x hx => hb x (List.mem_cons_of_mem _ hx)) h.2]

theorem eq_of_prefix_braced {n t : List UInt8} (hn : Plain n) (hname : Plain name)
    (h : braced name <+: braced n ++ t) : name = n := by
  obtain ⟨u, hu⟩ := h
  simp only [braced, List.cons_append, List.append_assoc, List.cons.injEq, true_and,
    List.nil_append] at hu
  exact eq_of_append_closeBrace hname hn hu

theorem replaceAll_braced_of_ne {n : List UInt8} (hn : Plain n) (hname : Plain name) (h : n ≠ name)
    (t : List UInt8) :
    replaceAll (braced name) value (braced n ++ t) = braced n ++ replaceAll (braced name) value t := by
  have hprefix : (braced name).isPrefixOf (openBrace :: (n ++ [closeBrace] ++ t)) = false := by
    rw [← Bool.not_eq_true, List.isPrefixOf_iff_prefix]
    exact fun hp => h (eq_of_prefix_braced hn hname hp).symm
  have hrest : ∀ b ∈ n ++ [closeBrace], b ≠ openBrace := by
    intro b hb
    rcases List.mem_append.1 hb with hb | hb
    · exact (hn b hb).1
    · rw [List.mem_singleton.1 hb]
      decide
  change replaceFrom _ _ 0 (openBrace :: (n ++ [closeBrace] ++ t)) = _
  rw [replaceFrom, hprefix]
  exact congrArg (openBrace :: ·) (replaceAll_append hrest t)

/-- One round of the substitution fills one parameter. -/
theorem replaceAll_pathOf {segs : List Segment} (hname : Plain name)
    (h : ∀ s ∈ segs, Plain s.content) :
    replaceAll (braced name) value (pathOf segs) = pathOf (segs.map (Segment.fill name value)) := by
  induction segs with
  | nil => rfl
  | cons s segs ih =>
    rw [List.forall_mem_cons] at h
    specialize ih h.2
    simp only [pathOf, List.map_cons, absolute_cons] at ih ⊢
    rw [replaceAll_cons_of_ne (by decide)]
    congr 1
    rcases s with s | n
    · have hplain : Plain s := h.1
      rw [Segment.text, replaceAll_append fun b hb => (hplain b hb).1, ih]
      rfl
    · by_cases hn : n = name
      · subst hn
        rw [Segment.text, replaceAll_braced, ih, Segment.fill, if_pos rfl]
        rfl
      · have hplain : Plain n := h.1
        rw [Segment.text, replaceAll_braced_of_ne hplain hname hn, ih, Segment.fill, if_neg hn]
        rfl

def Segment.fillAll (values : List (List UInt8 × List UInt8)) : Segment → Segment
  | literal s => literal s
  | parameter n => ((values.lookup n).map literal).getD (parameter n)

/-- Filled one after the other, the parameters are filled with the values given for them. -/
theorem foldl_replaceAll {values : List (List UInt8 × List UInt8)} {segs : List Segment}
    (hvalues : ∀ v ∈ values, Plain v.1 ∧ Plain v.2) (h : ∀ s ∈ segs, Plain s.content) :
    values.foldl (fun path v => replaceAll (braced v.1) v.2 path) (pathOf segs)
      = pathOf (segs.map (Segment.fillAll values)) := by
  induction values generalizing segs with
  | nil =>
    have hid : ∀ s : Segment, s.fillAll [] = s := fun s => by cases s <;> rfl
    rw [List.foldl_nil, List.map_congr_left fun s _ => hid s, List.map_id']
  | cons v values ih =>
    obtain ⟨name, value⟩ := v
    rw [List.forall_mem_cons] at hvalues
    have hplain : ∀ s ∈ segs.map (Segment.fill name value), Plain s.content := by
      intro s hs
      obtain ⟨s', hs', rfl⟩ := List.mem_map.1 hs
      specialize h s' hs'
      rcases s' with s' | n
      · exact h
      · rw [Segment.fill]
        split_ifs
        · exact hvalues.1.2
        · exact h
    rw [List.foldl_cons, replaceAll_pathOf hvalues.1.1 h, ih hvalues.2 hplain, List.map_map]
    congr 1
    refine List.map_congr_left fun s _ => ?_
    rcases s with s | n
    · rfl
    · by_cases hn : n = name
      · simp [Segment.fill, Segment.fillAll, hn]
      · have hne : (n == name) = false := by simpa using hn
        simp [Segment.fill, Segment.fillAll, hn, List.lookup_cons, hne]

end Templates

end UrlPath
