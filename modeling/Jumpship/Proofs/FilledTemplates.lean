import Jumpship.Codegen.Requests
import Jumpship.Lib.Fallible
import Jumpship.Proofs.PathResolution

/-!
# A template with its parameters filled in

The replacements put each escaped value into its own segment, in whatever order they are made: no
escaped text has a slash or a brace in it.
-/

namespace Codegen.Requests

open Fallible UrlPath

/-! ## The segments of a filled template -/

section Filled

/-- What is asked of an escaping: it takes the slash and the braces out, and leaves names alone. -/
structure Escapes (keep : UInt8 → Bool) : Prop where
  percent : keep percent = false
  slash : keep slash = false
  openBrace : keep openBrace = false
  closeBrace : keep closeBrace = false
  dot : keep dot = true
  name : ∀ b, isNameByte b = true → keep b = true

/-- Values for exactly the parameters of the template. -/
structure Assigns {β : Type} (template : Template) (values : List (List UInt8 × β)) : Prop where
  nodup : (values.map Prod.fst).Nodup
  mem_iff : ∀ n, n ∈ values.map Prod.fst ↔ .parameter n ∈ template.segments

def filled (keep : UInt8 → Bool) (template : Template) (values : List (List UInt8 × List UInt8)) :
    List (List UInt8) :=
  template.segments.map fun s =>
    (s.fillAll (values.map fun p => (p.1, encode keep p.2))).text

/-- A segment of a request for a segment of the template: the literal itself, or a text for the
value. -/
def Fits (values : List (List UInt8 × List UInt8)) : Segment → List UInt8 → Prop
  | .literal s, t => t = s
  | .parameter n, t => ∃ v, values.lookup n = some v ∧ decode? t = some v

variable {keep : UInt8 → Bool} (hkeep : Escapes keep) {template : Template}
  {values : List (List UInt8 × List UInt8)}

theorem isNameByte_iff {b : UInt8} (h : isNameByte b = true) :
    b ≠ UrlPath.slash ∧ b ≠ UrlPath.percent ∧ b ≠ UrlPath.openBrace ∧ b ≠ UrlPath.closeBrace ∧
      b ≠ UrlPath.dot := by
  refine ⟨?_, ?_, ?_, ?_, ?_⟩ <;> rintro rfl <;> exact absurd h (by decide)

theorem plain_of_names {s : List UInt8} (h : ∀ b ∈ s, isNameByte b = true) : Plain s := fun b hb =>
  ⟨(isNameByte_iff (h b hb)).2.2.1, (isNameByte_iff (h b hb)).2.2.2.1⟩

include hkeep in
theorem plain_encode (s : List UInt8) : Plain (encode keep s) := by
  intro b hb
  refine ⟨?_, ?_⟩ <;> rintro rfl <;> rcases mem_encode hb with h | h | h | h
  · exact absurd h (by simp [hkeep.openBrace])
  · exact absurd h (by decide)
  · exact absurd h (by decide)
  · exact absurd h (by decide)
  · exact absurd h (by simp [hkeep.closeBrace])
  · exact absurd h (by decide)
  · exact absurd h (by decide)
  · exact absurd h (by decide)

theorem lookup_map_encode (n : List UInt8) :
    (values.map fun p => (p.1, encode keep p.2)).lookup n = (values.lookup n).map (encode keep) := by
  induction values with
  | nil => rfl
  | cons p values ih =>
    obtain ⟨m, v⟩ := p
    rw [List.map_cons, List.lookup_cons, List.lookup_cons, ih]
    by_cases h : (n == m) = true <;> simp [h]

theorem lookup_eq_some_iff {β : Type} {values : List (List UInt8 × β)}
    (h : (values.map Prod.fst).Nodup) {n : List UInt8} {v : β} :
    values.lookup n = some v ↔ (n, v) ∈ values := by
  induction values with
  | nil => simp
  | cons p values ih =>
    obtain ⟨m, w⟩ := p
    rw [List.map_cons, List.nodup_cons] at h
    rw [List.lookup_cons, List.mem_cons, Prod.mk.injEq]
    by_cases hn : n = m
    · subst hn
      have hnot : (n, v) ∉ values := fun hmem => h.1 (List.mem_map.2 ⟨_, hmem, rfl⟩)
      simp [hnot, eq_comm]
    · have hne : (n == m) = false := by simpa using hn
      simp [hne, hn, ih h.2]

/-- What stands for a segment of the template. -/
theorem filled_segment (h : Assigns template values) {s : Segment} (hs : s ∈ template.segments) :
    (∃ l, s = .literal l ∧ (s.fillAll (values.map fun p => (p.1, encode keep p.2))).text = l) ∨
      ∃ n v, s = .parameter n ∧ (n, v) ∈ values ∧
        (s.fillAll (values.map fun p => (p.1, encode keep p.2))).text = encode keep v := by
  rcases s with l | n
  · exact .inl ⟨l, rfl, rfl⟩
  · obtain ⟨p, hp, rfl⟩ := List.mem_map.1 ((h.mem_iff n).2 hs)
    refine .inr ⟨p.1, p.2, rfl, hp, ?_⟩
    rw [Segment.fillAll, lookup_map_encode, (lookup_eq_some_iff h.nodup).2 hp]
    rfl

theorem mem_filled (h : Assigns template values) {t : List UInt8} (ht : t ∈ filled keep template values) :
    (∃ l, .literal l ∈ template.segments ∧ t = l) ∨ ∃ p ∈ values, t = encode keep p.2 := by
  obtain ⟨s, hs, rfl⟩ := List.mem_map.1 ht
  obtain ⟨l, rfl, hl⟩ | ⟨n, v, -, hv, ht⟩ := filled_segment h hs
  · exact .inl ⟨l, hs, hl⟩
  · exact .inr ⟨_, hv, ht⟩

variable (keep) in
theorem filled_ne_nil (template : Template) (values : List (List UInt8 × List UInt8)) : ∃ b l segs,
    filled keep template values = (b :: l) :: segs ∧ ∀ c ∈ b :: l, isNameByte c = true := by
  obtain ⟨s, segs, hs⟩ := template.first
  obtain ⟨hne, hname⟩ := template.names (.literal s) (hs ▸ List.mem_cons_self)
  obtain ⟨b, l, rfl⟩ := List.exists_cons_of_ne_nil hne
  exact ⟨b, l, _, by rw [filled, hs]; rfl, hname⟩

include hkeep in
theorem slash_notMem_filled (h : Assigns template values) :
    ∀ t ∈ filled keep template values, UrlPath.slash ∉ t := by
  intro t ht hslash
  obtain ⟨l, hl, rfl⟩ | ⟨p, -, rfl⟩ := mem_filled h ht
  · exact (isNameByte_iff ((template.names _ hl).2 _ hslash)).1 rfl
  · exact Go.slash_notMem_encode (.inl hkeep.slash) hslash

include hkeep in
theorem plain_filled (h : Assigns template values) : ∀ t ∈ filled keep template values, Plain t := by
  intro t ht
  obtain ⟨l, hl, rfl⟩ | ⟨p, -, rfl⟩ := mem_filled h ht
  · exact plain_of_names (template.names _ hl).2
  · exact plain_encode hkeep _

include hkeep in
theorem fits_filled (h : Assigns template values) :
    List.Forall₂ (Fits values) template.segments (filled keep template values) := by
  rw [filled, List.forall₂_map_right_iff, List.forall₂_same]
  intro s hs
  obtain ⟨l, rfl, hl⟩ | ⟨n, v, rfl, hv, ht⟩ := filled_segment h hs
  · exact hl
  · rw [ht]
    exact ⟨v, (lookup_eq_some_iff h.nodup).2 hv, decode?_encode hkeep.percent v⟩

theorem not_isDot_of_names {l : List UInt8} (h : ∀ b ∈ l, isNameByte b = true) : ¬ Go.IsDot l := by
  rintro (rfl | rfl) <;> exact absurd (h UrlPath.dot (by simp)) (by decide)

include hkeep in
/-- A dot segment of the path is a value that is one. -/
theorem not_isDot_filled_iff (h : Assigns template values) :
    (∀ t ∈ filled keep template values, ¬ Go.IsDot t) ↔ ∀ p ∈ values, ¬ Go.IsDot p.2 := by
  refine ⟨fun hdot p hp => ?_, fun hdot t ht => ?_⟩
  · have hmem := (h.mem_iff p.1).1 (List.mem_map.2 ⟨p, hp, rfl⟩)
    have ht := hdot _ (List.mem_map.2 ⟨_, hmem, rfl⟩)
    rw [Segment.fillAll, lookup_map_encode, (lookup_eq_some_iff h.nodup).2 hp] at ht
    exact fun hp => ht ((Go.isDot_encode_iff hkeep.percent hkeep.dot).2 hp)
  · obtain ⟨l, hl, rfl⟩ | ⟨p, hp, rfl⟩ := mem_filled h ht
    · exact not_isDot_of_names (template.names _ hl).2
    · exact fun ht => hdot p hp ((Go.isDot_encode_iff hkeep.percent hkeep.dot).1 ht)

/-- Where no segment of a request is read as a dot segment, no value is one. -/
theorem not_isDot_of_fits (h : Assigns template values) {rest : List (List UInt8)}
    (hfits : List.Forall₂ (Fits values) template.segments rest)
    (hdot : ∀ t ∈ rest, ∀ v, decode? t = some v → ¬ Go.IsDot v) : ∀ p ∈ values, ¬ Go.IsDot p.2 := by
  intro p hp
  have hmem := (h.mem_iff p.1).1 (List.mem_map.2 ⟨p, hp, rfl⟩)
  obtain ⟨t, ht, v, hv, hdec⟩ := exists_of_forall₂ hfits _ hmem
  rw [(lookup_eq_some_iff h.nodup).2 hp] at hv
  exact Option.some.inj hv ▸ hdot t ht v hdec

include hkeep in
theorem render_eq (h : Assigns template values) :
    values.foldl (fun rendered p => replaceAll (braced p.1) (encode keep p.2) rendered) template.path
      = absolute (filled keep template values) := by
  have hplain : ∀ v ∈ values.map fun p => (p.1, encode keep p.2), Plain v.1 ∧ Plain v.2 := by
    intro v hv
    obtain ⟨p, hp, rfl⟩ := List.mem_map.1 hv
    have hmem := (h.mem_iff p.1).1 (List.mem_map.2 ⟨p, hp, rfl⟩)
    exact ⟨plain_of_names (template.names _ hmem).2, plain_encode hkeep _⟩
  have hfold := foldl_replaceAll hplain fun s hs => plain_of_names (template.names s hs).2
  rw [List.foldl_map] at hfold
  rw [Template.path, hfold, pathOf, List.map_map]
  rfl

theorem filled_perm {values' : List (List UInt8 × List UInt8)} (h : Assigns template values)
    (hperm : values'.Perm values) : filled keep template values' = filled keep template values := by
  have hnodup : (values'.map Prod.fst).Nodup := (hperm.map Prod.fst).nodup_iff.2 h.nodup
  have hlookup : ∀ n, values'.lookup n = values.lookup n := fun n =>
    Option.ext fun v => by
      rw [lookup_eq_some_iff hnodup, lookup_eq_some_iff h.nodup, hperm.mem_iff]
  refine List.map_congr_left fun s _ => ?_
  rcases s with l | n
  · rfl
  · rw [Segment.fillAll, Segment.fillAll, lookup_map_encode, lookup_map_encode, hlookup]

theorem Assigns.perm {β : Type} {values values' : List (List UInt8 × β)} (h : Assigns template values)
    (hperm : values'.Perm values) : Assigns template values' where
  nodup := (hperm.map Prod.fst).nodup_iff.2 h.nodup
  mem_iff n := ((hperm.map Prod.fst).mem_iff).trans (h.mem_iff n)

end Filled

end Codegen.Requests
