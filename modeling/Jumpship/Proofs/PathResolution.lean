import Jumpship.Go.Url

/-!
# What `ResolveReference` makes of a path

The dot segments go, each `..` with the segment before it, and every other segment stays. A path
comes out of `setPath` as it went in exactly when the default escaping gives it back.
-/

namespace Go

open UrlPath

/-! ## The elements of a resolved path -/

section Elements

def IsDot (s : List UInt8) : Prop := s = [dot] ∨ s = [dot, dot]

instance decidableIsDot (s : List UInt8) : Decidable (IsDot s) := inferInstanceAs (Decidable (_ ∨ _))

/-- What one element does to the elements written so far. -/
def push (stack : List (List UInt8)) (elem : List UInt8) : List (List UInt8) :=
  if elem = [dot] then if stack = [] then [[]] else stack
  else if elem = [dot, dot] then stack.dropLast
  else stack ++ [elem]

/-- The builder that has written these elements. -/
def builderOf (stack : List (List UInt8)) : Builder :=
  ⟨slash :: [slash].intercalate stack, stack.isEmpty⟩

variable {stack elems : List (List UInt8)}

theorem intercalate_append_singleton (h : stack ≠ []) (elem : List UInt8) :
    [slash].intercalate (stack ++ [elem]) = [slash].intercalate stack ++ slash :: elem := by
  obtain ⟨s, stack, rfl⟩ := List.exists_cons_of_ne_nil h
  rw [List.cons_append, intercalate_cons, intercalate_cons]
  simp

theorem segments_intercalate (h : ∀ s ∈ stack, slash ∉ s) (hne : stack ≠ []) :
    segments ([slash].intercalate stack) = stack :=
  List.splitOn_intercalate _ h hne

theorem slash_mem_intercalate (h : ∀ s ∈ stack, slash ∉ s) :
    slash ∈ [slash].intercalate stack ↔ stack.dropLast ≠ [] := by
  rcases stack with _ | ⟨s, _ | ⟨s', stack⟩⟩
  · simp
  · simpa using h s
  · simp [intercalate_cons]

theorem step_builderOf (h : ∀ s ∈ stack, slash ∉ s) (elem : List UInt8) :
    (builderOf stack).step elem = builderOf (push stack elem) := by
  unfold Builder.step push
  by_cases h₁ : elem = [dot]
  · rw [if_pos h₁, if_pos h₁]
    split_ifs with hne
    · rw [hne]
      rfl
    · simp [builderOf, hne]
  · rw [if_neg h₁, if_neg h₁]
    by_cases h₂ : elem = [dot, dot]
    · rw [if_pos h₂, if_pos h₂]
      by_cases hdrop : stack.dropLast = []
      · have hmem : slash ∉ (builderOf stack).dst.tail := fun hs =>
          (slash_mem_intercalate h).1 hs hdrop
        simp only [if_neg hmem, hdrop]
        rfl
      · have hmem : slash ∈ (builderOf stack).dst.tail := (slash_mem_intercalate h).2 hdrop
        have hne : stack ≠ [] := by
          rintro rfl
          exact hdrop rfl
        have hbefore : beforeLastSlash (builderOf stack).dst.tail = [slash].intercalate stack.dropLast :=
          congrArg (fun segs => [slash].intercalate (List.dropLast segs)) (segments_intercalate h hne)
        simp only [if_pos hmem, hbefore]
        simp [builderOf, List.isEmpty_eq_false_iff.2 hne, List.isEmpty_eq_false_iff.2 hdrop]
    · rw [if_neg h₂, if_neg h₂]
      by_cases hne : stack = []
      · rw [hne]
        simp [builderOf]
      · simp [builderOf, hne, intercalate_append_singleton hne]

theorem notMem_push (h : ∀ s ∈ stack, slash ∉ s) {elem : List UInt8} (he : slash ∉ elem) :
    ∀ s ∈ push stack elem, slash ∉ s := by
  intro s hs
  unfold push at hs
  split_ifs at hs
  · rw [List.mem_singleton.1 hs]
    simp
  · exact h s hs
  · exact h s (List.mem_of_mem_dropLast hs)
  · rcases List.mem_append.1 hs with hs | hs
    · exact h s hs
    · rwa [List.mem_singleton.1 hs]

theorem foldl_step : ∀ {elems stack : List (List UInt8)}, (∀ s ∈ stack, slash ∉ s) →
    (∀ s ∈ elems, slash ∉ s) →
      elems.foldl Builder.step (builderOf stack) = builderOf (elems.foldl push stack)
  | [], _, _, _ => rfl
  | elem :: elems, stack, h, he => by
    rw [List.forall_mem_cons] at he
    rw [List.foldl_cons, List.foldl_cons, step_builderOf h, foldl_step (notMem_push h he.1) he.2]

theorem mem_push {elem s : List UInt8} (h : s ∈ push stack elem) :
    s ∈ stack ∨ s = [] ∨ s = elem ∧ ¬ IsDot elem := by
  unfold push at h
  split_ifs at h with h₁ _ h₂
  · exact .inr (.inl (List.mem_singleton.1 h))
  · exact .inl h
  · exact .inl (List.mem_of_mem_dropLast h)
  · rcases List.mem_append.1 h with h | h
    · exact .inl h
    · exact .inr (.inr ⟨List.mem_singleton.1 h, not_or.2 ⟨h₁, h₂⟩⟩)

theorem mem_foldl_push {s : List UInt8} : ∀ {elems stack : List (List UInt8)},
    s ∈ elems.foldl push stack → s ∈ stack ∨ s = [] ∨ s ∈ elems ∧ ¬ IsDot s
  | [], _, h => .inl h
  | elem :: elems, stack, h => by
    have h : s ∈ elems.foldl push (push stack elem) := h
    rcases mem_foldl_push h with h | h | h
    · rcases mem_push h with h | h | ⟨rfl, h⟩
      · exact .inl h
      · exact .inr (.inl h)
      · exact .inr (.inr ⟨List.mem_cons_self, h⟩)
    · exact .inr (.inl h)
    · exact .inr (.inr ⟨List.mem_cons_of_mem _ h.1, h.2⟩)

/-- Of two slashes at the start one goes. -/
def settle : List (List UInt8) → List (List UInt8)
  | [] => [[]]
  | [] :: s :: stack => s :: stack
  | stack => stack

def endsInDot (elems : List (List UInt8)) : Bool := elems.getLast?.any fun s => IsDot s

/-- The segments of the path that `resolvePath` makes of these. -/
def resolved (elems : List (List UInt8)) : List (List UInt8) :=
  settle (elems.foldl push [[]] ++ if endsInDot elems then [[]] else [])

theorem absolute_settle (h : ∀ s ∈ stack, slash ∉ s) :
    withoutDoubleSlash (slash :: [slash].intercalate stack) = absolute (settle stack) := by
  rcases stack with _ | ⟨_ | ⟨b, s⟩, _ | ⟨s', stack⟩⟩
  · rfl
  · rfl
  · rw [intercalate_cons]
    rfl
  · have hb : b ≠ slash := fun hb => h _ List.mem_cons_self (by simp [hb])
    simp [withoutDoubleSlash, settle, hb]
  · have hb : b ≠ slash := fun hb => h _ List.mem_cons_self (by simp [hb])
    simp [intercalate_cons, withoutDoubleSlash, settle, hb]

theorem resolvePath_eq {base ref : List UInt8} (hfull : fullPath base ref = absolute elems)
    (hne : elems ≠ []) (h : ∀ s ∈ elems, slash ∉ s) :
    resolvePath base ref = absolute (resolved elems) := by
  have hlast : ([] :: elems).getLast? = elems.getLast? := by
    obtain ⟨s, elems, rfl⟩ := List.exists_cons_of_ne_nil hne
    rfl
  have hnil : absolute elems ≠ [] := by
    obtain ⟨s, elems, rfl⟩ := List.exists_cons_of_ne_nil hne
    simp
  have hstack : ∀ s ∈ elems.foldl push [[]], slash ∉ s := by
    intro s hs
    rcases mem_foldl_push hs with hs | rfl | hs
    · rw [List.mem_singleton.1 hs]
      simp
    · simp
    · exact h s hs.1
  have hbuilder : ([] :: elems).foldl Builder.step ⟨[slash], true⟩
      = builderOf (elems.foldl push [[]]) := by
    have hnone : ∀ s ∈ ([] : List (List UInt8)), slash ∉ s := fun s hs => absurd hs List.not_mem_nil
    exact foldl_step hnone (List.forall_mem_cons.2 ⟨List.not_mem_nil, h⟩)
  have hdotted : endsInDot elems = true ↔
      elems.getLast? = some [dot] ∨ elems.getLast? = some [dot, dot] := by
    rw [endsInDot]
    rcases elems.getLast? with _ | s
    · simp
    · rw [Option.any_some, decide_eq_true_iff, IsDot]
      simp only [Option.some.injEq]
  unfold resolvePath
  simp only [hfull, hnil, if_false, segments_absolute h, hlast, hbuilder, ← hdotted]
  unfold resolved
  split_ifs
  · rcases eq_or_ne (elems.foldl push [[]]) [] with hst | hst
    · rw [hst]
      rfl
    · rw [builderOf, List.cons_append, ← intercalate_append_singleton hst]
      exact absolute_settle fun s hs => (List.mem_append.1 hs).elim (hstack s) fun hs => by
        simp [List.mem_singleton.1 hs]
  · rw [List.append_nil]
    exact absolute_settle hstack

/-! ### What is left and what goes -/

theorem push_of_not_isDot {elem : List UInt8} (h : ¬ IsDot elem) : push stack elem = stack ++ [elem] := by
  rw [push, if_neg fun h' => h (.inl h'), if_neg fun h' => h (.inr h')]

theorem foldl_push_of_not_isDot : ∀ {elems stack : List (List UInt8)}, (∀ s ∈ elems, ¬ IsDot s) →
    elems.foldl push stack = stack ++ elems
  | [], _, _ => (List.append_nil _).symm
  | elem :: elems, stack, h => by
    rw [List.forall_mem_cons] at h
    rw [List.foldl_cons, push_of_not_isDot h.1, foldl_push_of_not_isDot h.2, List.append_assoc]
    rfl

theorem endsInDot_append (hne : elems ≠ []) (segs : List (List UInt8)) :
    endsInDot (segs ++ elems) = endsInDot elems := by
  rw [endsInDot, List.getLast?_append_of_ne_nil _ hne, endsInDot]

theorem endsInDot_of_not_isDot (h : ∀ s ∈ elems, ¬ IsDot s) : endsInDot elems = false := by
  rw [endsInDot, Option.any_eq_false]
  intro s hs
  simpa using h s (List.mem_of_getLast? hs)

/-- Without dot segments at the end, what was kept of the rest comes first. -/
theorem resolved_append (segs : List (List UInt8)) {s : List UInt8} (hs : s ≠ [])
    (h : ∀ s' ∈ s :: elems, ¬ IsDot s') :
    ∃ kept, resolved (segs ++ s :: elems) = kept ++ s :: elems ∧
      ∀ k ∈ kept, k = [] ∨ k ∈ segs ∧ ¬ IsDot k := by
  have hmem : ∀ k ∈ segs.foldl push [[]], k = [] ∨ k ∈ segs ∧ ¬ IsDot k := by
    intro k hk
    rcases mem_foldl_push hk with hk | hk | hk
    · exact .inl (List.mem_singleton.1 hk)
    · exact .inl hk
    · exact .inr hk
  have hdot : endsInDot (segs ++ s :: elems) = false := by
    rw [endsInDot_append (by simp), endsInDot_of_not_isDot h]
  rw [resolved, hdot, if_neg (by simp), List.append_nil, List.foldl_append, foldl_push_of_not_isDot h]
  generalize segs.foldl push [[]] = stack at hmem
  rcases stack with _ | ⟨_ | ⟨b, k⟩, stack⟩
  · refine ⟨[], ?_, by simp⟩
    obtain ⟨b, s, rfl⟩ := List.exists_cons_of_ne_nil hs
    rfl
  · refine ⟨stack, ?_, fun k hk => hmem k (List.mem_cons_of_mem _ hk)⟩
    rcases stack with _ | ⟨k, stack⟩ <;> rfl
  · exact ⟨(b :: k) :: stack, rfl, hmem⟩

theorem resolved_of_not_isDot (hne : elems ≠ []) (h : ∀ s ∈ elems, ¬ IsDot s) :
    resolved elems = elems := by
  rw [resolved, endsInDot_of_not_isDot h, if_neg (by simp), List.append_nil,
    foldl_push_of_not_isDot h]
  obtain ⟨s, elems, rfl⟩ := List.exists_cons_of_ne_nil hne
  rfl

theorem settle_ne_nil (stack : List (List UInt8)) : settle stack ≠ [] := by
  rcases stack with _ | ⟨_ | ⟨b, k⟩, _ | ⟨k', stack⟩⟩ <;> simp [settle]

theorem resolved_ne_nil (elems : List (List UInt8)) : resolved elems ≠ [] := settle_ne_nil _

theorem mem_settle {s : List UInt8} (h : s ∈ settle stack) : s = [] ∨ s ∈ stack := by
  rcases stack with _ | ⟨_ | ⟨b, k⟩, _ | ⟨k', stack⟩⟩
  · exact .inl (List.mem_singleton.1 h)
  · exact .inr h
  · exact .inr (List.mem_cons_of_mem _ h)
  · exact .inr h
  · exact .inr h

theorem mem_resolved {s : List UInt8} (h : s ∈ resolved elems) : s = [] ∨ s ∈ elems ∧ ¬ IsDot s := by
  rcases mem_settle h with h | h
  · exact .inl h
  · rcases List.mem_append.1 h with h | h
    · rcases mem_foldl_push h with h | h | h
      · exact .inl (List.mem_singleton.1 h)
      · exact .inl h
      · exact .inr h
    · split_ifs at h
      · exact .inl (List.mem_singleton.1 h)
      · cases h

/-- The elements written, the empty one at the start left out. -/
def bulk (stack : List (List UInt8)) : ℕ :=
  if stack.head? = some [] then stack.length - 1 else stack.length

theorem bulk_append_singleton_le (s : List UInt8) : bulk (stack ++ [s]) ≤ bulk stack + 1 := by
  rcases stack with _ | ⟨k, stack⟩
  · unfold bulk
    split_ifs <;> simp
  · by_cases hk : k = [] <;> simp [bulk, hk]

theorem bulk_push_le (elem : List UInt8) :
    bulk (push stack elem) ≤ bulk stack + if IsDot elem then 0 else 1 := by
  by_cases h : IsDot elem
  · rw [if_pos h, Nat.add_zero]
    unfold push
    split_ifs with h₁ hst h₂
    · rw [hst]
      decide
    · exact le_rfl
    · rcases stack with _ | ⟨k, _ | ⟨k', stack⟩⟩
      · simp
      · exact Nat.zero_le _
      · by_cases hk : k = [] <;> simp [bulk, hk]
    · exact absurd h (not_or.2 ⟨h₁, h₂⟩)
  · rw [push_of_not_isDot h, if_neg h]
    exact bulk_append_singleton_le elem

theorem bulk_foldl_push_le : ∀ {elems stack : List (List UInt8)},
    bulk (elems.foldl push stack) ≤ bulk stack + elems.countP fun s => ¬ IsDot s
  | [], _ => le_rfl
  | elem :: elems, stack => by
    have ih := @bulk_foldl_push_le elems (push stack elem)
    have hstep : bulk (push stack elem) ≤ _ := bulk_push_le elem
    rw [List.foldl_cons, List.countP_cons]
    by_cases h : IsDot elem <;> simp only [h, if_true, if_false, not_true, not_false_iff, decide_true,
      decide_false, Bool.false_eq_true] at hstep ⊢ <;> omega

theorem length_settle_le : (settle stack).length ≤ max 1 (bulk stack) := by
  rcases stack with _ | ⟨_ | ⟨b, k⟩, _ | ⟨k', stack⟩⟩ <;> simp [settle, bulk]

theorem endsInDot_append_singleton (last : List UInt8) :
    endsInDot (elems ++ [last]) = decide (IsDot last) := by
  simp [endsInDot]

theorem length_resolved_le (elems : List (List UInt8)) (last : List UInt8) :
    (resolved (elems ++ [last])).length ≤ (elems.countP fun s => ¬ IsDot s) + 1 := by
  have hstack : bulk ((elems ++ [last]).foldl push [[]])
      ≤ (elems.countP fun s => ¬ IsDot s) + if IsDot last then 0 else 1 := by
    have hle : bulk (elems.foldl push [[]]) ≤ _ := bulk_foldl_push_le
    rw [List.foldl_append]
    exact (bulk_push_le last).trans (Nat.add_le_add_right (hle.trans_eq (Nat.zero_add _)) _)
  rw [resolved, endsInDot_append_singleton]
  refine length_settle_le.trans (max_le (Nat.le_add_left _ _) ?_)
  by_cases h : IsDot last
  · rw [if_pos h, Nat.add_zero] at hstack
    rw [decide_eq_true h, if_pos rfl]
    exact (bulk_append_singleton_le []).trans (Nat.add_le_add_right hstack 1)
  · rw [if_neg h] at hstack
    rwa [decide_eq_false h, if_neg (by simp), List.append_nil]

/-- A dot segment that something follows costs the path a segment. -/
theorem not_isDot_of_length_resolved {last : List UInt8}
    (hlen : elems.length + 1 ≤ (resolved (elems ++ [last])).length) : ∀ s ∈ elems, ¬ IsDot s := by
  have hle := hlen.trans (length_resolved_le elems last)
  have hcount : (elems.countP fun s => ¬ IsDot s) = elems.length :=
    le_antisymm List.countP_le_length (Nat.le_of_succ_le_succ hle)
  simpa using List.countP_eq_length.1 hcount

theorem getLast?_resolved (h : endsInDot elems = true) : (resolved elems).getLast? = some [] := by
  have hsettle : ∀ k stack, settle (k :: (stack ++ [[]])) = if k = [] then stack ++ [[]]
      else k :: (stack ++ [[]]) := by
    rintro (_ | ⟨b, k⟩) stack
    · rw [if_pos rfl]
      rcases stack with _ | ⟨k', stack⟩ <;> rfl
    · rfl
  rw [resolved, if_pos h]
  rcases elems.foldl push [[]] with _ | ⟨k, stack⟩
  · rfl
  · rw [List.cons_append, hsettle]
    split_ifs
    · exact List.getLast?_concat
    · rw [← List.cons_append]
      exact List.getLast?_concat

end Elements

/-! ## Escaped texts -/

section Escaped

variable {keep : UInt8 → Bool} {s : List UInt8}

theorem encode_absolute (h : keep slash = true) (segs : List (List UInt8)) :
    encode keep (absolute segs) = absolute (segs.map (encode keep)) := by
  induction segs with
  | nil => rfl
  | cons s segs ih =>
    have happend : encode keep (s ++ absolute segs) = encode keep s ++ encode keep (absolute segs) :=
      List.flatMap_append
    rw [absolute_cons, encode_cons, encodeByte, if_pos h, happend, ih]
    rfl

theorem decodes_encode (h : keep percent = false) (s : List UInt8) : Decodes (encode keep s) s :=
  decode?_eq_some_iff.1 (decode?_encode h s)

theorem slash_notMem_encode (h : keep slash = false ∨ slash ∉ s) : slash ∉ encode keep s := by
  intro hmem
  obtain ⟨b, hb, hmem⟩ := List.mem_flatMap.1 hmem
  have hlt := b.toNat_lt
  unfold encodeByte at hmem
  split_ifs at hmem with hk
  · obtain rfl : slash = b := by simpa using hmem
    rcases h with h | h
    · exact absurd hk (by simp [h])
    · exact h hb
  · simp only [List.mem_cons, List.not_mem_nil, or_false] at hmem
    rcases hmem with hmem | hmem | hmem
    · exact absurd hmem (by decide)
    · have := upperHex_digit (n := b.toNat / 16) (by omega)
      rw [← hmem] at this
      revert this
      decide
    · have := upperHex_digit (n := b.toNat % 16) (by omega)
      rw [← hmem] at this
      revert this
      decide

/-- Escaping makes no dot segment and hides none. -/
theorem isDot_encode_iff (hp : keep percent = false) (hd : keep dot = true) :
    IsDot (encode keep s) ↔ IsDot s := by
  have hself : ∀ t : List UInt8, (∀ b ∈ t, b = dot) → (encode keep s = t ↔ s = t) := by
    intro t ht
    have henc : encode keep t = t := encode_eq_self fun b hb => by rw [ht b hb, hd]
    refine ⟨fun h => ?_, fun h => by rw [h, henc]⟩
    have hs := decodes_encode hp s
    have ht' := decodes_encode hp t
    rw [henc, ← h] at ht'
    rw [h] at hs
    rw [← h]
    exact hs.unique (h ▸ ht')
  rw [IsDot, IsDot, hself _ (by simp), hself _ (by simp)]

end Escaped

/-! ## The path a client's base URL has -/

section Base

variable {parseAuthority : List UInt8 → Option (Bool × List UInt8)} {url : URL} {p : List UInt8}

/-- The path of a URL that has a host, as its text spells it. -/
def basePath (baseURL : List UInt8) : List UInt8 :=
  match getScheme (cut 0x23 baseURL).1 with
  | some (_, rest) => ((cut 0x3F rest).1.drop 2).dropWhile (· ≠ slash)
  | none => []

theorem setPath_spec (h : url.setPath p = some url') :
    ∃ path, Decodes p path ∧
      url' = { url with path, rawPath := if p = encode keepsPath path then [] else p } := by
  obtain ⟨path, hpath, h⟩ := Option.bind_eq_some_iff.1 h
  exact ⟨path, decode?_eq_some_iff.1 hpath, (Option.some.inj h).symm⟩

theorem setPath_eq {path : List UInt8} (h : Decodes p path) :
    url.setPath p = some { url with path, rawPath := if p = encode keepsPath path then [] else p } := by
  rw [URL.setPath, unescape, decode?_eq_some_iff.2 h]
  rfl

/-- A valid spelling is written again as it was read. -/
theorem escapedPath_setPath {path : List UInt8} (h : Decodes p path) (hvalid : validEncoded p = true)
    (hne : p ≠ []) (hstar : path ≠ [0x2A]) :
    URL.escapedPath { url with path, rawPath := if p = encode keepsPath path then [] else p } = p := by
  unfold URL.escapedPath
  by_cases henc : p = encode keepsPath path
  · simp only [if_pos henc, ne_eq, not_true, false_and, if_false, if_neg hstar]
    exact henc.symm
  · simp only [if_neg henc]
    rw [if_pos ⟨hne, hvalid, decode?_eq_some_iff.2 h⟩]

theorem parseWithoutFragment_spec {rawURL : List UInt8}
    (h : parseWithoutFragment parseAuthority rawURL = some url) (hhost : url.host ≠ []) :
    ∃ scheme rest path, getScheme rawURL = some (scheme, rest) ∧
      Decodes (((cut 0x3F rest).1.drop 2).dropWhile (· ≠ slash)) path ∧ url.path = path ∧
        url.rawPath = (if ((cut 0x3F rest).1.drop 2).dropWhile (· ≠ slash) = encode keepsPath path
          then [] else ((cut 0x3F rest).1.drop 2).dropWhile (· ≠ slash)) := by
  have hset : ∀ {url' : URL} {p}, url'.host = [] → url'.setPath p = some url → False := by
    intro url' p hnil hset
    obtain ⟨path, -, rfl⟩ := setPath_spec hset
    exact hhost hnil
  unfold parseWithoutFragment at h
  split_ifs at h with h₁ h₂
  · obtain rfl := Option.some.inj h
    exact absurd rfl hhost
  · obtain ⟨⟨scheme, rest⟩, hscheme, h⟩ := Option.bind_eq_some_iff.1 h
    dsimp only at h
    split_ifs at h
    · rw [List.span_eq_takeWhile_dropWhile] at h
      obtain ⟨⟨user, host⟩, -, h⟩ := Option.bind_eq_some_iff.1 h
      obtain ⟨path, hpath, rfl⟩ := setPath_spec h
      exact ⟨scheme, rest, path, hscheme, hpath, rfl, rfl⟩
    · exact (hset rfl h).elim
    · obtain rfl := Option.some.inj h
      exact absurd rfl hhost
    · exact (hset rfl h).elim

theorem parse_spec (h : parse parseAuthority baseURL = some url) (hhost : url.host ≠ []) :
    ∃ path, Decodes (basePath baseURL) path ∧ url.path = path ∧
      url.rawPath = (if basePath baseURL = encode keepsPath path then [] else basePath baseURL) := by
  obtain ⟨u, hu, h⟩ := Option.bind_eq_some_iff.1 h
  obtain ⟨fragment, -, h⟩ := Option.bind_eq_some_iff.1 h
  obtain rfl := Option.some.inj h
  obtain ⟨scheme, rest, path, hscheme, hpath, hurl, hraw⟩ := parseWithoutFragment_spec hu hhost
  have hcut : getScheme (cut 0x23 baseURL).1 = some (scheme, rest) := hscheme
  have hbase : basePath baseURL = ((cut 0x3F rest).1.drop 2).dropWhile (· ≠ slash) := by
    rw [basePath, hcut]
  rw [hbase]
  exact ⟨path, hpath, hurl, hraw⟩

theorem basePath_eq (baseURL : List UInt8) :
    basePath baseURL = [] ∨ ∃ q, basePath baseURL = slash :: q := by
  unfold basePath
  split
  · rename_i rest _
    rcases h : ((cut 0x3F rest).1.drop 2).dropWhile (· ≠ slash) with _ | ⟨b, q⟩
    · exact .inl rfl
    · have hb := List.head?_dropWhile_not (· ≠ slash) ((cut 0x3F rest).1.drop 2)
      rw [h] at hb
      simp only [List.head?_cons, decide_eq_false_iff_not, ne_eq, not_not] at hb
      exact .inr ⟨q, by rw [hb]⟩
  · exact .inl rfl

end Base

/-! ## Relative references -/

section Relative

variable {parseAuthority : List UInt8 → Option (Bool × List UInt8)} {l t : List UInt8}

theorem cut_of_notMem {separator : UInt8} {s : List UInt8} (h : separator ∉ s) :
    cut separator s = (s, []) := by
  have hall : ∀ b ∈ s, decide (b ≠ separator) = true := by
    intro b hb
    rw [decide_eq_true_iff]
    rintro rfl
    exact h hb
  rw [cut, List.span_eq_takeWhile_dropWhile, List.takeWhile_eq_self_iff.2 hall,
    List.dropWhile_eq_nil_iff.2 hall]
  rfl

/-- A first segment without a colon is no scheme. -/
theorem getScheme_relative (hl : ∀ b ∈ l, b ≠ 0x3A) (ht : t = [] ∨ ∃ t', t = slash :: t') :
    getScheme (l ++ t) = some ([], l ++ t) := by
  have hspan := List.takeWhile_append_dropWhile (p := isSchemeByte) (l := l ++ t)
  unfold getScheme
  rw [List.span_eq_takeWhile_dropWhile]
  split
  · rename_i scheme rest heq
    exfalso
    rw [Prod.mk.injEq] at heq
    rw [heq.2] at hspan
    have hscheme : ∀ b ∈ (l ++ t).takeWhile isSchemeByte, isSchemeByte b = true := fun b hb =>
      List.mem_takeWhile_imp hb
    have hcolon : ∀ u : List UInt8, t ≠ 0x3A :: u := by
      rintro u rfl
      rcases ht with ht | ⟨t', ht⟩
      · cases ht
      · exact absurd (List.cons.inj ht).1 (by decide)
    obtain ⟨a, hla, ha⟩ | ⟨a, ha, ht'⟩ := List.append_eq_append_iff.1 hspan
    · rcases a with _ | ⟨c, a⟩
      · exact hcolon _ ha.symm
      · have hc : c ∈ l := by
          rw [hla]
          exact List.mem_append_right _ List.mem_cons_self
        exact hl c hc (List.cons.inj ha).1.symm
    · rcases a with _ | ⟨c, a⟩
      · exact hcolon _ ht'
      · rcases ht with rfl | ⟨t', rfl⟩
        · cases ht'
        · have hc := hscheme c (by simp [ha])
          rw [← (List.cons.inj ht').1] at hc
          exact absurd hc (by decide)
  · rfl

theorem parse_relative {path : List UInt8} (hne : l ≠ []) (hl : ∀ b ∈ l, b ≠ 0x3A ∧ b ≠ slash)
    (ht : t = [] ∨ ∃ t', t = slash :: t') (hstar : l ++ t ≠ [0x2A])
    (hplain : ∀ b ∈ l ++ t, isControl b = false ∧ b ≠ 0x23 ∧ b ≠ 0x3F) (h : Decodes (l ++ t) path) :
    parse parseAuthority (l ++ t) =
      some { path, rawPath := if l ++ t = encode keepsPath path then [] else l ++ t } := by
  have hcut : ∀ separator, (separator = 0x23 ∨ separator = 0x3F) →
      cut separator (l ++ t) = (l ++ t, []) := by
    rintro separator (rfl | rfl)
    · exact cut_of_notMem fun hb => (hplain _ hb).2.1 rfl
    · exact cut_of_notMem fun hb => (hplain _ hb).2.2 rfl
  have hcontrol : (l ++ t).any isControl = false := by
    rw [List.any_eq_false]
    intro b hb
    simp [(hplain b hb).1]
  have hslash : ¬ [slash] <+: l ++ t := by
    obtain ⟨b, l, rfl⟩ := List.exists_cons_of_ne_nil hne
    rintro ⟨u, hu⟩
    exact (hl b List.mem_cons_self).2 (List.cons.inj hu).1.symm
  have hfirst : 0x3A ∉ (cut slash (l ++ t)).1 := by
    have hall : ∀ b ∈ l, decide (b ≠ slash) = true := fun b hb => decide_eq_true (hl b hb).2
    rw [cut, List.span_eq_takeWhile_dropWhile, List.takeWhile_append_of_pos hall]
    have hstop : t.takeWhile (· ≠ slash) = [] := by
      rcases ht with rfl | ⟨t', rfl⟩
      · rfl
      · simp
    rw [hstop, List.append_nil]
    exact fun hb => (hl _ hb).1 rfl
  have hscheme := getScheme_relative (fun b hb => (hl b hb).1) ht
  have hparse : parseWithoutFragment parseAuthority (l ++ t) =
      some { path, rawPath := if l ++ t = encode keepsPath path then [] else l ++ t } := by
    unfold parseWithoutFragment
    rw [hcontrol, if_neg (by simp), if_neg hstar, hscheme]
    simp only [Option.bind_eq_bind, Option.bind_some, hcut 0x3F (.inr rfl), hslash, not_false_iff,
      if_true, toLower, List.map_nil, ne_eq, not_true, if_false, hfirst]
    exact setPath_eq h
  rw [parse, hcut 0x23 (.inl rfl)]
  simp only [Option.bind_eq_bind, hparse, Option.bind_some]
  rfl

/-- A relative path is resolved against the base's path, and nothing else of the base changes. -/
theorem resolveReference_relative (u : URL) {path rawPath query : List UInt8} (hpath : path ≠ []) :
    u.resolveReference { path, rawPath, rawQuery := query }
      = URL.setResolved { scheme := u.scheme, host := u.host, user := u.user, path, rawPath, rawQuery := query }
        (resolvePath u.escapedPath (URL.escapedPath { path, rawPath, rawQuery := query })) := by
  unfold URL.resolveReference
  simp [hpath]

end Relative

end Go
