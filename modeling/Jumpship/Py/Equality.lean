import Jumpship.Py.Value

/-!
# Equality of values

`==` on what `json` reads. Elements of lists and values of dicts are equal when they are one object
or `==`, and every nan `json` reads is one object.
-/

namespace Py

/-- `left == right` -/
def Number.equal : Number → Number → Bool
  | .float (.inf l), .float (.inf r) => l = r
  | l, r => l.sameValue r

/-- `left is right or left == right` -/
def Number.same (left right : Number) : Bool := left.isNan && right.isNan || left.equal right

mutual
/-- `left is right or left == right` -/
def same : Value → Value → Bool
  | .null, w =>
    match w with
    | .null => true
    | _ => false
  | .bool b, w => (number? w).any (Number.same (.int b.toNat))
  | .num n, w => (number? w).any n.same
  | .str s, w =>
    match w with
    | .str t => s = t
    | _ => false
  | .arr xs, w =>
    match w with
    | .arr ys => sameList xs ys
    | _ => false
  | .obj ms, w =>
    match w with
    | .obj ns => ms.length = ns.length && sameMembers ms ns
    | _ => false
def sameList : List Value → List Value → Bool
  | [], ys => ys.isEmpty
  | x :: xs, ys =>
    match ys with
    | [] => false
    | y :: ys => same x y && sameList xs ys
def sameMembers : List (Str × Value) → Dict → Bool
  | [], _ => true
  | (k, x) :: ms, ns => (ns.lookup k).any (same x) && sameMembers ms ns
end

def isNan : Value → Bool
  | .num n => n.isNan
  | _ => false

/-- `left == right` -/
def equal (left right : Value) : Bool := !isNan left && same left right

/-! ## Sameness is an equivalence -/

section Same

theorem Number.same_refl (n : Number) : n.same n = true := by
  rcases n with n | x | _ | b | _ <;> simp [Number.same, Number.isNan, Number.equal,
    Number.sameValue, Number.value?]

theorem Number.equal_iff {m n : Number} : m.equal n = true ↔
    (∃ q, m.value? = some q ∧ n.value? = some q) ∨
      ∃ b, m = .float (.inf b) ∧ n = .float (.inf b) := by
  rcases m with m | x | _ | b | _ <;> rcases n with n | y | _ | c | _ <;>
    simp [Number.equal, Number.sameValue, Number.value?, eq_comm]

theorem Number.same_trans {l m n : Number} (h : l.same m = true) (h' : m.same n = true) :
    l.same n = true := by
  unfold Number.same at *
  simp only [Bool.or_eq_true, Bool.and_eq_true, Number.equal_iff] at *
  obtain ⟨hl, hm⟩ | ⟨q, hl, hm⟩ | ⟨b, rfl, rfl⟩ := h
  · obtain ⟨-, hn⟩ | ⟨q, hm', -⟩ | ⟨b, rfl, rfl⟩ := h'
    · exact .inl ⟨hl, hn⟩
    · rcases m with m | x | _ | b | _ <;> simp [Number.isNan, Number.value?] at hm hm'
    · simp [Number.isNan] at hm
  · obtain ⟨hm', hn⟩ | ⟨q', hm', hn⟩ | ⟨b, rfl, rfl⟩ := h'
    · rcases m with m | x | _ | b | _ <;> simp [Number.isNan, Number.value?] at hm hm'
    · exact .inr (.inl ⟨q, hl, by rw [hn, ← hm', hm]⟩)
    · simp [Number.value?] at hm
  · obtain ⟨hm', hn⟩ | ⟨q', hm', hn⟩ | ⟨b', hb, rfl⟩ := h'
    · simp [Number.isNan] at hm'
    · simp [Number.value?] at hm'
    · exact .inr (.inr ⟨b, rfl, hb.symm⟩)

theorem sameMembers_iff {ms ns : Dict} : sameMembers ms ns = true ↔
    ∀ m ∈ ms, ∃ w, ns.lookup m.1 = some w ∧ same m.2 w = true := by
  induction ms with
  | nil => simp [sameMembers]
  | cons m ms ih => simp [sameMembers, ih, Option.any_eq_true]

theorem number?_same {v w : Value} {n : Number} (hv : number? v = some n) :
    same v w = (number? w).any n.same := by
  cases v <;> simp [number?] at hv <;> subst hv <;> simp [same]

theorem same_refl (v : Value) : v.Distinct → same v v = true := by
  induction v using Json.induct with
  | null => intro _; rfl
  | bool b => intro _; simp [same, number?, Number.same_refl]
  | num n => intro _; simp [same, number?, Number.same_refl]
  | str s => intro _; simp [same]
  | arr xs ih =>
    intro h
    rw [Json.distinct_arr] at h
    rw [same]
    induction xs with
    | nil => rfl
    | cons x xs ihxs =>
      obtain ⟨hx, hxs⟩ := List.forall_mem_cons.1 h
      rw [sameList, ih x List.mem_cons_self hx,
        ihxs (fun y hy => ih y (List.mem_cons_of_mem _ hy)) hxs]
      rfl
  | obj ms ih =>
    intro h
    rw [Json.distinct_obj] at h
    have hmembers : sameMembers ms ms = true := sameMembers_iff.2 fun m hm =>
      ⟨m.2, Json.lookup_of_mem h.1 hm, ih m hm (h.2 m hm)⟩
    simp [same, hmembers]

theorem same_trans (v : Value) : ∀ w u, same v w = true → same w u = true → same v u = true := by
  induction v using Json.induct with
  | null =>
    intro w u h h'
    cases w <;> simp [same] at h
    exact h'
  | bool b =>
    intro w u h h'
    rw [number?_same (n := .int b.toNat) rfl] at h ⊢
    obtain ⟨m, hm, hsame⟩ := (Option.any_eq_true _ _).1 h
    rw [number?_same hm] at h'
    obtain ⟨n, hn, hsame'⟩ := (Option.any_eq_true _ _).1 h'
    exact (Option.any_eq_true _ _).2 ⟨n, hn, Number.same_trans hsame hsame'⟩
  | num n =>
    intro w u h h'
    rw [number?_same (n := n) rfl] at h ⊢
    obtain ⟨m, hm, hsame⟩ := (Option.any_eq_true _ _).1 h
    rw [number?_same hm] at h'
    obtain ⟨n', hn, hsame'⟩ := (Option.any_eq_true _ _).1 h'
    exact (Option.any_eq_true _ _).2 ⟨n', hn, Number.same_trans hsame hsame'⟩
  | str s =>
    intro w u h h'
    cases w <;> simp [same] at h
    rw [h]
    exact h'
  | arr xs ih =>
    intro w u h h'
    cases w <;> simp [same] at h
    cases u <;> simp [same] at h'
    rename_i ys zs
    rw [same]
    induction xs generalizing ys zs with
    | nil =>
      cases ys <;> simp [sameList] at h
      exact h'
    | cons x xs ihxs =>
      cases ys <;> simp [sameList] at h
      cases zs <;> simp [sameList] at h'
      rw [sameList, ih x List.mem_cons_self _ _ h.1 h'.1,
        ihxs (fun y hy => ih y (List.mem_cons_of_mem _ hy)) _ h.2 _ h'.2]
      rfl
  | obj ms ih =>
    intro w u h h'
    cases w <;> simp [same] at h
    cases u <;> simp [same] at h'
    rename_i ns os
    have hmembers : sameMembers ms os = true := by
      refine sameMembers_iff.2 fun m hm => ?_
      obtain ⟨x, hx, hsame⟩ := sameMembers_iff.1 h.2 m hm
      obtain ⟨y, hy, hsame'⟩ := sameMembers_iff.1 h'.2 _ (Json.mem_of_lookup hx)
      exact ⟨y, hy, ih m hm _ _ hsame hsame'⟩
    simp [same, h.1, h'.1, hmembers]

/-- A dict with as many keys as another that has all of them has all of the other's. -/
theorem names_subset_of_same {ms ns : Dict} (hms : (Json.names ms).Nodup)
    (hlength : ms.length = ns.length) (h : Json.names ms ⊆ Json.names ns) :
    Json.names ns ⊆ Json.names ms := by
  have hperm : (Json.names ms).Perm (Json.names ns) :=
    (List.subperm_of_subset hms h).perm_of_length_le (by simp [Json.names, hlength])
  exact hperm.symm.subset

theorem Number.same_symm {m n : Number} (h : m.same n = true) : n.same m = true := by
  unfold Number.same at *
  simp only [Bool.or_eq_true, Bool.and_eq_true, Number.equal_iff] at *
  obtain ⟨hm, hn⟩ | ⟨q, hm, hn⟩ | ⟨b, hm, hn⟩ := h
  · exact .inl ⟨hn, hm⟩
  · exact .inr (.inl ⟨q, hn, hm⟩)
  · exact .inr (.inr ⟨b, hn, hm⟩)

theorem same_symm (v : Value) : ∀ w, v.Distinct → w.Distinct → same v w = true →
    same w v = true := by
  induction v using Json.induct with
  | null =>
    intro w _ _ h
    cases w <;> simp [same] at h
    rfl
  | bool b =>
    intro w _ _ h
    rw [number?_same (n := .int b.toNat) rfl] at h
    obtain ⟨m, hm, hsame⟩ := (Option.any_eq_true _ _).1 h
    rw [number?_same hm]
    exact (Option.any_eq_true _ _).2 ⟨_, rfl, Number.same_symm hsame⟩
  | num n =>
    intro w _ _ h
    rw [number?_same (n := n) rfl] at h
    obtain ⟨m, hm, hsame⟩ := (Option.any_eq_true _ _).1 h
    rw [number?_same hm]
    exact (Option.any_eq_true _ _).2 ⟨_, rfl, Number.same_symm hsame⟩
  | str s =>
    intro w _ _ h
    cases w <;> simp [same] at h
    simp [same, h]
  | arr xs ih =>
    intro w hv hw h
    cases w <;> simp [same] at h
    rename_i ys
    rw [Json.distinct_arr] at hv hw
    rw [same]
    induction xs generalizing ys with
    | nil =>
      cases ys <;> simp [sameList] at h
      rfl
    | cons x xs ihxs =>
      cases ys <;> simp [sameList] at h
      obtain ⟨hx, hxs⟩ := List.forall_mem_cons.1 hv
      obtain ⟨hy, hys⟩ := List.forall_mem_cons.1 hw
      rw [sameList, ih x List.mem_cons_self _ hx hy h.1,
        ihxs (fun z hz => ih z (List.mem_cons_of_mem _ hz)) hxs _ hys h.2]
      rfl
  | obj ms ih =>
    intro w hv hw h
    cases w <;> simp [same] at h
    rename_i ns
    rw [Json.distinct_obj] at hv hw
    obtain ⟨hlength, hmembers⟩ := h
    rw [sameMembers_iff] at hmembers
    have hsubset : Json.names ms ⊆ Json.names ns := by
      intro k hk
      obtain ⟨v, hv⟩ := Json.mem_names.1 hk
      obtain ⟨w, hw, -⟩ := hmembers _ hv
      exact Json.mem_names.2 ⟨w, Json.mem_of_lookup hw⟩
    have hback : sameMembers ns ms = true := sameMembers_iff.2 fun m hm => by
      obtain ⟨v, hkv⟩ := Json.mem_names.1 (names_subset_of_same hv.1 hlength hsubset
        (Json.mem_names_of_mem hm))
      obtain ⟨w, hkw, hsame⟩ := hmembers _ hkv
      obtain rfl : w = m.2 := Option.some.inj (hkw.symm.trans (Json.lookup_of_mem hw.1 hm))
      exact ⟨v, Json.lookup_of_mem hv.1 hkv, ih _ hkv _ (hv.2 _ hkv) (hw.2 _ hm) hsame⟩
    simp [same, hlength, hback]

theorem equal_symm {v w : Value} (hv : v.Distinct) (hw : w.Distinct) (h : equal v w = true) :
    equal w v = true := by
  simp only [equal, Bool.and_eq_true, Bool.not_eq_true'] at *
  refine ⟨?_, same_symm v w hv hw h.2⟩
  by_contra hnan
  have hw : ∃ n : Number, w = .num n ∧ n.isNan = true := by
    cases w <;> simp [isNan] at hnan
    exact ⟨_, rfl, hnan⟩
  obtain ⟨n, rfl, hn⟩ := hw
  have hsame := h.2
  cases v <;> simp [same, number?, Number.same, Number.isNan] at hsame
  · rcases n with n | x | _ | _ | _ <;> simp [Number.isNan, Number.equal, Number.sameValue,
      Number.value?] at hn hsame
  · rename_i m
    rcases n with n | x | _ | _ | _ <;> rcases m with m | y | _ | _ | _ <;>
      simp [Number.isNan, Number.equal, Number.sameValue, Number.value?, isNan] at hn hsame h

theorem equal_refl {v : Value} (hv : v.Distinct) (hnan : isNan v = false) : equal v v = true := by
  simp [equal, hnan, same_refl v hv]

theorem equal_trans {v w u : Value} (h : equal v w = true) (h' : equal w u = true) :
    equal v u = true := by
  simp only [equal, Bool.and_eq_true] at *
  exact ⟨h.1, same_trans v w u h.2 h'.2⟩

end Same

end Py
