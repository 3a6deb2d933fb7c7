import Mathlib

/-!
# JSON values

`Json σ ν` are the values of RFC 8259 with strings in `σ` and numbers in `ν`. An object keeps its
members in the order they were written; `Same` compares objects as finite maps.

`sortMembers` puts the members of every object in key order. On values whose objects repeat no
name, two are the same exactly when they sort alike (`same_iff_sortMembers`).
-/

inductive Json (σ ν : Type) where
  | null
  | bool (b : Bool)
  | num (n : ν)
  | str (s : σ)
  | arr (xs : List (Json σ ν))
  | obj (ms : List (σ × Json σ ν))

namespace Json

variable {σ ν μ : Type}

/-- Induction with the children of an array or object as members of its list. -/
@[elab_as_elim, induction_eliminator]
theorem induct {P : Json σ ν → Prop} (null : P .null) (bool : ∀ b, P (.bool b))
    (num : ∀ n, P (.num n)) (str : ∀ s, P (.str s))
    (arr : ∀ xs, (∀ x ∈ xs, P x) → P (.arr xs))
    (obj : ∀ ms, (∀ m ∈ ms, P m.2) → P (.obj ms)) : ∀ v, P v :=
  @Json.rec σ ν P (fun xs => ∀ x ∈ xs, P x) (fun ms => ∀ m ∈ ms, P m.2) (fun m => P m.2)
    null bool num str arr obj (by simp)
    (fun _ _ hx hxs => List.forall_mem_cons.2 ⟨hx, hxs⟩) (by simp)
    (fun _ _ hm hms => List.forall_mem_cons.2 ⟨hm, hms⟩) (fun _ _ h => h)

/-! ## Members -/

section Members

variable {α β : Type}

/-- The names of an object's members. -/
def names (ms : List (σ × α)) : List σ := ms.map Prod.fst

instance decidableMemNames [DecidableEq σ] (k : σ) (ms : List (σ × α)) : Decidable (k ∈ names ms) :=
  inferInstanceAs (Decidable (k ∈ ms.map Prod.fst))

@[simp] theorem names_nil : names ([] : List (σ × α)) = [] := rfl

@[simp] theorem names_cons (m : σ × α) (ms : List (σ × α)) : names (m :: ms) = m.1 :: names ms :=
  rfl

@[simp] theorem names_append (ms ns : List (σ × α)) : names (ms ++ ns) = names ms ++ names ns :=
  List.map_append

theorem mem_names {ms : List (σ × α)} {k : σ} : k ∈ names ms ↔ ∃ v, (k, v) ∈ ms := by
  simp [names]

theorem mem_names_of_mem {ms : List (σ × α)} {m : σ × α} (h : m ∈ ms) : m.1 ∈ names ms :=
  List.mem_map_of_mem h

variable [BEq σ] [LawfulBEq σ]

@[simp] theorem lookup_cons_self (k : σ) (v : α) (ms : List (σ × α)) :
    ((k, v) :: ms).lookup k = some v := by
  simp

theorem lookup_cons_ne {k : σ} {m : σ × α} (h : k ≠ m.1) (ms : List (σ × α)) :
    (m :: ms).lookup k = ms.lookup k := by
  rw [List.lookup_cons, beq_false_of_ne h]

theorem lookup_cons_eq [DecidableEq σ] (k : σ) (m : σ × α) (ms : List (σ × α)) :
    (m :: ms).lookup k = if k = m.1 then some m.2 else ms.lookup k := by
  by_cases h : k = m.1
  · rw [if_pos h, h]
    exact lookup_cons_self m.1 m.2 ms
  · rw [lookup_cons_ne h, if_neg h]

theorem mem_of_lookup {ms : List (σ × α)} {k : σ} {v : α} (h : ms.lookup k = some v) :
    (k, v) ∈ ms := by
  induction ms with
  | nil => simp at h
  | cons m ms ih =>
    by_cases hk : k = m.1
    · subst hk
      rw [lookup_cons_self] at h
      exact Option.some.inj h ▸ List.mem_cons_self
    · rw [lookup_cons_ne hk] at h
      exact List.mem_cons_of_mem _ (ih h)

theorem lookup_of_mem {ms : List (σ × α)} (hnd : (names ms).Nodup) {k : σ} {v : α}
    (h : (k, v) ∈ ms) : ms.lookup k = some v := by
  induction ms with
  | nil => simp at h
  | cons m ms ih =>
    rw [names_cons, List.nodup_cons] at hnd
    rcases List.mem_cons.1 h with rfl | h
    · exact lookup_cons_self k v ms
    · have hk : k ≠ m.1 := fun hk => hnd.1 (hk ▸ mem_names_of_mem h)
      rw [lookup_cons_ne hk]
      exact ih hnd.2 h

theorem lookup_eq_some {ms : List (σ × α)} (hnd : (names ms).Nodup) {k : σ} {v : α} :
    ms.lookup k = some v ↔ (k, v) ∈ ms :=
  ⟨mem_of_lookup, lookup_of_mem hnd⟩

theorem lookup_eq_none {ms : List (σ × α)} {k : σ} : ms.lookup k = none ↔ k ∉ names ms := by
  induction ms with
  | nil => simp
  | cons m ms ih =>
    by_cases hk : k = m.1
    · subst hk
      simp
    · rw [lookup_cons_ne hk, ih, names_cons, List.mem_cons, not_or]
      exact (and_iff_right hk).symm

end Members

/-! ## Objects that repeat no name -/

section Distinct

mutual
/-- No object in the value repeats a name. -/
def Distinct : Json σ ν → Prop
  | .null | .bool _ | .num _ | .str _ => True
  | .arr xs => DistinctList xs
  | .obj ms => (names ms).Nodup ∧ DistinctMembers ms
def DistinctList : List (Json σ ν) → Prop
  | [] => True
  | x :: xs => x.Distinct ∧ DistinctList xs
def DistinctMembers : List (σ × Json σ ν) → Prop
  | [] => True
  | (_, x) :: ms => x.Distinct ∧ DistinctMembers ms
end

mutual
def decidableDistinct [DecidableEq σ] : (v : Json σ ν) → Decidable v.Distinct
  | .null | .bool _ | .num _ | .str _ => .isTrue trivial
  | .arr xs => decidableDistinctList xs
  | .obj ms => @instDecidableAnd _ _ inferInstance (decidableDistinctMembers ms)
def decidableDistinctList [DecidableEq σ] : (xs : List (Json σ ν)) → Decidable (DistinctList xs)
  | [] => .isTrue trivial
  | x :: xs => @instDecidableAnd _ _ (decidableDistinct x) (decidableDistinctList xs)
def decidableDistinctMembers [DecidableEq σ] :
    (ms : List (σ × Json σ ν)) → Decidable (DistinctMembers ms)
  | [] => .isTrue trivial
  | (_, x) :: ms => @instDecidableAnd _ _ (decidableDistinct x) (decidableDistinctMembers ms)
end

instance instDecidableDistinct [DecidableEq σ] (v : Json σ ν) : Decidable v.Distinct :=
  decidableDistinct v

theorem distinctList_iff {xs : List (Json σ ν)} : DistinctList xs ↔ ∀ x ∈ xs, x.Distinct := by
  induction xs with
  | nil => simp [DistinctList]
  | cons x xs ih => simp [DistinctList, ih]

theorem distinctMembers_iff {ms : List (σ × Json σ ν)} :
    DistinctMembers ms ↔ ∀ m ∈ ms, m.2.Distinct := by
  induction ms with
  | nil => simp [DistinctMembers]
  | cons m ms ih => simp [DistinctMembers, ih]

@[simp] theorem distinct_arr {xs : List (Json σ ν)} :
    (arr xs).Distinct ↔ ∀ x ∈ xs, x.Distinct := by
  rw [Distinct, distinctList_iff]

@[simp] theorem distinct_obj {ms : List (σ × Json σ ν)} :
    (obj ms).Distinct ↔ (names ms).Nodup ∧ ∀ m ∈ ms, m.2.Distinct := by
  rw [Distinct, distinctMembers_iff]

end Distinct

/-! ## Numbers -/

section MapNum

mutual
/-- The value with its numbers replaced by `f`, none where `f` fails. -/
def mapNum (f : ν → Option μ) : Json σ ν → Option (Json σ μ)
  | .null => some .null
  | .bool b => some (.bool b)
  | .num n => (f n).map .num
  | .str s => some (.str s)
  | .arr xs => (mapNumList f xs).map .arr
  | .obj ms => (mapNumMembers f ms).map .obj
def mapNumList (f : ν → Option μ) : List (Json σ ν) → Option (List (Json σ μ))
  | [] => some []
  | x :: xs => do
    let y ← x.mapNum f
    let ys ← mapNumList f xs
    some (y :: ys)
def mapNumMembers (f : ν → Option μ) : List (σ × Json σ ν) → Option (List (σ × Json σ μ))
  | [] => some []
  | (k, x) :: ms => do
    let y ← x.mapNum f
    let ns ← mapNumMembers f ms
    some ((k, y) :: ns)
end

theorem mapNumList_cons {f : ν → Option μ} {x : Json σ ν} {xs : List (Json σ ν)}
    {zs : List (Json σ μ)} : mapNumList f (x :: xs) = some zs ↔
      ∃ y ys, x.mapNum f = some y ∧ mapNumList f xs = some ys ∧ zs = y :: ys := by
  simp only [mapNumList, Option.bind_eq_bind, Option.bind_eq_some_iff, Option.some.injEq]
  constructor
  · rintro ⟨y, hy, ys, hys, rfl⟩
    exact ⟨y, ys, hy, hys, rfl⟩
  · rintro ⟨y, ys, hy, hys, rfl⟩
    exact ⟨y, hy, ys, hys, rfl⟩

theorem mapNumMembers_cons {f : ν → Option μ} {k : σ} {x : Json σ ν} {ms : List (σ × Json σ ν)}
    {zs : List (σ × Json σ μ)} : mapNumMembers f ((k, x) :: ms) = some zs ↔
      ∃ y ns, x.mapNum f = some y ∧ mapNumMembers f ms = some ns ∧ zs = (k, y) :: ns := by
  simp only [mapNumMembers, Option.bind_eq_bind, Option.bind_eq_some_iff, Option.some.injEq]
  constructor
  · rintro ⟨y, hy, ns, hns, rfl⟩
    exact ⟨y, ns, hy, hns, rfl⟩
  · rintro ⟨y, ns, hy, hns, rfl⟩
    exact ⟨y, hy, ns, hns, rfl⟩

theorem names_of_mapNumMembers {f : ν → Option μ} : ∀ {ms : List (σ × Json σ ν)}
    {ns : List (σ × Json σ μ)}, mapNumMembers f ms = some ns → names ns = names ms
  | [], ns, h => by
    simp only [mapNumMembers, Option.some.injEq] at h
    rw [← h]
    rfl
  | (k, x) :: ms, ns, h => by
    obtain ⟨y, ns', -, hns, rfl⟩ := mapNumMembers_cons.1 h
    rw [names_cons, names_cons, names_of_mapNumMembers hns]

/-- Replacing numbers keeps the names of every object. -/
theorem distinct_mapNum {f : ν → Option μ} (v : Json σ ν) :
    ∀ w, v.mapNum f = some w → (w.Distinct ↔ v.Distinct) := by
  induction v with
  | null | bool b | str s =>
    intro w h
    simp only [mapNum, Option.some.injEq] at h
    subst h
    simp [Distinct]
  | num n =>
    intro w h
    obtain ⟨m, -, rfl⟩ := Option.map_eq_some_iff.1 h
    simp [Distinct]
  | arr xs ih =>
    intro w h
    obtain ⟨ys, hys, rfl⟩ := Option.map_eq_some_iff.1 h
    rw [distinct_arr, distinct_arr]
    clear h
    induction xs generalizing ys with
    | nil =>
      simp only [mapNumList, Option.some.injEq] at hys
      subst hys
      simp
    | cons x xs ihxs =>
      obtain ⟨y, ys', hy, hys', rfl⟩ := mapNumList_cons.1 hys
      rw [List.forall_mem_cons, List.forall_mem_cons, ih x List.mem_cons_self y hy,
        ihxs (fun z hz => ih z (List.mem_cons_of_mem _ hz)) ys' hys']
  | obj ms ih =>
    intro w h
    obtain ⟨ns, hns, rfl⟩ := Option.map_eq_some_iff.1 h
    rw [distinct_obj, distinct_obj, names_of_mapNumMembers hns]
    have hiff : (∀ m ∈ ns, m.2.Distinct) ↔ ∀ m ∈ ms, m.2.Distinct := ?_
    · rw [hiff]
    clear h
    induction ms generalizing ns with
    | nil =>
      simp only [mapNumMembers, Option.some.injEq] at hns
      subst hns
      simp
    | cons m ms ihms =>
      obtain ⟨k, x⟩ := m
      obtain ⟨y, ns', hy, hns', rfl⟩ := mapNumMembers_cons.1 hns
      rw [List.forall_mem_cons, List.forall_mem_cons, ih (k, x) List.mem_cons_self y hy,
        ihms (fun z hz => ih z (List.mem_cons_of_mem _ hz)) ns' hns']

end MapNum

/-! ## Equality of values -/

section Same

variable [DecidableEq σ]

mutual
/-- The same value: arrays in order, objects as finite maps from names to values. -/
def Same : Json σ ν → Json σ ν → Prop
  | .null, w => w = .null
  | .bool b, w => w = .bool b
  | .num n, w => w = .num n
  | .str s, w => w = .str s
  | .arr xs, w => ∃ ys, w = .arr ys ∧ SameList xs ys
  | .obj ms, w => ∃ ns, w = .obj ns ∧ SameMembers ms ns ∧ names ns ⊆ names ms
def SameList : List (Json σ ν) → List (Json σ ν) → Prop
  | [], ys => ys = []
  | x :: xs, ys => ∃ y ys', ys = y :: ys' ∧ Same x y ∧ SameList xs ys'
/-- Every member of the first object is in the second, with the same value. -/
def SameMembers : List (σ × Json σ ν) → List (σ × Json σ ν) → Prop
  | [], _ => True
  | (k, v) :: ms, ns => (∃ w, ns.lookup k = some w ∧ Same v w) ∧ SameMembers ms ns
end

theorem sameMembers_iff {ms ns : List (σ × Json σ ν)} :
    SameMembers ms ns ↔ ∀ m ∈ ms, ∃ w, ns.lookup m.1 = some w ∧ Same m.2 w := by
  induction ms with
  | nil => simp [SameMembers]
  | cons m ms ih => simp [SameMembers, ih]

/-- Two objects are the same when they hold the same under each name. -/
theorem same_obj_iff [i : BEq σ] [LawfulBEq σ] {ms ns : List (σ × Json σ ν)}
    (hms : (names ms).Nodup) (hns : (names ns).Nodup) :
    (obj ms).Same (obj ns) ↔ ∀ k, Option.Rel Same (ms.lookup k) (ns.lookup k) := by
  obtain rfl := lawful_beq_subsingleton i instBEqOfDecidableEq
  rw [Same]
  constructor
  · rintro ⟨_, heq, hsame, hsub⟩ k
    obtain rfl := Json.obj.inj heq
    rw [sameMembers_iff] at hsame
    cases hk : ms.lookup k with
    | none => rw [lookup_eq_none.2 fun hmem => lookup_eq_none.1 hk (hsub hmem)]; exact .none
    | some v =>
      obtain ⟨w, hw, hvw⟩ := hsame (k, v) (mem_of_lookup hk)
      rw [hw]
      exact .some hvw
  · intro h
    refine ⟨ns, rfl, sameMembers_iff.2 fun m hm => ?_, fun k hk => ?_⟩
    · have hrel := h m.1
      rw [lookup_of_mem hms hm] at hrel
      generalize hw : ns.lookup m.1 = w at hrel
      cases hrel with
      | some hsame => exact ⟨_, rfl, hsame⟩
    · by_contra hmem
      obtain ⟨v, hv⟩ := mem_names.1 hk
      have hrel := h k
      rw [lookup_eq_none.2 hmem, lookup_of_mem hns hv] at hrel
      cases hrel

end Same

/-! ## Members in key order -/

section Sorting

variable (r : σ → σ → Prop) [DecidableRel r]

/-- Members in the order of their names. -/
def sortByName {α : Type} (ms : List (σ × α)) : List (σ × α) :=
  ms.insertionSort fun m n => r m.1 n.1

mutual
/-- The value with the members of every object in the order of their names. -/
def sortMembers : Json σ ν → Json σ ν
  | .null => .null
  | .bool b => .bool b
  | .num n => .num n
  | .str s => .str s
  | .arr xs => .arr (sortMembersList xs)
  | .obj ms => .obj (sortByName r (sortMembersMembers ms))
def sortMembersList : List (Json σ ν) → List (Json σ ν)
  | [] => []
  | x :: xs => sortMembers x :: sortMembersList xs
def sortMembersMembers : List (σ × Json σ ν) → List (σ × Json σ ν)
  | [] => []
  | (k, x) :: ms => (k, sortMembers x) :: sortMembersMembers ms
end

theorem sortMembersList_eq (xs : List (Json σ ν)) :
    sortMembersList r xs = xs.map (sortMembers r) := by
  induction xs with
  | nil => rfl
  | cons x xs ih => rw [sortMembersList, ih, List.map_cons]

theorem sortMembersMembers_eq (ms : List (σ × Json σ ν)) :
    sortMembersMembers r ms = ms.map fun m => (m.1, sortMembers r m.2) := by
  induction ms with
  | nil => rfl
  | cons m ms ih => rw [sortMembersMembers, ih, List.map_cons]

@[simp] theorem sortMembers_arr (xs : List (Json σ ν)) :
    sortMembers r (arr xs) = arr (xs.map (sortMembers r)) := by
  rw [sortMembers, sortMembersList_eq]

@[simp] theorem sortMembers_obj (ms : List (σ × Json σ ν)) :
    sortMembers r (obj ms)
      = obj (sortByName r (ms.map fun m => (m.1, sortMembers r m.2))) := by
  rw [sortMembers, sortMembersMembers_eq]

theorem perm_sortByName {α : Type} (ms : List (σ × α)) : (sortByName r ms).Perm ms :=
  List.perm_insertionSort _ ms

theorem names_sortMembers (ms : List (σ × Json σ ν)) :
    names (ms.map fun m => (m.1, sortMembers r m.2)) = names ms := by
  simp [names, Function.comp_def]

theorem perm_names_sortByName {α : Type} (ms : List (σ × α)) :
    (names (sortByName r ms)).Perm (names ms) :=
  (perm_sortByName r ms).map _

theorem distinct_sortMembers (v : Json σ ν) : (sortMembers r v).Distinct ↔ v.Distinct := by
  induction v with
  | null | bool b | num n | str s => simp [sortMembers, Distinct]
  | arr xs ih =>
    rw [sortMembers_arr, distinct_arr, distinct_arr, List.forall_mem_map]
    exact forall₂_congr ih
  | obj ms ih =>
    rw [sortMembers_obj, distinct_obj, distinct_obj,
      (perm_names_sortByName r _).nodup_iff, names_sortMembers]
    refine and_congr_right fun _ => ?_
    simp only [(perm_sortByName r _).mem_iff, List.forall_mem_map]
    exact forall₂_congr ih

variable [Std.Total r] [IsTrans σ r] [Std.Antisymm r]

omit [Std.Antisymm r] in
theorem pairwise_sortByName {α : Type} (ms : List (σ × α)) :
    (sortByName r ms).Pairwise fun m n => r m.1 n.1 := by
  have : Std.Total fun m n : σ × α => r m.1 n.1 := ⟨fun m n => Std.Total.total m.1 n.1⟩
  have : IsTrans (σ × α) fun m n => r m.1 n.1 := ⟨fun _ _ _ h h' => IsTrans.trans _ _ _ h h'⟩
  exact List.pairwise_insertionSort _ ms

/-- Lists of members with the same members and no repeated name sort alike. -/
theorem sortByName_eq_of_perm {α : Type} {ms ns : List (σ × α)} (hnd : (names ms).Nodup)
    (h : ms.Perm ns) : sortByName r ms = sortByName r ns := by
  have hp : (sortByName r ms).Perm (sortByName r ns) :=
    (perm_sortByName r ms).trans (h.trans (perm_sortByName r ns).symm)
  refine hp.eq_of_pairwise (fun m n hm hn h1 h2 => ?_)
    (pairwise_sortByName r ms) (pairwise_sortByName r ns)
  have hm' := (perm_sortByName r ms).mem_iff.1 hm
  have hn' := h.mem_iff.2 ((perm_sortByName r ns).mem_iff.1 hn)
  have hk : m.1 = n.1 := antisymm h1 h2
  exact List.inj_on_of_nodup_map hnd hm' hn' hk

omit [Std.Total r] [IsTrans σ r] [Std.Antisymm r] in
theorem sortByName_eq_self {α : Type} {ms : List (σ × α)}
    (h : ms.Pairwise fun m n => r m.1 n.1) : sortByName r ms = ms :=
  List.Pairwise.insertionSort_eq h

variable [DecidableEq σ]

omit [Std.Total r] [IsTrans σ r] [Std.Antisymm r] in
theorem same_of_sortMembers (v : Json σ ν) : ∀ w, v.Distinct → w.Distinct →
    sortMembers r v = sortMembers r w → Same v w := by
  induction v with
  | null | bool b | num n | str s =>
    intro w _ _ h
    cases w <;> simp_all [sortMembers, Same]
  | arr xs ih =>
    intro w hv hw h
    cases w <;> simp only [sortMembers_arr, sortMembers_obj, reduceCtorEq, arr.injEq] at h <;>
      try exact absurd h (by simp [sortMembers])
    rename_i ys
    rw [distinct_arr] at hv hw
    refine ⟨ys, rfl, ?_⟩
    induction xs generalizing ys with
    | nil =>
      rw [List.map_nil, eq_comm, List.map_eq_nil_iff] at h
      exact h
    | cons x xs ihxs =>
      rcases ys with _ | ⟨y, ys⟩
      · simp at h
      · rw [List.map_cons, List.map_cons, List.cons.injEq] at h
        rw [List.forall_mem_cons] at hv hw ih
        exact ⟨y, ys, rfl, ih.1 y hv.1 hw.1 h.1, ihxs ih.2 hv.2 ys hw.2 h.2⟩
  | obj ms ih =>
    intro w hv hw h
    cases w <;> simp only [sortMembers_arr, sortMembers_obj, reduceCtorEq, obj.injEq] at h <;>
      try exact absurd h (by simp [sortMembers])
    rename_i ns
    rw [distinct_obj] at hv hw
    have hp : (ms.map fun m => (m.1, sortMembers r m.2)).Perm
        (ns.map fun m => (m.1, sortMembers r m.2)) :=
      (perm_sortByName r _).symm.trans (h ▸ perm_sortByName r _)
    refine ⟨ns, rfl, sameMembers_iff.2 fun m hm => ?_, fun k hk => ?_⟩
    · have hm' := hp.mem_iff.1 (List.mem_map_of_mem hm)
      obtain ⟨n, hn, he⟩ := List.mem_map.1 hm'
      rw [Prod.mk.injEq] at he
      refine ⟨n.2, lookup_of_mem hw.1 (he.1 ▸ hn), ?_⟩
      exact ih m hm n.2 (hv.2 m hm) (hw.2 n hn) he.2.symm
    · have hn := hp.map Prod.fst
      change (names _).Perm (names _) at hn
      rw [names_sortMembers, names_sortMembers] at hn
      exact hn.mem_iff.2 hk

theorem sortMembers_of_same (v : Json σ ν) : ∀ w, v.Distinct → w.Distinct →
    Same v w → sortMembers r v = sortMembers r w := by
  induction v with
  | null | bool b | num n | str s =>
    intro w _ _ h
    simp only [Same] at h
    rw [h]
  | arr xs ih =>
    rintro w hv hw ⟨ys, rfl, h⟩
    rw [distinct_arr] at hv hw
    rw [sortMembers_arr, sortMembers_arr, arr.injEq]
    induction xs generalizing ys with
    | nil => rw [show ys = [] from h]
    | cons x xs ihxs =>
      obtain ⟨y, ys', rfl, hxy, hys⟩ := h
      rw [List.forall_mem_cons] at hv hw ih
      rw [List.map_cons, List.map_cons, ih.1 y hv.1 hw.1 hxy, ihxs ih.2 hv.2 ys' hys hw.2]
  | obj ms ih =>
    rintro w hv hw ⟨ns, rfl, h, hsub⟩
    rw [distinct_obj] at hv hw
    rw [sameMembers_iff] at h
    rw [sortMembers_obj, sortMembers_obj, obj.injEq]
    have hnd : (names (ms.map fun m => (m.1, sortMembers r m.2))).Nodup := by
      rw [names_sortMembers]
      exact hv.1
    have hnd' : (names (ns.map fun m => (m.1, sortMembers r m.2))).Nodup := by
      rw [names_sortMembers]
      exact hw.1
    refine sortByName_eq_of_perm r hnd ?_
    refine (List.perm_ext_iff_of_nodup hnd.of_map hnd'.of_map).2 fun p => ?_
    simp only [List.mem_map]
    constructor
    · rintro ⟨m, hm, rfl⟩
      obtain ⟨w, hw', hs⟩ := h m hm
      have hmem := mem_of_lookup hw'
      exact ⟨(m.1, w), hmem, by rw [ih m hm w (hv.2 m hm) (hw.2 _ hmem) hs]⟩
    · rintro ⟨n, hn, rfl⟩
      obtain ⟨x, hx⟩ := mem_names.1 (hsub (mem_names_of_mem hn))
      obtain ⟨w, hw', hs⟩ := h _ hx
      have hwn : w = n.2 := Option.some.inj (hw'.symm.trans (lookup_of_mem hw.1 hn))
      subst hwn
      exact ⟨(n.1, x), hx, by rw [ih _ hx n.2 (hv.2 _ hx) (hw.2 n hn) hs]⟩

/-- Values without repeated names are the same exactly when they sort alike. -/
theorem same_iff_sortMembers {v w : Json σ ν} (hv : v.Distinct) (hw : w.Distinct) :
    Same v w ↔ sortMembers r v = sortMembers r w :=
  ⟨sortMembers_of_same r v w hv hw, same_of_sortMembers r v w hv hw⟩

omit [DecidableEq σ] in
/-- Sorting twice is sorting once. -/
theorem sortMembers_sortMembers (v : Json σ ν) :
    v.Distinct → sortMembers r (sortMembers r v) = sortMembers r v := by
  induction v with
  | null | bool b | num n | str s => simp [sortMembers]
  | arr xs ih =>
    intro hv
    rw [distinct_arr] at hv
    rw [sortMembers_arr, sortMembers_arr, List.map_map, arr.injEq]
    exact List.map_congr_left fun x hx => ih x hx (hv x hx)
  | obj ms ih =>
    intro hv
    rw [distinct_obj] at hv
    rw [sortMembers_obj, sortMembers_obj, obj.injEq]
    set ns := ms.map fun m => (m.1, sortMembers r m.2) with hns
    have hfix : ns.map (fun m => (m.1, sortMembers r m.2)) = ns := by
      rw [hns, List.map_map]
      exact List.map_congr_left fun m hm => by
        simp only [Function.comp, ih m hm (hv.2 m hm)]
    have hnd : (names ns).Nodup := by
      rw [hns, names_sortMembers]
      exact hv.1
    have hp := (perm_sortByName r ns).map fun m => (m.1, sortMembers r m.2)
    rw [hfix] at hp
    have hnd' : (names ((sortByName r ns).map fun m => (m.1, sortMembers r m.2))).Nodup :=
      ((hp.map Prod.fst).nodup_iff).2 hnd
    exact sortByName_eq_of_perm r hnd' hp

end Sorting

end Json
