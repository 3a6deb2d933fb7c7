import Mathlib

/-!
# Topological orders

`next` is the first item, in the order of `nodes`, whose dependencies are all done. Taking it over and
over reaches every item exactly when the dependencies have no cycle, and then gives the least of the
orders that put each item behind its dependencies.
-/

namespace Topological

variable {α : Type} [DecidableEq α] (nodes : List α) (deps : α → List α)

/-! ## Orders -/

/-- Every item comes behind its dependencies. -/
def Respects (l : List α) : Prop :=
  ∀ front a back, l = front ++ a :: back → ∀ d ∈ deps a, d ∈ front

structure IsOrder (l : List α) : Prop where
  perm : l.Perm nodes
  respects : Respects deps l

/-- `d` is a dependency of the item `a`. -/
def Edge (d a : α) : Prop := a ∈ nodes ∧ d ∈ deps a

def Acyclic : Prop := ∀ a, ¬ Relation.TransGen (Edge nodes deps) a a

/-- The order of `nodes`. -/
def Before (a b : α) : Prop := nodes.idxOf a < nodes.idxOf b

/-! ## The first item that can come next -/

def CanFollow (done : List α) (a : α) : Prop := a ∉ done ∧ ∀ d ∈ deps a, d ∈ done

instance decidableCanFollow (done : List α) (a : α) : Decidable (CanFollow deps done a) :=
  inferInstanceAs (Decidable (_ ∧ _))

/-- The items that can come next, in the order of `nodes`. -/
def available (done : List α) : List α := nodes.filter (CanFollow deps done)

def extend : ℕ → List α → List α
  | 0, done => done
  | n + 1, done =>
    match (available nodes deps done).head? with
    | none => done
    | some a => extend n (done ++ [a])

/-- As many steps as there are items. -/
def order : List α := extend nodes deps nodes.length []

section Extend

variable {nodes deps} {done : List α} {a : α}

theorem mem_available : a ∈ available nodes deps done ↔ a ∈ nodes ∧ CanFollow deps done a := by
  rw [available, List.mem_filter, decide_eq_true_eq]

omit [DecidableEq α] in
theorem Respects.append (h : Respects deps done) (ha : ∀ d ∈ deps a, d ∈ done) :
    Respects deps (done ++ [a]) := by
  intro front b back heq d hd
  rcases List.eq_nil_or_concat back with rfl | ⟨back, c, rfl⟩
  · obtain ⟨rfl, hb⟩ := List.append_inj' heq rfl
    obtain rfl := List.cons_eq_cons.1 hb |>.1
    exact ha d hd
  · rw [List.concat_eq_append, ← List.cons_append, ← List.append_assoc] at heq
    exact h front b back (List.append_inj' heq rfl).1 d hd

/-- Items put in order so far. -/
structure Started (nodes : List α) (deps : α → List α) (done : List α) : Prop where
  nodup : done.Nodup
  subset : ∀ a ∈ done, a ∈ nodes
  respects : Respects deps done

omit [DecidableEq α] in
theorem started_nil : Started nodes deps [] where
  nodup := List.nodup_nil
  subset _ h := absurd h List.not_mem_nil
  respects front a back h := by simp at h

theorem Started.append (h : Started nodes deps done) (ha : a ∈ available nodes deps done) :
    Started nodes deps (done ++ [a]) := by
  obtain ⟨hnode, hnew, hdeps⟩ := mem_available.1 ha
  refine ⟨?_, ?_, h.respects.append hdeps⟩
  · rw [List.nodup_append]
    refine ⟨h.nodup, List.nodup_singleton a, fun x hx y hy heq => ?_⟩
    rw [List.mem_singleton.1 hy] at heq
    exact hnew (heq ▸ hx)
  · simpa [or_imp, forall_and] using ⟨h.subset, hnode⟩

theorem Started.extend (n : ℕ) (h : Started nodes deps done) :
    Started nodes deps (extend nodes deps n done) := by
  induction n generalizing done with
  | zero => exact h
  | succ n ih =>
    rw [Topological.extend]
    split
    · exact h
    · rename_i a ha
      exact ih (h.append (List.mem_of_head? ha))

theorem prefix_extend (n : ℕ) (done : List α) : done <+: extend nodes deps n done := by
  induction n generalizing done with
  | zero => exact List.prefix_rfl
  | succ n ih =>
    rw [extend]
    split
    · exact List.prefix_rfl
    · exact (List.prefix_append _ _).trans (ih _)

omit [DecidableEq α] in
theorem Started.length_le (h : Started nodes deps done) : done.length ≤ nodes.length :=
  (h.nodup.subperm h.subset).length_le

omit [DecidableEq α] in
/-- What has been ordered is everything as soon as it is as long. -/
theorem Started.isOrder (h : Started nodes deps done) (hlen : nodes.length ≤ done.length) :
    IsOrder nodes deps done :=
  ⟨(h.nodup.subperm h.subset).perm_of_length_le hlen, h.respects⟩

end Extend

/-! ## Cycles -/

section Cycles

variable {nodes deps} {done l : List α}

/-- In an order a dependency stands at a smaller index. -/
theorem Respects.idxOf_lt (h : Respects deps l) (hnodup : l.Nodup) {a d : α} (ha : a ∈ l)
    (hd : d ∈ deps a) : l.idxOf d < l.idxOf a := by
  obtain ⟨front, back, rfl⟩ := List.append_of_mem ha
  have hfront := h front a back rfl d hd
  have hnot : a ∉ front := fun hmem => (List.nodup_append.1 hnodup).2.2 a hmem a (by simp) rfl
  rw [List.idxOf_append_of_mem hfront, List.idxOf_append_of_notMem hnot, List.idxOf_cons_self,
    Nat.add_zero]
  exact List.idxOf_lt_length_of_mem hfront

theorem IsOrder.acyclic (hnodes : nodes.Nodup) (h : IsOrder nodes deps l) : Acyclic nodes deps := by
  have hlt : ∀ {d a}, Relation.TransGen (Edge nodes deps) d a → l.idxOf d < l.idxOf a := by
    intro d a hpath
    induction hpath with
    | single hedge =>
      exact h.respects.idxOf_lt (h.perm.nodup_iff.2 hnodes) (h.perm.mem_iff.2 hedge.1) hedge.2
    | tail _ hedge ih =>
      exact ih.trans
        (h.respects.idxOf_lt (h.perm.nodup_iff.2 hnodes) (h.perm.mem_iff.2 hedge.1) hedge.2)
  exact fun a hcycle => lt_irrefl _ (hlt hcycle)

/-- Without a cycle some item can come next as long as one is left: one that depends on no other
item that is left. -/
theorem exists_mem_available (hclosed : ∀ a ∈ nodes, ∀ d ∈ deps a, d ∈ nodes)
    (h : Acyclic nodes deps) (hleft : ∃ a ∈ nodes, a ∉ done) :
    ∃ a, a ∈ available nodes deps done := by
  let r : {a // a ∈ nodes} → {a // a ∈ nodes} → Prop := fun x y =>
    Relation.TransGen (Edge nodes deps) x y
  have htrans : IsTrans _ r := ⟨fun _ _ _ => Relation.TransGen.trans⟩
  have hirrefl : Std.Irrefl r := ⟨fun x => h x⟩
  have hfinite : Finite {a // a ∈ nodes} := List.finite_toSet nodes
  obtain ⟨a, ha, hnew⟩ := hleft
  obtain ⟨m, hm, hmin⟩ := (Finite.wellFounded_of_trans_of_irrefl r).has_min
    {x | (x : α) ∉ done} ⟨⟨a, ha⟩, hnew⟩
  refine ⟨m, mem_available.2 ⟨m.2, hm, fun d hd => ?_⟩⟩
  by_contra hd'
  exact hmin ⟨d, hclosed m m.2 d hd⟩ hd' (.single ⟨m.2, hd⟩)

theorem length_extend (hclosed : ∀ a ∈ nodes, ∀ d ∈ deps a, d ∈ nodes) (hacyclic : Acyclic nodes deps)
    (hnodes : nodes.Nodup) (n : ℕ) (h : Started nodes deps done)
    (hlen : nodes.length ≤ done.length + n) :
    nodes.length ≤ (extend nodes deps n done).length := by
  induction n generalizing done with
  | zero => exact hlen
  | succ n ih =>
    rw [extend]
    split
    · rename_i hnone
      by_contra hshort
      obtain ⟨a, ha, hnew⟩ : ∃ a ∈ nodes, a ∉ done := by
        by_contra hall
        push Not at hall
        exact hshort (hnodes.subperm hall).length_le
      obtain ⟨b, hb⟩ := exists_mem_available hclosed hacyclic ⟨a, ha, hnew⟩
      rw [List.head?_eq_none_iff] at hnone
      rw [hnone] at hb
      cases hb
    · rename_i a ha
      refine ih (h.append (List.mem_of_head? ha)) ?_
      simp only [List.length_append, List.length_singleton]
      omega

theorem started_order : Started nodes deps (order nodes deps) := started_nil.extend _

theorem available_extend (n : ℕ) (h : Started nodes deps done)
    (hlen : nodes.length ≤ done.length + n) :
    available nodes deps (extend nodes deps n done) = [] := by
  induction n generalizing done with
  | zero =>
    refine List.eq_nil_iff_forall_not_mem.2 fun a ha => ?_
    obtain ⟨hnode, hnew, -⟩ := mem_available.1 ha
    exact hnew ((h.isOrder hlen).perm.mem_iff.2 hnode)
  | succ n ih =>
    rw [extend]
    split
    · rename_i hnone
      exact List.head?_eq_none_iff.1 hnone
    · rename_i a ha
      refine ih (h.append (List.mem_of_head? ha)) ?_
      simp only [List.length_append, List.length_singleton]
      omega

/-- Nothing can come next when the steps have run out. -/
theorem available_order : available nodes deps (order nodes deps) = [] :=
  available_extend _ started_nil (by simp)

/-- Every item is reached exactly when there is no cycle. -/
theorem length_order_iff (hnodes : nodes.Nodup) (hclosed : ∀ a ∈ nodes, ∀ d ∈ deps a, d ∈ nodes) :
    (order nodes deps).length = nodes.length ↔ Acyclic nodes deps := by
  refine ⟨fun hlen => (started_order.isOrder hlen.ge).acyclic hnodes, fun h => ?_⟩
  exact le_antisymm started_order.length_le
    (length_extend hclosed h hnodes _ started_nil (by simp))

theorem isOrder_order (hlen : (order nodes deps).length = nodes.length) :
    IsOrder nodes deps (order nodes deps) :=
  started_order.isOrder hlen.ge

end Cycles

/-! ## The least order -/

section Least

variable {nodes deps} {done rest : List α}

/-- The first of the available items is at no larger an index than another. -/
theorem idxOf_head_le {a b : α} (hhead : (available nodes deps done).head? = some a)
    (hb : b ∈ available nodes deps done) : nodes.idxOf a ≤ nodes.idxOf b := by
  rw [available, List.head?_filter] at hhead
  obtain ⟨-, front, back, hnodes, hfront⟩ := List.find?_eq_some_iff_append.1 hhead
  have hcan := (mem_available.1 hb).2
  have hnot : b ∉ front := fun hmem => by simpa [hcan] using hfront b hmem
  rw [hnodes, List.idxOf_append_of_notMem hnot]
  refine le_trans ?_ (Nat.le_add_right _ _)
  rw [show front ++ a :: back = front ++ [a] ++ back by simp,
    List.idxOf_append_of_mem (by simp)]
  have := List.idxOf_lt_length_of_mem (show a ∈ front ++ [a] by simp)
  simp only [List.length_append, List.length_singleton] at this
  omega

theorem extend_le (n : ℕ) (h : IsOrder nodes deps (done ++ rest)) (hnodes : nodes.Nodup)
    (hlen : rest.length = n) :
    ∃ l, extend nodes deps n done = done ++ l ∧ (l = rest ∨ List.Lex (Before nodes) l rest) := by
  induction n generalizing done rest with
  | zero =>
    obtain rfl := List.length_eq_zero_iff.1 hlen
    exact ⟨[], (List.append_nil _).symm, .inl rfl⟩
  | succ n ih =>
    obtain ⟨b, rest, rfl⟩ := List.exists_cons_of_length_eq_add_one hlen
    have hb : b ∈ available nodes deps done := by
      refine mem_available.2 ⟨h.perm.mem_iff.1 (by simp), fun hmem => ?_,
        h.respects done b rest rfl⟩
      have hnodup := h.perm.nodup_iff.2 hnodes
      exact (List.nodup_append.1 hnodup).2.2 b hmem b (by simp) rfl
    obtain ⟨a, hhead⟩ : ∃ a, (available nodes deps done).head? = some a :=
      ⟨_, List.head?_eq_some_head (List.ne_nil_of_mem hb)⟩
    have ha := (mem_available.1 (List.mem_of_head? hhead)).1
    rw [extend, hhead]
    rcases (idxOf_head_le hhead hb).lt_or_eq with hlt | heq
    · obtain ⟨l, hl⟩ : done ++ [a] <+: extend nodes deps n (done ++ [a]) := prefix_extend n _
      exact ⟨a :: l, by simp [← hl], .inr (.rel hlt)⟩
    · obtain rfl := (List.idxOf_inj ha).1 heq
      have hnext : IsOrder nodes deps (done ++ [a] ++ rest) := by simpa using h
      obtain ⟨l, hl, hle⟩ := ih hnext (Nat.succ.inj hlen)
      refine ⟨a :: l, by simp [hl], ?_⟩
      rcases hle with rfl | hlt
      · exact .inl rfl
      · exact .inr (.cons hlt)

/-- No order comes before it, index by index. -/
theorem order_le {l : List α} (h : IsOrder nodes deps l) (hnodes : nodes.Nodup) :
    order nodes deps = l ∨ List.Lex (Before nodes) (order nodes deps) l := by
  have hnil : IsOrder nodes deps ([] ++ l) := h
  obtain ⟨l', hl', hle⟩ := extend_le nodes.length hnil hnodes h.perm.length_eq
  rw [order, hl', List.nil_append]
  exact hle

end Least

end Topological
