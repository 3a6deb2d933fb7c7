import Mathlib.Data.List.Chain
import Mathlib.Data.List.Lex
import Mathlib.Data.Prod.Lex
import Mathlib.Order.Lattice

/-!
# Walks and the frontier of a breadth-first search

Walks of a directed graph from one start, the shorter first and those of one length in
lexicographic order. A breadth-first search takes the walks it has found from the front of a queue
and puts the fresh neighbours of their ends at its back. What it keeps is `Frontier`: every node
found has its least walk, and every node not found is behind the queue.
-/

namespace Walks

variable {α : Type}

/-- A walk along edges from `start`, as the nodes it visits, and where it ends. -/
inductive Walk (edge : α → α → Prop) (start : α) : List α → α → Prop
  | start : Walk edge start [start] start
  | step {p : List α} {a b : α} (walk : Walk edge start p a) (step : edge a b) :
      Walk edge start (p ++ [b]) b

namespace Walk

variable {edge : α → α → Prop} {start a : α} {p : List α}

theorem getLast? (h : Walk edge start p a) : p.getLast? = some a := by
  cases h <;> simp

theorem ne_nil (h : Walk edge start p a) : p ≠ [] := by
  cases h <;> simp

theorem head? (h : Walk edge start p a) : p.head? = some start := by
  induction h with
  | start => rfl
  | step walk _ ih => rw [List.head?_append, ih, Option.some_or]

theorem isChain (h : Walk edge start p a) : p.IsChain edge := by
  induction h with
  | start => exact .singleton _
  | step walk hstep ih =>
    refine List.isChain_append.2 ⟨ih, .singleton _, fun x hx y hy => ?_⟩
    rw [walk.getLast?, Option.mem_some_iff] at hx
    rw [List.head?_cons, Option.mem_some_iff] at hy
    exact hx ▸ hy ▸ hstep

theorem length_eq_one (h : Walk edge start p a) (hp : p.length ≤ 1) : a = start := by
  cases h with
  | start => rfl
  | step walk _ =>
    have := List.length_pos_of_ne_nil walk.ne_nil
    rw [List.length_append, List.length_singleton] at hp
    omega

end Walk

/-! ## The order of the walks -/

section Order

variable [LinearOrder α]

/-- The shorter walks first, those of one length in lexicographic order. -/
def rank (p : List α) : ℕ ×ₗ List α := toLex (p.length, p)

theorem rank_lt {p q : List α} :
    rank p < rank q ↔ p.length < q.length ∨ p.length = q.length ∧ p < q :=
  Prod.Lex.toLex_lt_toLex

omit [LinearOrder α] in
theorem rank_injective {p q : List α} (h : rank p = rank q) : p = q :=
  congrArg (fun r => (ofLex r).2) h

theorem rank_lt_concat (p : List α) (a : α) : rank p < rank (p ++ [a]) :=
  rank_lt.2 (.inl (by simp))

theorem append_lt_append : ∀ {p q : List α} (s t : List α), p.length = q.length → p < q →
    p ++ s < q ++ t
  | [], [], _, _, _, h => absurd h (lt_irrefl _)
  | a :: p, b :: q, s, t, hlen, h => by
    rw [List.cons_append, List.cons_append, List.cons_lt_cons_iff]
    rcases List.cons_lt_cons_iff.1 h with hab | ⟨rfl, hpq⟩
    · exact .inl hab
    · exact .inr ⟨rfl, append_lt_append s t (by simpa using hlen) hpq⟩

/-- Walks with different parents are in the order of their parents. -/
theorem rank_concat_lt_concat {p q : List α} (h : rank p < rank q) (a b : α) :
    rank (p ++ [a]) < rank (q ++ [b]) := by
  rw [rank_lt] at h ⊢
  simp only [List.length_append, List.length_singleton]
  rcases h with hlt | ⟨heq, hlex⟩
  · exact .inl (by omega)
  · exact .inr ⟨by omega, append_lt_append [a] [b] heq hlex⟩

theorem rank_concat_le_concat {p q : List α} (h : rank p ≤ rank q) (a : α) :
    rank (p ++ [a]) ≤ rank (q ++ [a]) := by
  rcases h.lt_or_eq with hlt | heq
  · exact (rank_concat_lt_concat hlt a a).le
  · rw [rank_injective heq]

theorem append_lt_append_left (p : List α) {s t : List α} (h : s < t) : p ++ s < p ++ t := by
  induction p with
  | nil => exact h
  | cons a p ih => exact List.cons_lt_cons_iff.2 (.inr ⟨rfl, ih⟩)

/-- Walks with one parent are in the order of their ends. -/
theorem rank_concat_lt_of_lt (p : List α) {a b : α} (h : a < b) :
    rank (p ++ [a]) < rank (p ++ [b]) :=
  rank_lt.2 (.inr ⟨by simp, append_lt_append_left p (List.cons_lt_cons_iff.2 (.inl h))⟩)

/-- A walk to its end that no other walk comes before. -/
def Least (edge : α → α → Prop) (start : α) (p : List α) (a : α) : Prop :=
  Walk edge start p a ∧ ∀ q, Walk edge start q a → rank p ≤ rank q

theorem Least.unique {edge : α → α → Prop} {start a : α} {p q : List α}
    (hp : Least edge start p a) (hq : Least edge start q a) : p = q :=
  rank_injective (le_antisymm (hp.2 q hq.1) (hq.2 p hp.1))

end Order

/-! ## The frontier -/

section Frontier

variable [LinearOrder α] (edge : α → α → Prop) (start : α)

/-- A search that has found nodes with their walks: those it is `done` with, and those in the
`queue`. -/
structure Frontier (done queue : List (α × List α)) : Prop where
  least : ∀ e ∈ done ++ queue, Least edge start e.2 e.1
  distinct : ((done ++ queue).map Prod.fst).Nodup
  start : start ∈ (done ++ queue).map Prod.fst
  /-- It is done with a node only when it has found its neighbours. -/
  closed : ∀ e ∈ done, ∀ b, edge e.1 b → b ∈ (done ++ queue).map Prod.fst
  sorted : queue.Pairwise fun e f => rank e.2 < rank f.2
  /-- The parents of the queue come before the queue. -/
  parents : ∀ e ∈ queue, ∀ f ∈ queue, rank e.2.dropLast < rank f.2

variable {edge start} {done queue : List (α × List α)}

theorem frontier_start : Frontier edge start [] [(start, [start])] where
  least e he := by
    obtain rfl : e = (start, [start]) := by simpa using he
    refine ⟨.start, fun q hq => ?_⟩
    by_cases hlen : q.length ≤ 1
    · obtain ⟨b, rfl⟩ : ∃ b, q = [b] := List.length_eq_one_iff.1
        (le_antisymm hlen (List.length_pos_of_ne_nil hq.ne_nil))
      have hb : some b = some start := by simpa using hq.head?
      rw [Option.some.inj hb]
    · exact (rank_lt.2 (.inl (by simpa using hlen))).le
  distinct := by simp
  start := by simp
  closed := by simp
  sorted := by simp
  parents e he f hf := by
    obtain rfl : e = (start, [start]) := by simpa using he
    obtain rfl : f = (start, [start]) := by simpa using hf
    exact rank_lt.2 (.inl (by simp))

namespace Frontier

/-- No walk to a node the search is not done with comes before the queue. -/
theorem front_le {e : α × List α} (h : Frontier edge start done (e :: queue)) {p : List α} {a : α}
    (hp : Walk edge start p a) (ha : a ∉ done.map Prod.fst) : rank e.2 ≤ rank p := by
  have hfound : ∀ {b q}, Walk edge start q b → b ∉ done.map Prod.fst →
      b ∈ (done ++ e :: queue).map Prod.fst → rank e.2 ≤ rank q := by
    intro b q hq hb hmem
    obtain ⟨f, hf, rfl⟩ := List.mem_map.1 hmem
    have hfq : f ∈ e :: queue := (List.mem_append.1 hf).resolve_left fun hd =>
      hb (List.mem_map_of_mem hd)
    refine le_trans ?_ ((h.least f hf).2 q hq)
    rcases List.mem_cons.1 hfq with rfl | hfq
    · exact le_rfl
    · exact (List.rel_of_pairwise_cons h.sorted hfq).le
  induction hp with
  | start => exact hfound .start ha h.start
  | step walk hstep ih =>
    rename_i p b c
    by_cases hc : c ∈ (done ++ e :: queue).map Prod.fst
    · exact hfound (walk.step hstep) ha hc
    · have hb : b ∉ done.map Prod.fst := fun hb => by
        obtain ⟨f, hf, rfl⟩ := List.mem_map.1 hb
        exact hc (h.closed f hf c hstep)
      exact (ih hb).trans (rank_lt_concat p c).le

/-- The step of the search: the front of the queue is done, its fresh neighbours queue. -/
theorem step {e : α × List α} (h : Frontier edge start done (e :: queue)) {fresh : List α}
    (hsorted : fresh.Pairwise (· < ·))
    (hfresh : ∀ b, b ∈ fresh ↔ edge e.1 b ∧ b ∉ (done ++ e :: queue).map Prod.fst) :
    Frontier edge start (done ++ [e]) (queue ++ fresh.map fun b => (b, e.2 ++ [b])) := by
  have hwalk := (h.least e (by simp)).1
  have hfound : done ++ [e] ++ (queue ++ fresh.map fun b => (b, e.2 ++ [b]))
      = (done ++ e :: queue) ++ fresh.map fun b => (b, e.2 ++ [b]) := by simp
  have hends : (fresh.map fun b => (b, e.2 ++ [b])).map Prod.fst = fresh := by
    simp [Function.comp_def]
  have hparent : ∀ f ∈ queue, rank f.2.dropLast < rank e.2 := fun f hf =>
    h.parents f (List.mem_cons_of_mem _ hf) e (by simp)
  have hqueue : ∀ f ∈ queue, rank e.2 < rank f.2 := fun f hf =>
    List.rel_of_pairwise_cons h.sorted hf
  refine ⟨?_, ?_, ?_, ?_, ?_, ?_⟩
  · rw [hfound]
    intro f hf
    rcases List.mem_append.1 hf with hf | hf
    · exact h.least f hf
    obtain ⟨b, hb, rfl⟩ := List.mem_map.1 hf
    obtain ⟨hedge, hnew⟩ := (hfresh b).1 hb
    refine ⟨hwalk.step hedge, fun q hq => ?_⟩
    cases hq with
    | start => exact absurd h.start hnew
    | step walk hstep =>
      rename_i p c
      have hc : c ∉ done.map Prod.fst := fun hc => by
        obtain ⟨f, hf, rfl⟩ := List.mem_map.1 hc
        exact hnew (h.closed f hf b hstep)
      exact rank_concat_le_concat (h.front_le walk hc) b
  · rw [hfound, List.map_append, hends, List.nodup_append]
    refine ⟨h.distinct, hsorted.imp fun hlt => hlt.ne, ?_⟩
    rintro a ha b hb rfl
    exact ((hfresh a).1 hb).2 ha
  · rw [hfound, List.map_append]
    exact List.mem_append_left _ h.start
  · rw [hfound, List.map_append, hends]
    intro f hf b hedge
    rcases List.mem_append.1 hf with hf | hf
    · exact List.mem_append_left _ (h.closed f hf b hedge)
    obtain rfl := List.mem_singleton.1 hf
    by_cases hb : b ∈ (done ++ f :: queue).map Prod.fst
    · exact List.mem_append_left _ hb
    · exact List.mem_append_right _ ((hfresh b).2 ⟨hedge, hb⟩)
  · refine List.pairwise_append.2 ⟨(List.pairwise_cons.1 h.sorted).2, ?_, fun f hf g hg => ?_⟩
    · exact List.pairwise_map.2 (hsorted.imp fun hlt => rank_concat_lt_of_lt e.2 hlt)
    · obtain ⟨b, -, rfl⟩ := List.mem_map.1 hg
      have hne : f.2 ≠ [] := (h.least f (by simp [hf])).1.ne_nil
      rw [← List.dropLast_append_getLast hne]
      exact rank_concat_lt_concat (hparent f hf) _ _
  · have hlater : ∀ g ∈ queue ++ fresh.map fun b => (b, e.2 ++ [b]), rank e.2 < rank g.2 := by
      intro g hg
      rcases List.mem_append.1 hg with hg | hg
      · exact hqueue g hg
      · obtain ⟨b, -, rfl⟩ := List.mem_map.1 hg
        exact rank_lt_concat e.2 b
    intro f hf g hg
    rcases List.mem_append.1 hf with hf | hf
    · exact (hparent f hf).trans (hlater g hg)
    · obtain ⟨b, -, rfl⟩ := List.mem_map.1 hf
      rw [List.dropLast_concat]
      exact hlater g hg

/-- A search that ends has found all there is. -/
theorem complete (h : Frontier edge start done []) {p : List α} {a : α}
    (hp : Walk edge start p a) : a ∈ done.map Prod.fst := by
  induction hp with
  | start => simpa using h.start
  | step walk hstep ih =>
    obtain ⟨f, hf, rfl⟩ := List.mem_map.1 ih
    simpa using h.closed f hf _ hstep

end Frontier

end Frontier

end Walks
