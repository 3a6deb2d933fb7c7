import Jumpship.Lib.Topological
import Jumpship.Proofs.PacketChecks

/-!
# The order of the packet graph

The in-degree of a node counts its dependencies that are not in the order yet, since the checks let
none be counted twice. So `ready` holds the nodes that can come next, and the loop takes the first of
them each time.
-/

namespace Packets

open Fallible Py Topological

/-! ## Dependencies and consumers -/

section Links

/-- What the checks have made sure of. -/
structure Checked (nodes : List GraphNode) : Prop where
  ids : (idsOf nodes).Nodup
  requires : ∀ node ∈ nodes, node.requires.Nodup
  closed : ∀ node ∈ nodes, ∀ d ∈ node.requires, d ∈ (idsOf nodes)

/-- The dependencies of a node. -/
def dependencies (nodes : List GraphNode) (nodeId : Str) : List Str :=
  (nodes.find? (·.id = nodeId)).elim [] (·.requires)

variable {nodes : List GraphNode} {links : Links} {nodeId a d : Str}

theorem dependencies_eq (h : Checked nodes) {node : GraphNode} (hnode : node ∈ nodes) :
    dependencies nodes node.id = node.requires := by
  obtain ⟨found, hfound⟩ : ∃ found, nodes.find? (·.id = node.id) = some found :=
    Option.isSome_iff_exists.1 (List.find?_isSome.2 ⟨node, hnode, by simp⟩)
  have hid : found.id = node.id := by simpa using List.find?_some hfound
  have heq : found = node :=
    List.inj_on_of_nodup_map h.ids (List.mem_of_find?_eq_some hfound) hnode hid
  rw [dependencies, hfound, heq]
  rfl

theorem exists_node (ha : a ∈ (idsOf nodes)) : ∃ node ∈ nodes, node.id = a :=
  List.mem_map.1 ha

theorem nodup_dependencies (h : Checked nodes) (ha : a ∈ (idsOf nodes)) :
    (dependencies nodes a).Nodup := by
  obtain ⟨node, hnode, rfl⟩ := exists_node ha
  rw [dependencies_eq h hnode]
  exact h.requires node hnode

theorem closed_dependencies (h : Checked nodes) :
    ∀ a ∈ (idsOf nodes), ∀ d ∈ dependencies nodes a, d ∈ (idsOf nodes) := by
  intro a ha d hd
  obtain ⟨node, hnode, rfl⟩ := exists_node ha
  rw [dependencies_eq h hnode] at hd
  exact h.closed node hnode d hd

theorem indegree_add (links : Links) : (links.add nodeId d).indegree =
    Function.update links.indegree nodeId (links.indegree nodeId + 1) := rfl

theorem consumers_add (links : Links) : (links.add nodeId d).consumers =
    Function.update links.consumers d (links.consumers d ++ [nodeId]) := rfl

theorem foldl_add {ds : List Str} (hds : ds.Nodup) :
    (ds.foldl (Links.add nodeId) links).indegree =
        Function.update links.indegree nodeId (links.indegree nodeId + ds.length) ∧
      ∀ d, (ds.foldl (Links.add nodeId) links).consumers d =
        links.consumers d ++ if d ∈ ds then [nodeId] else [] := by
  induction ds generalizing links with
  | nil => simp
  | cons e ds ih =>
    obtain ⟨hnot, hds⟩ := List.nodup_cons.1 hds
    obtain ⟨hindegree, hconsumers⟩ := ih hds
    refine ⟨?_, fun d => ?_⟩
    · rw [List.foldl_cons, hindegree, indegree_add, Function.update_idem, Function.update_self,
        List.length_cons]
      congr 1
      push_cast
      ring
    · rw [List.foldl_cons, hconsumers, consumers_add]
      by_cases hd : d = e
      · subst hd
        rw [Function.update_self, if_neg hnot, if_pos List.mem_cons_self, List.append_nil]
      · rw [Function.update_of_ne hd]
        simp only [List.mem_cons, hd, false_or]

theorem linksOf_append (nodes : List GraphNode) (node : GraphNode) :
    linksOf (nodes ++ [node]) = node.requires.foldl (Links.add node.id) (linksOf nodes) := by
  rw [linksOf, List.foldl_append]
  rfl

/-- Every node adds the number of its own dependencies, and is a consumer of each once. -/
theorem linksOf_eq (hnodes : ∀ node ∈ nodes, node.requires.Nodup) :
    (∀ a, (linksOf nodes).indegree a =
        (((nodes.filter (·.id = a)).map (·.requires.length)).sum : ℕ)) ∧
      ∀ d, (linksOf nodes).consumers d = (nodes.filter (d ∈ ·.requires)).map (·.id) := by
  induction nodes using List.reverseRecOn with
  | nil => exact ⟨fun _ => rfl, fun _ => rfl⟩
  | append_singleton nodes node ih =>
    obtain ⟨hindegree, hconsumers⟩ := ih fun n hn => hnodes n (List.mem_append_left _ hn)
    obtain ⟨hi, hc⟩ := foldl_add
      (hnodes node (by simp))
    rw [linksOf_append]
    refine ⟨fun a => ?_, fun d => ?_⟩
    · rw [hi, List.filter_append, List.map_append, List.sum_append]
      by_cases ha : a = node.id
      · subst ha
        rw [Function.update_self, hindegree]
        simp
      · rw [Function.update_of_ne ha, hindegree]
        simp [Ne.symm ha]
    · rw [hc, hconsumers, List.filter_append, List.map_append]
      by_cases hd : d ∈ node.requires <;> simp [hd]

theorem indegree_linksOf (h : Checked nodes) (ha : a ∈ (idsOf nodes)) :
    (linksOf nodes).indegree a = (dependencies nodes a).length := by
  obtain ⟨node, hnode, rfl⟩ := exists_node ha
  have hfilter : nodes.filter (·.id = node.id) = [node] := by
    have hall : ∀ n ∈ nodes.filter (·.id = node.id), n = node := fun n hn => by
      obtain ⟨hn, hid⟩ := List.mem_filter.1 hn
      exact List.inj_on_of_nodup_map h.ids hn hnode (by simpa using hid)
    refine List.perm_singleton.1 ((List.perm_ext_iff_of_nodup ?_ (List.nodup_singleton _)).2 ?_)
    · exact (List.Nodup.of_map _ h.ids).filter _
    · intro n
      rw [List.mem_singleton]
      refine ⟨hall n, fun heq => ?_⟩
      rw [heq]
      exact List.mem_filter.2 ⟨hnode, by simp⟩
  rw [(linksOf_eq h.requires).1, hfilter, dependencies_eq h hnode]
  simp

theorem consumers_linksOf (h : Checked nodes) (d : Str) :
    ((linksOf nodes).consumers d).Nodup ∧
      ∀ a, a ∈ (linksOf nodes).consumers d ↔ a ∈ (idsOf nodes) ∧ d ∈ dependencies nodes a := by
  rw [(linksOf_eq h.requires).2]
  refine ⟨h.ids.sublist (List.filter_sublist.map _), fun a => ?_⟩
  simp only [List.mem_map, List.mem_filter, decide_eq_true_eq]
  constructor
  · rintro ⟨node, ⟨hnode, hd⟩, rfl⟩
    exact ⟨⟨node, hnode, rfl⟩, by rwa [dependencies_eq h hnode]⟩
  · rintro ⟨⟨node, hnode, rfl⟩, hd⟩
    exact ⟨node, ⟨hnode, by rwa [dependencies_eq h hnode] at hd⟩, rfl⟩

end Links

/-! ## The loop -/

section Loop

variable {nodes : List GraphNode} {progress : Progress} {done : List Str} {current : Str}
  {orderIndex : Str → ℕ}

/-- One consumer after another: each is counted down once, and those that come to zero are ready. -/
theorem foldl_release {cs : List Str} (hcs : cs.Nodup) :
    let after := cs.foldl (Progress.release orderIndex) progress
    after.topological = progress.topological ∧
      (∀ a, after.indegree a = progress.indegree a - if a ∈ cs then 1 else 0) ∧
      after.ready.Perm (progress.ready ++ cs.filter fun c => progress.indegree c = 1) ∧
      (progress.ready.Pairwise (fun a b => orderIndex a ≤ orderIndex b) →
        after.ready.Pairwise fun a b => orderIndex a ≤ orderIndex b) := by
  induction cs generalizing progress with
  | nil => simp
  | cons c cs ih =>
    obtain ⟨hnot, hcs⟩ := List.nodup_cons.1 hcs
    have hindegree : ∀ a, (progress.release orderIndex c).indegree a =
        progress.indegree a - if a = c then 1 else 0 := fun a => by
      by_cases ha : a = c
      · subst ha
        rw [if_pos rfl]
        exact Function.update_self ..
      · rw [if_neg ha, sub_zero]
        exact Function.update_of_ne ha ..
    have hready : (progress.release orderIndex c).ready.Perm
        (progress.ready ++ if progress.indegree c = 1 then [c] else []) := by
      rw [Progress.release]
      dsimp only
      by_cases hc : progress.indegree c = 1
      · rw [if_pos (by omega), if_pos hc]
        exact perm_sortedBy _ _
      · rw [if_neg (by omega), if_neg hc, List.append_nil]
    have hsorted : progress.ready.Pairwise (fun a b => orderIndex a ≤ orderIndex b) →
        (progress.release orderIndex c).ready.Pairwise fun a b => orderIndex a ≤ orderIndex b := by
      intro h
      rw [Progress.release]
      dsimp only
      split_ifs
      · exact pairwise_sortedBy _ _
      · exact h
    obtain ⟨htop, hind, hperm, hpair⟩ := ih hcs
    refine ⟨htop, fun a => ?_, ?_, fun h => hpair (hsorted h)⟩
    · rw [List.foldl_cons, hind, hindegree]
      by_cases ha : a = c
      · subst ha
        simp [hnot]
      · simp [ha]
    · have hfilter : cs.filter (fun d => (progress.release orderIndex c).indegree d = 1) =
          cs.filter fun d => progress.indegree d = 1 := List.filter_congr fun d hd => by
        have hne : d ≠ c := fun heq => hnot (heq ▸ hd)
        rw [hindegree, if_neg hne, sub_zero]
      rw [hfilter] at hperm
      refine hperm.trans ((hready.append_right _).trans (.of_eq ?_))
      rw [List.filter_cons, List.append_assoc]
      by_cases hc : progress.indegree c = 1 <;> simp [hc]

/-- Where the loop stands with `done` in the order. -/
structure Progress.At (nodes : List GraphNode) (done : List Str) (progress : Progress) : Prop where
  topological : progress.topological = done
  ready : progress.ready = available (idsOf nodes) (dependencies nodes) done
  indegree : ∀ a ∈ (idsOf nodes),
    progress.indegree a = ((dependencies nodes a).filter (· ∉ done)).length

theorem pairwise_idxOf {ids : List Str} (hids : ids.Nodup) :
    ids.Pairwise fun a b => ids.idxOf a ≤ ids.idxOf b := by
  rw [List.pairwise_iff_getElem]
  intro i j hi hj hlt
  rw [hids.idxOf_getElem, hids.idxOf_getElem]
  exact hlt.le

theorem nodup_available (h : Checked nodes) (done : List Str) :
    (available (idsOf nodes) (dependencies nodes) done).Nodup := h.ids.filter _

theorem pairwise_available (h : Checked nodes) (done : List Str) :
    (available (idsOf nodes) (dependencies nodes) done).Pairwise fun a b =>
      (idsOf nodes).idxOf a ≤ (idsOf nodes).idxOf b :=
  (pairwise_idxOf h.ids).sublist List.filter_sublist

/-- Two lists of the same nodes in document order are one. -/
theorem eq_of_perm_sorted {ids l l' : List Str} (hperm : l.Perm l') (hsub : ∀ a ∈ l, a ∈ ids)
    (hl : l.Pairwise fun a b => ids.idxOf a ≤ ids.idxOf b)
    (hl' : l'.Pairwise fun a b => ids.idxOf a ≤ ids.idxOf b) : l = l' :=
  hperm.eq_of_pairwise
    (fun _ _ ha _ hle hge => (List.idxOf_inj (hsub _ ha)).1 (le_antisymm hle hge)) hl hl'

/-- A node loses one missing dependency when that dependency is put into the order. -/
theorem length_filter_append {ds : List Str} (hds : ds.Nodup) (hcurrent : current ∉ done) :
    (((ds.filter (· ∉ done ++ [current])).length : ℕ) : ℤ) =
      (ds.filter (· ∉ done)).length - if current ∈ ds then 1 else 0 := by
  have herase : ds.filter (· ∉ done ++ [current]) = (ds.filter (· ∉ done)).erase current := by
    rw [(hds.filter _).erase_eq_filter, List.filter_filter]
    refine List.filter_congr fun d _ => ?_
    simp [not_or, and_comm, Bool.beq_eq_decide_eq, bne]
  by_cases hmem : current ∈ ds
  · have hmem' : current ∈ ds.filter (· ∉ done) := List.mem_filter.2 ⟨hmem, by simpa using hcurrent⟩
    have hpos := List.length_pos_of_mem hmem'
    rw [herase, List.length_erase_of_mem hmem', if_pos hmem]
    omega
  · have hmem' : current ∉ ds.filter (· ∉ done) := fun h => hmem (List.mem_of_mem_filter h)
    rw [herase, List.erase_of_not_mem hmem', if_neg hmem, sub_zero]

/-- A node that has been waiting for `current` alone, or for nothing, can come next. -/
theorem mem_available_append (hstarted : Started (idsOf nodes) (dependencies nodes) done)
    (hcurrent : CanFollow (dependencies nodes) done current) {b : Str} :
    b ∈ available (idsOf nodes) (dependencies nodes) (done ++ [current]) ↔
      (b ∈ available (idsOf nodes) (dependencies nodes) done ∧ b ≠ current) ∨
        b ∈ (idsOf nodes) ∧ current ∈ dependencies nodes b ∧
          (dependencies nodes b).filter (· ∉ done ++ [current]) = [] := by
  simp only [mem_available, CanFollow, List.filter_eq_nil_iff, decide_eq_true_eq, not_not,
    List.mem_append, List.mem_singleton]
  constructor
  · rintro ⟨hb, hnew, hdeps⟩
    by_cases hmem : current ∈ dependencies nodes b
    · exact .inr ⟨hb, hmem, hdeps⟩
    · refine .inl ⟨⟨hb, fun hdone => hnew (.inl hdone), fun d hd => ?_⟩, fun heq => hnew (.inr heq)⟩
      exact (hdeps d hd).resolve_right fun heq => hmem (heq ▸ hd)
  · rintro (⟨⟨hb, hnew, hdeps⟩, hne⟩ | ⟨hb, hmem, hdeps⟩)
    · exact ⟨hb, fun hor => hor.elim hnew hne, fun d hd => .inl (hdeps d hd)⟩
    · refine ⟨hb, ?_, hdeps⟩
      rintro (hdone | rfl)
      · -- what is in the order has its dependencies there
        obtain ⟨front, back, rfl⟩ := List.append_of_mem hdone
        exact hcurrent.1 (List.mem_append_left _ (hstarted.respects front b back rfl _ hmem))
      · exact hcurrent.1 (hcurrent.2 b hmem)

/-- One round of the loop takes the first node that can come next. -/
theorem Progress.At.step (h : Checked nodes)
    (hstarted : Started (idsOf nodes) (dependencies nodes) done) (hat : progress.At nodes done)
    {ready : List Str} (hready : progress.ready = current :: ready) :
    Progress.At nodes (done ++ [current])
      ((sortedBy ((idsOf nodes).idxOf ·) ((linksOf nodes).consumers current)).foldl
        (Progress.release ((idsOf nodes).idxOf ·))
        { progress with ready, topological := progress.topological ++ [current] }) := by
  obtain ⟨hnodup, hmem⟩ := consumers_linksOf h current
  have hcs : (sortedBy ((idsOf nodes).idxOf ·) ((linksOf nodes).consumers current)).Nodup :=
    (perm_sortedBy _ _).nodup_iff.2 hnodup
  have hmemcs : ∀ a, a ∈ sortedBy ((idsOf nodes).idxOf ·) ((linksOf nodes).consumers current) ↔
      a ∈ (idsOf nodes) ∧ current ∈ dependencies nodes a := fun a => mem_sortedBy.trans (hmem a)
  have havailable : available (idsOf nodes) (dependencies nodes) done = current :: ready :=
    hat.ready.symm.trans hready
  have havailableNodup : (current :: ready).Nodup := havailable ▸ nodup_available h done
  obtain ⟨hnode, hcurrent⟩ := mem_available.1
    (show current ∈ available (idsOf nodes) (dependencies nodes) done from
      havailable ▸ List.mem_cons_self)
  generalize sortedBy ((idsOf nodes).idxOf ·) ((linksOf nodes).consumers current) = cs at hcs hmemcs ⊢
  obtain ⟨htop, hind, hperm, hpair⟩ := @foldl_release
    { progress with ready, topological := progress.topological ++ [current] }
    ((idsOf nodes).idxOf ·) _ hcs
  replace hperm : List.Perm _ (ready ++ cs.filter fun c => progress.indegree c = 1) := hperm
  have hindegree : ∀ a ∈ (idsOf nodes),
      progress.indegree a - (if current ∈ dependencies nodes a then 1 else 0) =
        ((dependencies nodes a).filter (· ∉ done ++ [current])).length := fun a ha => by
    rw [hat.indegree a ha, length_filter_append (nodup_dependencies h ha) hcurrent.1]
  have hwaiting : ∀ a ∈ (idsOf nodes), current ∈ dependencies nodes a →
      (progress.indegree a = 1 ↔
        (dependencies nodes a).filter (· ∉ done ++ [current]) = []) := fun a ha hmem => by
    have := hindegree a ha
    rw [if_pos hmem] at this
    rw [← List.length_eq_zero_iff]
    omega
  refine ⟨?_, ?_, fun a ha => ?_⟩
  · rw [htop, hat.topological]
  · have hready' : ∀ b, b ∈ ready ↔
        b ∈ available (idsOf nodes) (dependencies nodes) done ∧ b ≠ current := fun b => by
      have hnot := (List.nodup_cons.1 havailableNodup).1
      rw [havailable, List.mem_cons]
      refine ⟨fun hb => ⟨.inr hb, fun heq => hnot (heq ▸ hb)⟩, fun hb => hb.1.resolve_left hb.2⟩
    refine eq_of_perm_sorted (hperm.trans ?_) (fun b hb => ?_)
      (hpair ((havailable ▸ pairwise_available h done).tail)) (pairwise_available h _)
    · refine (List.perm_ext_iff_of_nodup ?_ (nodup_available h _)).2 fun b => ?_
      · refine List.nodup_append.2 ⟨(List.nodup_cons.1 havailableNodup).2, hcs.filter _, ?_⟩
        rintro b hb c hc rfl
        obtain ⟨hc, -⟩ := List.mem_filter.1 hc
        have hdeps := (mem_available.1 ((hready' b).1 hb).1).2.2 current ((hmemcs b).1 hc).2
        exact hcurrent.1 hdeps
      · rw [List.mem_append, List.mem_filter, decide_eq_true_eq, hmemcs,
          mem_available_append hstarted hcurrent, hready']
        exact or_congr_right ⟨fun ⟨⟨hb, hmem⟩, hone⟩ => ⟨hb, hmem, (hwaiting b hb hmem).1 hone⟩,
          fun ⟨hb, hmem, hnil⟩ => ⟨⟨hb, hmem⟩, (hwaiting b hb hmem).2 hnil⟩⟩
    · rcases List.mem_append.1 (hperm.mem_iff.1 hb) with hb | hb
      · exact (mem_available.1 ((hready' b).1 hb).1).1
      · exact ((hmemcs b).1 (List.mem_of_mem_filter hb)).1
  · rw [hind, ← hindegree a ha]
    simp only [hmemcs, show a ∈ (idsOf nodes) from ha, true_and]

theorem Progress.At.drain (h : Checked nodes) (rounds : ℕ)
    (hstarted : Started (idsOf nodes) (dependencies nodes) done) (hat : progress.At nodes done) :
    Progress.At nodes (extend (idsOf nodes) (dependencies nodes) rounds done)
      (Packets.drain ((idsOf nodes).idxOf ·) (linksOf nodes).consumers rounds progress) := by
  induction rounds generalizing done progress with
  | zero => exact hat
  | succ rounds ih =>
    rw [Packets.drain, extend]
    cases hready : progress.ready with
    | nil =>
      rw [← hat.ready, hready]
      exact hat
    | cons current ready =>
      have hcurrent : current ∈ available (idsOf nodes) (dependencies nodes) done := by
        rw [← hat.ready, hready]
        exact List.mem_cons_self
      rw [← hat.ready, hready]
      exact ih (hstarted.append hcurrent) (hat.step h hstarted hready)

theorem at_start (h : Checked nodes) :
    Progress.At nodes []
      ⟨(linksOf nodes).indegree,
        sortedBy ((idsOf nodes).idxOf ·) ((idsOf nodes).filter fun id => (linksOf nodes).indegree id = 0), []⟩ where
  topological := rfl
  ready := by
    have hfilter : (idsOf nodes).filter (fun id => (linksOf nodes).indegree id = 0) =
        available (idsOf nodes) (dependencies nodes) [] := List.filter_congr fun a ha => by
      rw [indegree_linksOf h ha]
      simp [CanFollow, List.eq_nil_iff_forall_not_mem]
    refine eq_of_perm_sorted ((perm_sortedBy _ _).trans (.of_eq hfilter)) ?_
      (pairwise_sortedBy _ _) (pairwise_available h [])
    exact fun b hb => List.mem_of_mem_filter (mem_sortedBy.1 hb)
  indegree a ha := by
    simpa using indegree_linksOf h ha

/-- The loop ends with nothing ready, and has built the least order as far as it goes. -/
theorem drain_at (h : Checked nodes) :
    Progress.At nodes (order (idsOf nodes) (dependencies nodes))
      (Packets.drain ((idsOf nodes).idxOf ·) (linksOf nodes).consumers nodes.length
        ⟨(linksOf nodes).indegree,
          sortedBy ((idsOf nodes).idxOf ·)
            ((idsOf nodes).filter fun id => (linksOf nodes).indegree id = 0), []⟩) := by
  rw [order, show (idsOf nodes).length = nodes.length from List.length_map _]
  exact (at_start h).drain h _ started_nil

theorem drain_ready (h : Checked nodes) :
    (Packets.drain ((idsOf nodes).idxOf ·) (linksOf nodes).consumers nodes.length
        ⟨(linksOf nodes).indegree,
          sortedBy ((idsOf nodes).idxOf ·)
            ((idsOf nodes).filter fun id => (linksOf nodes).indegree id = 0), []⟩).ready = [] := by
  rw [(drain_at h).ready, available_order]

/-- What `validate_graph` answers once the checks have passed. -/
theorem topologicalOrder_eq_ok_iff (h : Checked nodes) {topological : List Str} :
    topologicalOrder nodes = .ok topological ↔
      Acyclic (idsOf nodes) (dependencies nodes) ∧ topological = order (idsOf nodes) (dependencies nodes) := by
  have hclosed := closed_dependencies h
  have hlen : (idsOf nodes).length = nodes.length := List.length_map _
  rw [← length_order_iff h.ids hclosed, hlen]
  have hdrain := (drain_at h).topological
  unfold topologicalOrder
  simp only [hdrain]
  split_ifs with hcycle
  · simp [hcycle]
  · rw [not_not] at hcycle
    simp [hcycle, eq_comm, pure, Except.pure]

end Loop

/-! ## The validated graph -/

section Validated

variable {decimal : ℕ → Option ℕ} {document : Dict} {nodes : List GraphNode}

theorem Describes.checked (h : Describes decimal document nodes) : Checked nodes := by
  obtain ⟨raws, -, hforall⟩ := h.entries
  have hnode : ∀ node ∈ nodes, ∃ raw, IsNode decimal (idsOf nodes) raw node := fun node hnode => by
    obtain ⟨raw, -, h⟩ := exists_of_forall₂ hforall.flip node hnode
    exact ⟨raw, h.2⟩
  refine ⟨h.nodup, fun node hmem => ?_, fun node hmem d hd => ?_⟩
  · obtain ⟨raw, h⟩ := hnode node hmem
    exact h.nodup
  · obtain ⟨raw, h⟩ := hnode node hmem
    rcases List.mem_append.1 hd with hd | hd
    · exact h.start.known d hd
    · exact h.completion.known d hd

/-- A graph is accepted when its document describes nodes without a cycle among them, and the order
returned is the least that has every node behind its dependencies. -/
theorem validateGraph_iff (decimal : ℕ → Option ℕ) (document : Dict) :
    ((∃ result, validateGraph decimal document = .ok result) ↔
        ∃ nodes, Describes decimal document nodes ∧ Acyclic (idsOf nodes) (dependencies nodes)) ∧
      ∀ nodes topological, validateGraph decimal document = .ok (nodes, topological) →
        Describes decimal document nodes ∧
          IsOrder (idsOf nodes) (dependencies nodes) topological ∧
          ∀ l, IsOrder (idsOf nodes) (dependencies nodes) l →
            topological = l ∨ List.Lex (Before (idsOf nodes)) topological l := by
  have hok : ∀ nodes topological, validateGraph decimal document = .ok (nodes, topological) ↔
      Describes decimal document nodes ∧ Acyclic (idsOf nodes) (dependencies nodes) ∧
        topological = order (idsOf nodes) (dependencies nodes) := fun nodes topological => by
    simp only [validateGraph, bind_eq_ok, pure_eq_ok, checkNodes_eq_ok, Prod.mk.injEq]
    constructor
    · rintro ⟨_, h, _, horder, rfl, rfl⟩
      exact ⟨h, (topologicalOrder_eq_ok_iff h.checked).1 horder⟩
    · rintro ⟨h, horder⟩
      exact ⟨nodes, h, topological, (topologicalOrder_eq_ok_iff h.checked).2 horder, rfl, rfl⟩
  refine ⟨⟨?_, ?_⟩, fun nodes topological h => ?_⟩
  · rintro ⟨⟨nodes, topological⟩, h⟩
    obtain ⟨hdescribes, hacyclic, -⟩ := (hok nodes topological).1 h
    exact ⟨nodes, hdescribes, hacyclic⟩
  · rintro ⟨nodes, hdescribes, hacyclic⟩
    exact ⟨_, (hok nodes _).2 ⟨hdescribes, hacyclic, rfl⟩⟩
  · obtain ⟨hdescribes, hacyclic, rfl⟩ := (hok nodes topological).1 h
    have hchecked := hdescribes.checked
    have hlen := (length_order_iff hchecked.ids (closed_dependencies hchecked)).2 hacyclic
    exact ⟨hdescribes, isOrder_order hlen, fun l hl => order_le hl hchecked.ids⟩

def sampleEntry (id : Str) : Value :=
  .obj [(str "id", .str id),
    (str "kind", .str (if (str "J").startsWith id then str "join" else str "packet")),
    (str "owner", .str (expectedOwner id)), (str "lifecycle", .str (str "planned")),
    (str "start_requires", .arr
      (if id = str "J13" then [.str (str "P13..P18"), .str (str "P26")]
      else if id = str "J19" then [.str (str "P19..P20")]
      else if id = str "P00" then [.str (str "P01")] else [])),
    (str "completion_requires", .arr (if id = str "P00" then [.str (str "P02")] else []))]

/-- All nodes in order, the first with a dependency of each kind. -/
def sampleDocument : Dict :=
  [(str "schema_version", .str (str "1.0.0")), (str "kind", .str (str "jumpship-mvp-packet-graph")),
    (str "nodes", .arr (expectedNodeIds.map sampleEntry))]

theorem validateGraph_sample :
    ∃ nodes topological, validateGraph (fun _ => none) sampleDocument = .ok (nodes, topological) ∧
      IsOrder (idsOf nodes) (dependencies nodes) topological := by
  have hok : (validateGraph (fun _ => none) sampleDocument).isOk = true := by decide +kernel
  cases h : validateGraph (fun _ => none) sampleDocument with
  | error e =>
    rw [h] at hok
    cases hok
  | ok result =>
    exact ⟨result.1, result.2, rfl,
      ((validateGraph_iff _ sampleDocument).2 result.1 result.2 h).2.1⟩

end Validated

end Packets
