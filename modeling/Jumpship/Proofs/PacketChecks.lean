import Jumpship.Lib.Fallible
import Jumpship.Packets.Graph

/-!
# What the packet graph's checks accept

A document that describes a list of nodes: each entry has the fields of its node, and each list of
expressions expands to known nodes, none of them twice.
-/

namespace Packets

open Fallible Pattern Py Regex

variable {decimal : ℕ → Option ℕ} {known : List Str}

/-! ## Dependencies -/

section Dependencies

/-- The nodes an expression stands for. -/
inductive Values (decimal : ℕ → Option ℕ) (expression : Str) : List Str → Prop
  | range (start stop : ℕ) (hmatch : matchRange decimal expression.codes = some (start, stop))
      (hle : start ≤ stop) (hstop : stop ≤ 28) :
      Values decimal expression ((List.range' start (stop + 1 - start)).map packetId)
  | node (hmatch : matchRange decimal expression.codes = none) (hnode : expression ∈ expectedNodeIds) :
      Values decimal expression [expression]

/-- The dependencies that an array of expressions gives. -/
structure Expands (decimal : ℕ → Option ℕ) (known : List Str) (value : Value) (deps : List Str) :
    Prop where
  values : ∃ expressions chunks, value = .arr (expressions.map .str) ∧
    List.Forall₂ (Values decimal) expressions chunks ∧ deps = chunks.flatten
  nodup : deps.Nodup
  known : ∀ d ∈ deps, d ∈ known

theorem mem_char_mul {a : ℕ} {p : RegularExpression ℕ} {w : List ℕ} :
    w ∈ (RegularExpression.char a * p).matches' ↔ ∃ v ∈ p.matches', w = a :: v := by
  rw [mem_matches_mul]
  constructor
  · rintro ⟨u, hu, v, hv, rfl⟩
    rw [mem_matches_char.1 hu]
    exact ⟨v, hv, rfl⟩
  · rintro ⟨v, hv, rfl⟩
    exact ⟨[a], mem_matches_char.2 rfl, v, hv, rfl⟩

theorem mem_nodeRe {w : List ℕ} :
    w ∈ nodeRe.expression.matches' ↔ w ∈ expectedNodeIds.map Str.codes := by
  constructor
  · intro h
    rcases mem_matches_add.1 h with h | h <;> obtain ⟨v, hv, rfl⟩ := mem_char_mul.1 h
    · rcases mem_matches_add.1 hv with hv | hv
      · obtain ⟨u, hu, rfl⟩ := mem_char_mul.1 hv
        obtain ⟨c, hc, rfl⟩ := mem_oneOf.1 hu
        revert c
        decide
      · rcases mem_matches_add.1 hv with hv | hv
        all_goals
          obtain ⟨u, hu, rfl⟩ := mem_char_mul.1 hv
          obtain ⟨c, hc, rfl⟩ := mem_oneOf.1 hu
          revert c
          decide
    · rcases mem_matches_add.1 hv with hv | hv
      all_goals
        obtain ⟨u, hu, rfl⟩ := mem_char_mul.1 hv
        obtain rfl := mem_matches_char.1 hu
        decide
  · intro h
    have hall : ∀ w ∈ expectedNodeIds.map Str.codes, nodeRe.expression.rmatch w = true := by
      decide +kernel
    exact RegularExpression.rmatch_iff_matches' _ _ |>.1 (hall w h)

theorem fullmatch_nodeRe {expression : Str} :
    fullmatch nodeRe expression = true ↔ expression ∈ expectedNodeIds := by
  rw [fullmatch, RegularExpression.rmatch_iff_matches', mem_nodeRe, List.mem_map]
  exact ⟨fun ⟨s, hs, hcodes⟩ => Str.codes_injective hcodes ▸ hs, fun h => ⟨_, h, rfl⟩⟩

theorem expandExpression_eq_ok {field : Field} {expression : Str} {values : List Str} :
    expandExpression decimal field expression = .ok values ↔ Values decimal expression values := by
  unfold expandExpression
  cases hmatch : matchRange decimal expression.codes with
  | some range =>
    obtain ⟨start, stop⟩ := range
    simp only [ite_throw_eq_ok, pure_eq_ok, not_lt]
    constructor
    · rintro ⟨hle, hstop, rfl⟩
      exact .range start stop hmatch hle hstop
    · intro h
      cases h with
      | range start' stop' hmatch' hle hstop =>
        rw [hmatch'] at hmatch
        cases hmatch
        exact ⟨hle, hstop, rfl⟩
      | node hmatch' => cases hmatch'.symm.trans hmatch
  | none =>
    simp only [ite_throw_eq_ok, pure_eq_ok, Bool.not_eq_true', Bool.not_eq_false, fullmatch_nodeRe]
    constructor
    · rintro ⟨-, hnode, rfl⟩
      exact .node hmatch hnode
    · intro h
      cases h with
      | range start' stop' hmatch' => cases hmatch'.symm.trans hmatch
      | node _ hnode =>
        have hplain : ∀ s ∈ expectedNodeIds, ¬ looksLikeJoinRange s = true := by decide +kernel
        exact ⟨hplain _ hnode, hnode, rfl⟩

theorem stringList_eq_ok {value : Value} {field : Field} {items : List Str} :
    stringList value field = .ok items ↔ value = .arr (items.map .str) := by
  unfold stringList
  cases value with
  | arr values =>
    simp only [mapM_eq_ok, Json.arr.injEq]
    constructor
    · intro h
      induction h with
      | nil => rfl
      | @cons v s values items hv _ ih =>
        cases v with
        | str t => rw [List.map_cons, pure_eq_ok.1 hv, ih]
        | _ => cases hv
    · rintro rfl
      rw [List.forall₂_map_left_iff]
      exact List.forall₂_same.2 fun s _ => rfl
  | _ => exact iff_of_false throw_ne_ok nofun

theorem foldlM_addDependency {field : Field} {values expanded deps : List Str}
    (hexpanded : expanded.Nodup) :
    values.foldlM (addDependency field known) expanded = .ok deps ↔
      deps = expanded ++ values ∧ deps.Nodup ∧ ∀ v ∈ values, v ∈ known := by
  induction values generalizing expanded with
  | nil =>
    rw [List.foldlM_nil, pure_eq_ok, List.append_nil]
    exact ⟨fun h => ⟨h.symm, h ▸ hexpanded, nofun⟩, fun h => h.1.symm⟩
  | cons v values ih =>
    have happend : (expanded ++ [v]).Nodup ↔ v ∉ expanded := by
      rw [List.nodup_append_comm, List.singleton_append, List.nodup_cons, and_iff_left hexpanded]
    simp only [List.foldlM_cons, bind_eq_ok, addDependency, ite_throw_eq_ok, pure_eq_ok, not_not]
    constructor
    · rintro ⟨_, ⟨hknown, hnew, rfl⟩, h⟩
      obtain ⟨rfl, hnodup, hrest⟩ := (ih (happend.2 hnew)).1 h
      exact ⟨by simp, hnodup, List.forall_mem_cons.2 ⟨hknown, hrest⟩⟩
    · rintro ⟨rfl, hnodup, hall⟩
      obtain ⟨hknown, hrest⟩ := List.forall_mem_cons.1 hall
      have hsplit : expanded ++ v :: values = expanded ++ [v] ++ values := by simp
      have hnew : (expanded ++ [v]).Nodup := List.Nodup.of_append_left (hsplit ▸ hnodup)
      exact ⟨_, ⟨hknown, happend.1 hnew, rfl⟩, (ih hnew).2 ⟨hsplit, hnodup, hrest⟩⟩

theorem foldlM_expand {field : Field} {expressions expanded deps : List Str}
    (hexpanded : expanded.Nodup) :
    expressions.foldlM (fun expanded expression => do
        let values ← expandExpression decimal field expression
        values.foldlM (addDependency field known) expanded) expanded = .ok deps ↔
      ∃ chunks, List.Forall₂ (Values decimal) expressions chunks ∧
        deps = expanded ++ chunks.flatten ∧ deps.Nodup ∧ ∀ v ∈ chunks.flatten, v ∈ known := by
  induction expressions generalizing expanded with
  | nil =>
    simp only [List.foldlM_nil, pure_eq_ok, List.forall₂_nil_left_iff, exists_eq_left,
      List.flatten_nil, List.append_nil]
    exact ⟨fun h => ⟨h.symm, h ▸ hexpanded, nofun⟩, fun h => h.1.symm⟩
  | cons expression expressions ih =>
    simp only [List.foldlM_cons, bind_eq_ok, expandExpression_eq_ok]
    constructor
    · rintro ⟨_, ⟨values, hvalues, hfold⟩, h⟩
      obtain ⟨rfl, hnodup, hknown⟩ := (foldlM_addDependency hexpanded).1 hfold
      obtain ⟨chunks, hchunks, rfl, hdeps, hrest⟩ := (ih hnodup).1 h
      refine ⟨values :: chunks, .cons hvalues hchunks, by simp, hdeps, ?_⟩
      rw [List.flatten_cons, List.forall_mem_append]
      exact ⟨hknown, hrest⟩
    · rintro ⟨_, hforall, rfl, hnodup, hall⟩
      obtain ⟨values, chunks, hvalues, hchunks, rfl⟩ := List.forall₂_cons_left_iff.1 hforall
      rw [List.flatten_cons, List.forall_mem_append] at hall
      have hsplit : expanded ++ (values :: chunks).flatten = expanded ++ values ++ chunks.flatten := by
        rw [List.flatten_cons, List.append_assoc]
      have hfirst : (expanded ++ values).Nodup := List.Nodup.of_append_left (hsplit ▸ hnodup)
      exact ⟨_, ⟨values, hvalues, (foldlM_addDependency hexpanded).2 ⟨rfl, hfirst, hall.1⟩⟩,
        (ih hfirst).2 ⟨chunks, hchunks, hsplit, hnodup, hall.2⟩⟩

theorem expandDependencies_eq_ok {value : Value} {field : Field} {deps : List Str} :
    expandDependencies decimal value field known = .ok deps ↔ Expands decimal known value deps := by
  simp only [expandDependencies, bind_eq_ok, stringList_eq_ok, foldlM_expand List.nodup_nil,
    List.nil_append]
  constructor
  · rintro ⟨expressions, rfl, chunks, hchunks, rfl, hnodup, hknown⟩
    exact ⟨⟨expressions, chunks, rfl, hchunks, rfl⟩, hnodup, hknown⟩
  · rintro ⟨⟨expressions, chunks, rfl, hchunks, rfl⟩, hnodup, hknown⟩
    exact ⟨expressions, rfl, chunks, hchunks, rfl, hnodup, hknown⟩

end Dependencies

/-! ## Nodes -/

section Nodes

/-- An entry of the document and the node it describes. -/
structure IsNode (decimal : ℕ → Option ℕ) (known : List Str) (raw : Dict) (node : GraphNode) : Prop where
  kind : get raw "kind" = .str node.kind
  kind_eq : node.kind = if (str "J").startsWith node.id then str "join" else str "packet"
  owner : get raw "owner" = .str node.owner
  owner_eq : node.owner = expectedOwner node.id
  lifecycle : get raw "lifecycle" = .str node.lifecycle
  lifecycle_mem : node.lifecycle ∈ lifecycles
  start : Expands decimal known (get raw "start_requires") node.startRequires
  completion : Expands decimal known (get raw "completion_requires") node.completionRequires
  self : node.id ∉ node.requires
  nodup : node.requires.Nodup

theorem isStr_iff {value : Value} {s : Str} : isStr value s = true ↔ value = .str s := by
  cases value <;> simp [isStr]

theorem requireIn_eq_ok {ε : Type} {unhashable e : ε} {options : List Str} {value : Value} {s : Str} :
    requireIn unhashable options e value = .ok s ↔ value = .str s ∧ s ∈ options := by
  unfold requireIn
  cases value with
  | str t =>
    simp only [hashable, Bool.not_true, Bool.false_eq_true, if_false, ite_throw_eq_ok, pure_eq_ok,
      not_not, Json.str.injEq]
    exact ⟨fun ⟨h, heq⟩ => ⟨heq, heq ▸ h⟩, fun ⟨heq, h⟩ => ⟨heq ▸ h, heq⟩⟩
  | _ => simp [hashable, throw_ne_ok]

theorem sorted_eq_nil {xs : List Str} : sorted xs.dedup = [] ↔ xs = [] := by
  rw [← List.length_eq_zero_iff, sorted, (perm_sortedBy id _).length_eq, List.length_eq_zero_iff,
    List.dedup_eq_nil]

theorem checkNode_eq_ok {index : ℕ} {nodeId : Str} {raw : Dict} {node : GraphNode} :
    checkNode decimal known index nodeId raw = .ok node ↔
      node.id = nodeId ∧ IsNode decimal known raw node := by
  simp only [checkNode, unless_eq_ok, bind_eq_ok, pure_eq_ok, Bool.not_eq_true', Bool.not_eq_false,
    isStr_iff, requireIn_eq_ok, expandDependencies_eq_ok, not_not, sorted_eq_nil,
    List.filter_eq_nil_iff, decide_eq_true_eq]
  constructor
  · rintro ⟨hkind, howner, lifecycle, ⟨hlifecycle, hmem⟩, start, hstart, completion, hcompletion, hself,
      hdisjoint, rfl⟩
    refine ⟨rfl, hkind, rfl, howner, rfl, hlifecycle, hmem, hstart, hcompletion, ?_, ?_⟩
    · simpa [GraphNode.requires] using hself
    · exact List.nodup_append.2 ⟨hstart.nodup, hcompletion.nodup,
        fun a ha b hb heq => hdisjoint a ha (heq ▸ hb)⟩
  · rintro ⟨rfl, h⟩
    obtain ⟨-, -, hdisjoint⟩ := List.nodup_append.1 h.nodup
    refine ⟨h.kind_eq ▸ h.kind, h.owner_eq ▸ h.owner, node.lifecycle, ⟨h.lifecycle, h.lifecycle_mem⟩,
      node.startRequires, h.start, node.completionRequires, h.completion, ?_, ?_, ?_⟩
    · simpa [GraphNode.requires] using h.self
    · exact fun a ha hb => hdisjoint a ha a hb rfl
    · rw [← h.kind_eq, ← h.owner_eq]

theorem nodeId_eq_ok {index : ℕ} {raw : Value} {entry : Str × Dict} :
    nodeId index raw = .ok entry ↔ raw = .obj entry.2 ∧ get entry.2 "id" = .str entry.1 := by
  obtain ⟨s, d⟩ := entry
  cases raw with
  | obj ms =>
    rw [nodeId, Json.obj.injEq]
    cases hid : get ms "id" with
    | str t =>
      rw [pure_eq_ok, Prod.mk.injEq]
      constructor
      · rintro ⟨rfl, rfl⟩
        exact ⟨rfl, hid⟩
      · rintro ⟨rfl, h⟩
        exact ⟨Json.str.inj (hid.symm.trans h), rfl⟩
    | _ =>
      refine iff_of_false throw_ne_ok ?_
      rintro ⟨rfl, h⟩
      cases hid.symm.trans h
  | _ => exact iff_of_false throw_ne_ok fun h => nomatch h.1

end Nodes

/-! ## The document -/

section Document

/-- The ids, in document order. -/
abbrev idsOf (nodes : List GraphNode) : List Str := nodes.map (·.id)

/-- The document of a list of nodes. -/
structure Describes (decimal : ℕ → Option ℕ) (document : Dict) (nodes : List GraphNode) : Prop where
  schemaVersion : get document "schema_version" = .str (str "1.0.0")
  kind : get document "kind" = .str (str "jumpship-mvp-packet-graph")
  entries : ∃ raws : List Dict, get document "nodes" = .arr (raws.map .obj) ∧
    List.Forall₂ (fun raw node => get raw "id" = .str node.id ∧ IsNode decimal (idsOf nodes) raw node)
      raws nodes
  nodup : (idsOf nodes).Nodup
  ids : ∀ id, id ∈ idsOf nodes ↔ id ∈ expectedNodeIds
  join13 : startRequiresOf nodes (str "J13") =
    some (["P13", "P14", "P15", "P16", "P17", "P18", "P26"].map str)
  join19 : startRequiresOf nodes (str "J19") = some (["P19", "P20"].map str)

theorem rawNodes_eq_ok {document : Dict} {raws : List Value} :
    rawNodes document = .ok raws ↔ get document "nodes" = .arr raws := by
  unfold rawNodes
  cases get document "nodes" with
  | arr xs => rw [pure_eq_ok, Json.arr.injEq]
  | _ => exact iff_of_false throw_ne_ok nofun

theorem forall_count_iff {ids : List Str} : (∀ id ∈ ids, ¬ 1 < ids.count id) ↔ ids.Nodup := by
  rw [List.nodup_iff_count_le_one]
  refine ⟨fun h id => ?_, fun h id _ => not_lt.2 (h id)⟩
  by_cases hid : id ∈ ids
  · exact not_lt.1 (h id hid)
  · rw [List.count_eq_zero_of_not_mem hid]
    exact Nat.zero_le 1

/-- Entries with their ids, and the nodes made of them. -/
theorem forall₂_entries {values : List Value} {nodes : List GraphNode} :
    (∃ raws : List (Str × Dict),
        List.Forall₂ (fun value entry => value = Json.obj entry.2 ∧ get entry.2 "id" = .str entry.1)
          values raws ∧
        List.Forall₂ (fun entry node => node.id = entry.1 ∧ IsNode decimal known entry.2 node)
          raws nodes) ↔
      ∃ raws : List Dict, values = raws.map .obj ∧
        List.Forall₂ (fun raw node => get raw "id" = .str node.id ∧ IsNode decimal known raw node)
          raws nodes := by
  induction nodes generalizing values with
  | nil =>
    simp only [List.forall₂_nil_right_iff]
    constructor
    · rintro ⟨_, h, rfl⟩
      obtain rfl := List.forall₂_nil_right_iff.1 h
      exact ⟨[], rfl, rfl⟩
    · rintro ⟨_, rfl, rfl⟩
      exact ⟨[], .nil, rfl⟩
  | cons node nodes ih =>
    simp only [List.forall₂_cons_right_iff]
    constructor
    · rintro ⟨_, hvalues, entry, raws, ⟨hid, hnode⟩, hnodes, rfl⟩
      obtain ⟨value, values, ⟨rfl, hentry⟩, hrest, rfl⟩ := List.forall₂_cons_right_iff.1 hvalues
      obtain ⟨dicts, rfl, hdicts⟩ := ih.1 ⟨raws, hrest, hnodes⟩
      exact ⟨entry.2 :: dicts, rfl, _, _, ⟨hid ▸ hentry, hnode⟩, hdicts, rfl⟩
    · rintro ⟨_, rfl, raw, dicts, ⟨hid, hnode⟩, hnodes, rfl⟩
      obtain ⟨raws, hraws, hrest⟩ := ih.2 ⟨dicts, rfl, hnodes⟩
      exact ⟨(node.id, raw) :: raws, .cons ⟨rfl, hid⟩ hraws, _, _, ⟨rfl, hnode⟩, hrest, rfl⟩

theorem map_fst_eq {raws : List (Str × Dict)} {nodes : List GraphNode}
    (h : List.Forall₂ (fun entry node => node.id = entry.1 ∧ IsNode decimal known entry.2 node)
      raws nodes) : raws.map Prod.fst = idsOf nodes := by
  induction h with
  | nil => rfl
  | cons hnode _ ih => rw [List.map_cons, idsOf, List.map_cons, hnode.1, ih]

theorem mapM_nodeId {values : List Value} {raws : List (Str × Dict)} :
    values.zipIdx.mapM (fun x => nodeId x.2 x.1) = .ok raws ↔
      List.Forall₂ (fun value entry => value = Json.obj entry.2 ∧ get entry.2 "id" = .str entry.1)
        values raws := mapM_zipIdx_eq_ok (f := nodeId) fun _ _ _ => nodeId_eq_ok

theorem mapM_checkNode {raws : List (Str × Dict)} {nodes : List GraphNode} :
    raws.zipIdx.mapM (fun x => checkNode decimal known x.2 x.1.1 x.1.2) = .ok nodes ↔
      List.Forall₂ (fun entry node => node.id = entry.1 ∧ IsNode decimal known entry.2 node)
        raws nodes :=
  mapM_zipIdx_eq_ok (f := fun index (entry : Str × Dict) =>
    checkNode decimal known index entry.1 entry.2) fun _ _ _ => checkNode_eq_ok

theorem checkNodes_eq_ok {document : Dict} {nodes : List GraphNode} :
    checkNodes decimal document = .ok nodes ↔ Describes decimal document nodes := by
  simp only [checkNodes, unless_eq_ok, bind_eq_ok, pure_eq_ok, Bool.not_eq_true', Bool.not_eq_false,
    isStr_iff, rawNodes_eq_ok, mapM_nodeId, mapM_checkNode, sorted_eq_nil, forall_count_iff,
    not_not, not_or, List.filter_eq_nil_iff, decide_eq_true_eq]
  constructor
  · rintro ⟨hversion, hkind, values, hvalues, raws, hraws, hnodup, ⟨hmissing, hextra⟩, _, hnodes,
      h13, h19, rfl⟩
    have hids := map_fst_eq hnodes
    rw [hids] at hnodup hmissing hextra hnodes
    obtain ⟨dicts, rfl, hdicts⟩ := forall₂_entries.1 ⟨raws, hraws, hnodes⟩
    exact ⟨hversion, hkind, ⟨dicts, hvalues, hdicts⟩, hnodup,
      fun id => ⟨hextra id, hmissing id⟩, h13, h19⟩
  · intro h
    obtain ⟨dicts, hvalues, hdicts⟩ := h.entries
    obtain ⟨raws, hraws, hnodes⟩ := forall₂_entries.2 ⟨dicts, rfl, hdicts⟩
    have hids := map_fst_eq hnodes
    refine ⟨h.schemaVersion, h.kind, _, hvalues, raws, hraws, ?_⟩
    rw [hids]
    exact ⟨h.nodup, ⟨fun id => (h.ids id).2, fun id => (h.ids id).1⟩, nodes, hnodes, h.join13,
      h.join19, rfl⟩

end Document

end Packets
