import Mathlib.Data.List.Perm.Subperm
import Mathlib.Logic.Relation
import Jumpship.Architecture.Boundaries
import Jumpship.Lib.Walks

/-!
# The boundary report is exact

The report has one entry for each rule, source and target the rule matches with the target
transitively imported, on the least of the shortest import paths, whatever the order of the sites.
-/

namespace Architecture

open Py Walks

/-- A site of the list imports the one from the other. -/
def Imports (sites : List ImportSite) (source target : Str) : Prop :=
  ∃ site ∈ sites, site.source = source ∧ site.target = target

/-! ## The import graph -/

section Graph

variable {sites : List ImportSite}

theorem mem_add {members : List Str} {member x : Str} :
    x ∈ add members member ↔ x ∈ members ∨ x = member := by
  unfold add
  split_ifs with h
  · refine ⟨.inl, fun hx => ?_⟩
    rcases hx with hx | rfl
    · exact hx
    · exact h
  · simp

theorem nodup_add {members : List Str} {member : Str} (h : members.Nodup) :
    (add members member).Nodup := by
  unfold add
  split_ifs with hmem
  · exact h
  · refine List.nodup_append.2 ⟨h, List.nodup_singleton _, fun x hx y hy => ?_⟩
    rw [List.mem_singleton.1 hy]
    exact ne_of_mem_of_not_mem hx hmem

theorem mem_foldl_add {x : Str} : ∀ {xs members : List Str},
    x ∈ xs.foldl add members ↔ x ∈ members ∨ x ∈ xs
  | [], members => by simp
  | y :: xs, members => by
    rw [List.foldl_cons, mem_foldl_add, mem_add, List.mem_cons, or_assoc]

theorem nodup_foldl_add : ∀ {xs members : List Str}, members.Nodup → (xs.foldl add members).Nodup
  | [], _, h => h
  | _ :: xs, _, h => @nodup_foldl_add xs _ (nodup_add h)

theorem targetsOf_cons (node : Str) (targets : List Str) (graph : Graph) (source : Str) :
    targetsOf ((node, targets) :: graph) source
      = if source = node then targets else targetsOf graph source := by
  unfold targetsOf
  rw [Json.lookup_cons_eq]
  split_ifs <;> rfl

theorem targetsOf_addEdge (source target : Str) (graph : Graph) (s : Str) :
    targetsOf (addEdge source target graph) s
      = if s = source then add (targetsOf graph s) target else targetsOf graph s := by
  induction graph with
  | nil =>
    rw [addEdge, targetsOf_cons]
    rfl
  | cons entry graph ih =>
    obtain ⟨node, targets⟩ := entry
    by_cases hnode : node = source
    · rw [addEdge, if_pos hnode, targetsOf_cons, targetsOf_cons, hnode]
      by_cases h : s = source <;> simp [h]
    · rw [addEdge, if_neg hnode, targetsOf_cons, targetsOf_cons, ih]
      by_cases h : s = node
      · simp [h, hnode]
      · simp [h]

theorem mem_targetsOf_foldl {s t : Str} : ∀ {sites : List ImportSite} {graph : Graph},
    t ∈ targetsOf (sites.foldl (fun g site => addEdge site.source site.target g) graph) s ↔
      t ∈ targetsOf graph s ∨ Imports sites s t
  | [], graph => by simp [Imports]
  | site :: sites, graph => by
    rw [List.foldl_cons, mem_targetsOf_foldl, targetsOf_addEdge]
    by_cases h : s = site.source
    · rw [if_pos h, mem_add]
      simp [Imports, h, or_assoc, eq_comm]
    · rw [if_neg h]
      simp [Imports, Ne.symm h]

theorem mem_targetsOf {s t : Str} : t ∈ targetsOf (importGraph sites) s ↔ Imports sites s t := by
  rw [importGraph, mem_targetsOf_foldl]
  simp [targetsOf]

theorem nodup_targetsOf (sites : List ImportSite) (s : Str) :
    (targetsOf (importGraph sites) s).Nodup := by
  have hfold : ∀ (sites : List ImportSite) (graph : Graph), (targetsOf graph s).Nodup →
      (targetsOf (sites.foldl (fun g site => addEdge site.source site.target g) graph) s).Nodup := by
    intro sites
    induction sites with
    | nil => exact fun _ h => h
    | cons site sites ih =>
      intro graph h
      refine ih _ ?_
      rw [targetsOf_addEdge]
      split_ifs
      · exact nodup_add h
      · exact h
  exact hfold sites [] List.nodup_nil

theorem mem_nodesOf {graph : Graph} {x : Str} :
    x ∈ nodesOf graph ↔ x ∈ graph.map Prod.fst ∨ x ∈ graph.flatMap Prod.snd := by
  rw [nodesOf, mem_foldl_add, List.mem_append]
  simp

theorem nodup_nodesOf (graph : Graph) : (nodesOf graph).Nodup := nodup_foldl_add List.nodup_nil

theorem mem_nodesOf_of_imports {s t : Str} (h : Imports sites s t) :
    s ∈ nodesOf (importGraph sites) ∧ t ∈ nodesOf (importGraph sites) := by
  have ht := mem_targetsOf.2 h
  rw [targetsOf] at ht
  rcases hlookup : (importGraph sites).lookup s with _ | targets
  · rw [hlookup] at ht
    cases ht
  · rw [hlookup] at ht
    have hmem := Json.mem_of_lookup hlookup
    exact ⟨mem_nodesOf.2 (.inl (List.mem_map.2 ⟨_, hmem, rfl⟩)),
      mem_nodesOf.2 (.inr (List.mem_flatMap.2 ⟨_, hmem, ht⟩))⟩

end Graph

/-! ## The site of an edge -/

section Sites

/-- A site stands in the dict under its own ends, and it is the only dict they have. -/
theorem siteByEdge_spec (sites : List ImportSite) :
    (∀ e ∈ siteByEdge sites, e.2 ∈ sites ∧ e.1 = (e.2.source, e.2.target)) ∧
      ∀ site ∈ sites, (site.source, site.target) ∈ (siteByEdge sites).map Prod.fst := by
  unfold siteByEdge
  induction sites using List.reverseRecOn with
  | nil => simp
  | append_singleton sites site ih =>
    rw [List.foldl_append, List.foldl_cons, List.foldl_nil]
    split_ifs with h
    · refine ⟨fun e he => ?_, fun x hx => ?_⟩
      · exact ⟨List.mem_append_left _ (ih.1 e he).1, (ih.1 e he).2⟩
      · rcases List.mem_append.1 hx with hx | hx
        · exact ih.2 x hx
        · rwa [List.mem_singleton.1 hx]
    · refine ⟨fun e he => ?_, fun x hx => ?_⟩
      · rcases List.mem_append.1 he with he | he
        · exact ⟨List.mem_append_left _ (ih.1 e he).1, (ih.1 e he).2⟩
        · rw [List.mem_singleton.1 he]
          simp
      · rw [List.map_append]
        rcases List.mem_append.1 hx with hx | hx
        · exact List.mem_append_left _ (ih.2 x hx)
        · rw [List.mem_singleton.1 hx]
          simp

theorem exists_site {sites : List ImportSite} {s t : Str} (h : Imports sites s t) :
    ∃ site ∈ sites, (siteByEdge sites).lookup (s, t) = some site ∧
      (site.source, site.target) = (s, t) := by
  obtain ⟨site, hsite, rfl, rfl⟩ := h
  obtain ⟨hmem, hkeys⟩ := siteByEdge_spec sites
  rcases hlookup : (siteByEdge sites).lookup (site.source, site.target) with _ | found
  · exact absurd (hkeys site hsite) (Json.lookup_eq_none.1 hlookup)
  · obtain ⟨hfound, hends⟩ := hmem _ (Json.mem_of_lookup hlookup)
    exact ⟨found, hfound, rfl, hends.symm⟩

/-- Every edge of a path has its site. -/
theorem exists_pathSites {sites : List ImportSite} : ∀ {p : List Str}, p.IsChain (Imports sites) →
    ∃ xs, (p.zip p.tail).mapM (fun ends => (siteByEdge sites).lookup ends) = some xs ∧
      xs.map (fun x => (x.source, x.target)) = p.zip p.tail ∧ ∀ x ∈ xs, x ∈ sites
  | [], _ => ⟨[], rfl, rfl, by simp⟩
  | [_], _ => ⟨[], rfl, rfl, by simp⟩
  | a :: b :: p, h => by
    obtain ⟨hab, hp⟩ := List.isChain_cons_cons.1 h
    obtain ⟨site, hsite, hlookup, hends⟩ := exists_site hab
    obtain ⟨xs, hxs, hxends, hxmem⟩ := exists_pathSites hp
    rw [List.tail_cons] at hxs hxends
    refine ⟨site :: xs, ?_, ?_, List.forall_mem_cons.2 ⟨hsite, hxmem⟩⟩
    · rw [List.tail_cons, List.zip_cons_cons, List.mapM_cons, hlookup, hxs]
      rfl
    · rw [List.map_cons, List.tail_cons, List.zip_cons_cons, hxends, hends]

end Sites

/-! ## The search -/

section Search

theorem expand_eq (path : List Str) : ∀ {targets : List Str} {search : Search}, targets.Nodup →
    expand path targets search =
      ⟨search.queue ++ (targets.filter (· ∉ search.visited)).map fun t => path ++ [t],
        search.visited ++ targets.filter (· ∉ search.visited),
        search.paths ++ (targets.filter (· ∉ search.visited)).map fun t => (t, path ++ [t])⟩
  | [], search, _ => by simp [expand]
  | target :: targets, search, h => by
    rw [List.nodup_cons] at h
    by_cases hvisited : target ∈ search.visited
    · rw [expand, if_pos hvisited, expand_eq path h.2, List.filter_cons_of_neg (by simpa)]
    · have hfilter : targets.filter (· ∉ search.visited ++ [target])
          = targets.filter (· ∉ search.visited) := by
        refine List.filter_congr fun t ht => ?_
        have hne : t ≠ target := ne_of_mem_of_not_mem ht h.1
        simp [hne]
      rw [expand, if_neg hvisited]
      dsimp only
      rw [expand_eq path h.2, List.filter_cons_of_pos (by simpa)]
      simp only [hfilter, List.append_assoc, List.singleton_append, List.map_cons]

variable {sites : List ImportSite} {start : Str}

/-- A search as the frontier it keeps. -/
structure Keeps (sites : List ImportSite) (start : Str) (done queue : List (Str × List Str))
    (search : Search) : Prop where
  frontier : Frontier (Imports sites) start done queue
  queue_eq : search.queue = queue.map Prod.snd
  visited : search.visited = (done ++ queue).map Prod.fst
  paths : (start, [start]) :: search.paths = done ++ queue

/-- One round of the search, from the front of its queue. -/
theorem Keeps.expand {done queue : List (Str × List Str)} {e : Str × List Str} {search : Search}
    (h : Keeps sites start done (e :: queue) search) :
    ∃ queue', Keeps sites start (done ++ [e]) queue'
      (expand e.2 (sorted (e.2.getLast?.elim [] (targetsOf (importGraph sites))))
        { search with queue := queue.map Prod.snd }) := by
  have hwalk := (h.frontier.least e (by simp)).1
  have hlast : e.2.getLast?.elim [] (targetsOf (importGraph sites))
      = targetsOf (importGraph sites) e.1 := by
    rw [hwalk.getLast?]
    rfl
  rw [hlast]
  have hstrict := pairwise_sorted (nodup_targetsOf sites e.1)
  rw [expand_eq e.2 (hstrict.imp fun hlt => hlt.ne)]
  dsimp only
  set fresh := (sorted (targetsOf (importGraph sites) e.1)).filter (· ∉ search.visited) with hfresh
  refine ⟨queue ++ fresh.map fun b => (b, e.2 ++ [b]), ?_, ?_, ?_, ?_⟩
  · refine h.frontier.step (hstrict.filter _) fun b => ?_
    rw [hfresh, List.mem_filter, mem_sorted, mem_targetsOf, h.visited, decide_eq_true_eq]
  · simp
  · simp [h.visited, Function.comp_def]
  · rw [← List.cons_append, h.paths]
    simp

theorem searchFrom_spec : ∀ (fuel : ℕ) {done queue : List (Str × List Str)} {search : Search},
    Keeps sites start done queue search →
    (nodesOf (importGraph sites)).length + 1 < fuel + done.length →
    ∃ paths, searchFrom (importGraph sites) fuel search = some paths ∧
      Frontier (Imports sites) start ((start, [start]) :: paths) []
  | 0, done, queue, search, h, hfuel => by
    have hsub : (done ++ queue).map Prod.fst ⊆ start :: nodesOf (importGraph sites) := by
      intro x hx
      obtain ⟨⟨x, p⟩, he, rfl⟩ := List.mem_map.1 hx
      have hwalk : Walk (Imports sites) start p x := (h.frontier.least _ he).1
      cases hwalk with
      | start => exact List.mem_cons_self
      | step _ hstep => exact List.mem_cons_of_mem _ (mem_nodesOf_of_imports hstep).2
    have hle := (h.frontier.distinct.subperm hsub).length_le
    rw [List.length_map, List.length_append, List.length_cons] at hle
    omega
  | fuel + 1, done, [], search, h, _ => by
    refine ⟨search.paths, ?_, ?_⟩
    · rw [searchFrom, h.queue_eq]
      rfl
    · have hdone : (start, [start]) :: search.paths = done := by simpa using h.paths
      rw [hdone]
      exact h.frontier
  | fuel + 1, done, e :: queue, search, h, hfuel => by
    obtain ⟨queue', hnext⟩ := h.expand
    rw [searchFrom, h.queue_eq]
    refine searchFrom_spec fuel hnext ?_
    rw [List.length_append, List.length_singleton]
    omega

theorem shortestPaths_spec (sites : List ImportSite) (start : Str) :
    ∃ paths, shortestPaths (importGraph sites) start = some paths ∧ (paths.map Prod.fst).Nodup ∧
      (∀ t p, (t, p) ∈ paths ↔ t ≠ start ∧ Least (Imports sites) start p t) ∧
      ∀ t p, t ≠ start → Walk (Imports sites) start p t → ∃ q, (t, q) ∈ paths := by
  have hinit : Keeps sites start [] [(start, [start])] ⟨[[start]], [start], []⟩ :=
    ⟨frontier_start, rfl, rfl, rfl⟩
  obtain ⟨paths, hpaths, h⟩ := searchFrom_spec ((nodesOf (importGraph sites)).length + 2) hinit
    (by simp)
  have hdistinct := h.distinct
  rw [List.append_nil, List.map_cons, List.nodup_cons] at hdistinct
  have hfound : ∀ t p, t ≠ start → Walk (Imports sites) start p t → ∃ q, (t, q) ∈ paths := by
    intro t p hne hwalk
    obtain ⟨⟨t', q⟩, hq, rfl⟩ := List.mem_map.1 (h.complete hwalk)
    exact ⟨q, (List.mem_cons.1 hq).resolve_left fun heq => hne (congrArg Prod.fst heq)⟩
  refine ⟨paths, hpaths, hdistinct.2, fun t p => ⟨fun hmem => ⟨?_, ?_⟩, fun ⟨hne, hleast⟩ => ?_⟩,
    hfound⟩
  · rintro rfl
    exact hdistinct.1 (List.mem_map.2 ⟨_, hmem, rfl⟩)
  · exact h.least (t, p) (by simp [hmem])
  · obtain ⟨q, hq⟩ := hfound t p hne hleast.1
    rwa [hleast.unique (h.least (t, q) (by simp [hq]))]

end Search

/-! ## What an entry reports -/

theorem nodup_names : (rules.map BoundaryRule.name).Nodup := by decide

theorem eq_of_name {r r' : BoundaryRule} (hr : r ∈ rules) (hr' : r' ∈ rules)
    (h : r.name = r'.name) : r = r' :=
  List.inj_on_of_nodup_map nodup_names hr hr' h

section Reports

/-- The nodes `p` visits are a path of the import graph from `s` to `t`. -/
structure ImportPath (sites : List ImportSite) (s t : Str) (p : List Str) : Prop where
  head : p.head? = some s
  last : p.getLast? = some t
  chain : p.IsChain (Imports sites)

theorem walk_iff_importPath {sites : List ImportSite} {s t : Str} {p : List Str} :
    Walk (Imports sites) s p t ↔ ImportPath sites s t p := by
  refine ⟨fun h => ⟨h.head?, h.getLast?, h.isChain⟩, ?_⟩
  rintro ⟨hhead, hlast, hchain⟩
  induction p using List.reverseRecOn generalizing t with
  | nil => cases hhead
  | append_singleton p b ih =>
    have hb : b = t := by simpa using hlast
    subst hb
    rcases List.eq_nil_or_concat p with rfl | ⟨q, a, rfl⟩
    · have hs : b = s := by simpa using hhead
      rw [hs]
      exact .start
    · obtain ⟨hq, -, hstep⟩ := List.isChain_append.1 hchain
      refine (ih ?_ (by simp) hq).step (hstep a (by simp) b (by simp))
      simpa [List.head?_append] using hhead

/-- Some import path with an edge leads from `s` to `t`. -/
theorem exists_importPath_iff {sites : List ImportSite} {s t : Str} (hne : t ≠ s) :
    (∃ p, Walk (Imports sites) s p t) ↔ Relation.TransGen (Imports sites) s t := by
  have hrefl : (∃ p, Walk (Imports sites) s p t) ↔ Relation.ReflTransGen (Imports sites) s t := by
    constructor
    · rintro ⟨p, hp⟩
      induction hp with
      | start => exact .refl
      | step walk hstep ih =>
        rename_i q a b
        by_cases ha : a = s
        · rw [ha] at hstep
          exact .single hstep
        · exact (ih ha).tail hstep
    · intro h
      clear hne
      induction h with
      | refl => exact ⟨_, .start⟩
      | tail _ hstep ih =>
        obtain ⟨p, hp⟩ := ih
        exact ⟨_, hp.step hstep⟩
  rw [hrefl, Relation.reflTransGen_iff_eq_or_transGen, or_iff_right hne]

/-- An entry reports a least shortest path, each edge with a site that makes it. -/
structure Reports (sites : List ImportSite) (v : Violation) : Prop where
  rule : ∃ rule ∈ rules, rule.name = v.rule ∧ rule.explanation = v.explanation
  path : ImportPath sites v.source v.target v.path
  least : ∀ q, ImportPath sites v.source v.target q →
    v.path.length < q.length ∨ v.path.length = q.length ∧ v.path ≤ q
  direct : v.direct = true ↔ v.edges.length = 1
  edges : v.edges.map (fun e => (e.source, e.target)) = v.path.zip v.path.tail
  sites : ∀ e ∈ v.edges, ∃ site ∈ sites, e = site.edge
  first : ∃ e, v.edges.head? = some e ∧ v.line = e.line ∧ v.sourceFile = e.sourceFile

/-- What an entry is about. -/
def Violation.about (v : Violation) : Str × Str × Str := (v.rule, v.source, v.target)

theorem length_edges {v : Violation}
    (h : v.edges.map (fun e => (e.source, e.target)) = v.path.zip v.path.tail) :
    v.edges.length = v.path.length - 1 := by
  have hlen := congrArg List.length h
  rw [List.length_map, List.length_zip, List.length_tail] at hlen
  omega

theorem exists_violation {sites : List ImportSite} {rule : BoundaryRule} (hrule : rule ∈ rules)
    {s t : Str} {p : List Str} (hne : t ≠ s) (h : Least (Imports sites) s p t) :
    ∃ v, violation (siteByEdge sites) rule s t p = some v ∧ v.about = (rule.name, s, t) ∧
      Reports sites v := by
  have hpath := walk_iff_importPath.1 h.1
  have hlong : 1 < p.length := by
    by_contra hshort
    exact hne (h.1.length_eq_one (not_lt.1 hshort))
  obtain ⟨xs, hxs, hends, hmem⟩ := exists_pathSites hpath.chain
  have hlen : xs.length = p.length - 1 := by
    have := congrArg List.length hends
    rw [List.length_map, List.length_zip, List.length_tail] at this
    omega
  obtain ⟨first, hfirst⟩ : ∃ first, xs.head? = some first := by
    rcases xs with _ | ⟨x, xs⟩
    · rw [List.length_nil] at hlen
      omega
    · exact ⟨x, rfl⟩
  refine ⟨⟨p.length = 2, xs.map ImportSite.edge, rule.explanation, first.line, p, rule.name, s,
    first.sourceFile, t⟩, ?_, rfl, ?_⟩
  · rw [violation, hxs]
    simp [hfirst]
  · refine ⟨⟨rule, hrule, rfl, rfl⟩, hpath, fun q hq => ?_, ?_, ?_, fun e he => ?_, ?_⟩
    · rcases (h.2 q (walk_iff_importPath.2 hq)).lt_or_eq with hlt | heq
      · exact (rank_lt.1 hlt).imp_right fun ⟨hl, hlex⟩ => ⟨hl, hlex.le⟩
      · exact .inr (by rw [rank_injective heq]; exact ⟨rfl, le_rfl⟩)
    · rw [List.length_map, decide_eq_true_eq, hlen]
      omega
    · rw [List.map_map]
      exact hends
    · obtain ⟨x, hx, rfl⟩ := List.mem_map.1 he
      exact ⟨x, hmem x hx, rfl⟩
    · exact ⟨first.edge, by simp [hfirst], rfl, rfl⟩

end Reports

/-! ## The report -/

section Exact

variable {sites : List ImportSite} {α : Type}

/-- Exactly one entry for each rule, source and target that match. -/
structure Exact (sites : List ImportSite) (found : List Violation)
    (Matches : Str × Str × Str → Prop) : Prop where
  distinct : (found.map Violation.about).Nodup
  mem : ∀ about, about ∈ found.map Violation.about ↔ Matches about
  reports : ∀ v ∈ found, Reports sites v

theorem Exact.congr {found : List Violation} {M N : Str × Str × Str → Prop}
    (h : Exact sites found M) (hMN : ∀ about, M about ↔ N about) : Exact sites found N :=
  ⟨h.distinct, fun about => (h.mem about).trans (hMN about), h.reports⟩

/-- A loop that finds exactly what each of its rounds should, if no two find the same. -/
theorem exact_mapM {f : α → Option (List Violation)} {M : α → Str × Str × Str → Prop} :
    ∀ {xs : List α}, (∀ x ∈ xs, ∃ found, f x = some found ∧ Exact sites found (M x)) →
      xs.Pairwise (fun x y => ∀ about, M x about → ¬ M y about) →
      ∃ found, xs.mapM f = some found ∧
        Exact sites found.flatten fun about => ∃ x ∈ xs, M x about
  | [], _, _ => ⟨[], rfl, by simp, by simp, by simp⟩
  | x :: xs, hf, hdisjoint => by
    obtain ⟨hx, hxs⟩ := List.forall_mem_cons.1 hf
    obtain ⟨hapart, hdisjoint⟩ := List.pairwise_cons.1 hdisjoint
    obtain ⟨found, hfound, hexact⟩ := hx
    obtain ⟨rest, hrest, hexacts⟩ := exact_mapM hxs hdisjoint
    refine ⟨found :: rest, ?_, ?_, fun about => ?_, fun v hv => ?_⟩
    · rw [List.mapM_cons, hfound, hrest]
      rfl
    · rw [List.flatten_cons, List.map_append, List.nodup_append]
      refine ⟨hexact.distinct, hexacts.distinct, fun a ha b hb hab => ?_⟩
      obtain ⟨y, hy, hMy⟩ := (hexacts.mem b).1 hb
      exact hapart y hy b (hab ▸ (hexact.mem a).1 ha) hMy
    · rw [List.flatten_cons, List.map_append, List.mem_append, hexact.mem, hexacts.mem]
      simp
    · rw [List.flatten_cons, List.mem_append] at hv
      exact hv.elim (hexact.reports v) (hexacts.reports v)

theorem exact_violations {rule : BoundaryRule} (hrule : rule ∈ rules) {s : Str} :
    ∀ {items : List (Str × List Str)}, (items.map Prod.fst).Nodup →
      (∀ item ∈ items, item.1 ≠ s ∧ Least (Imports sites) s item.2 item.1) →
      ∃ found, items.mapM (fun item => violation (siteByEdge sites) rule s item.1 item.2) = some found ∧
        Exact sites found fun about =>
          ∃ item ∈ items, about = (rule.name, s, item.1)
  | [], _, _ => ⟨[], rfl, by simp, by simp, by simp⟩
  | item :: items, hnodup, h => by
    obtain ⟨hitem, hitems⟩ := List.forall_mem_cons.1 h
    rw [List.map_cons, List.nodup_cons] at hnodup
    obtain ⟨v, hv, habout, hreports⟩ := exists_violation hrule hitem.1 hitem.2
    obtain ⟨found, hfound, hexact⟩ := exact_violations hrule hnodup.2 hitems
    refine ⟨v :: found, ?_, ?_, fun about => ?_, List.forall_mem_cons.2 ⟨hreports, hexact.reports⟩⟩
    · rw [List.mapM_cons, hv, hfound]
      rfl
    · rw [List.map_cons, List.nodup_cons, habout]
      refine ⟨fun hmem => ?_, hexact.distinct⟩
      obtain ⟨other, hother, heq⟩ := (hexact.mem _).1 hmem
      simp only [Prod.mk.injEq, true_and] at heq
      exact hnodup.1 (heq ▸ List.mem_map_of_mem hother)
    · rw [List.map_cons, List.mem_cons, habout, hexact.mem]
      simp

/-- The rule, the source and the target of a violation. -/
def Violates (sites : List ImportSite) (rule : BoundaryRule) (s : Str) (about : Str × Str × Str) :
    Prop :=
  ∃ t, rule.targetMatches t = true ∧ t ≠ s ∧ Relation.TransGen (Imports sites) s t ∧
    about = (rule.name, s, t)

theorem exact_violationsFrom {rule : BoundaryRule} (hrule : rule ∈ rules) (s : Str) :
    ∃ found, violationsFrom (importGraph sites) (siteByEdge sites) rule s = some found ∧
      Exact sites found (Violates sites rule s) := by
  obtain ⟨paths, hpaths, hnodup, hmem, hfound⟩ := shortestPaths_spec sites s
  have hitems : ∀ {item}, item ∈ (sortedBy toLex paths).filter (fun i => rule.targetMatches i.1) ↔
      item ∈ paths ∧ rule.targetMatches item.1 = true := by
    intro item
    rw [List.mem_filter, mem_sortedBy]
  have hdistinct : (((sortedBy toLex paths).filter fun i => rule.targetMatches i.1).map
      Prod.fst).Nodup :=
    (((perm_sortedBy toLex paths).map Prod.fst).nodup_iff.2 hnodup).sublist
      (List.filter_sublist.map _)
  obtain ⟨found, hmapM, hexact⟩ := exact_violations hrule hdistinct
    fun item hitem => (hmem item.1 item.2).1 (hitems.1 hitem).1
  refine ⟨found, ?_, hexact.congr fun about => ?_⟩
  · rw [violationsFrom, hpaths]
    exact hmapM
  · constructor
    · rintro ⟨item, hitem, rfl⟩
      obtain ⟨hin, hmatch⟩ := hitems.1 hitem
      obtain ⟨hne, hleast⟩ := (hmem item.1 item.2).1 hin
      exact ⟨item.1, hmatch, hne, (exists_importPath_iff hne).1 ⟨_, hleast.1⟩, rfl⟩
    · rintro ⟨t, hmatch, hne, hreach, rfl⟩
      obtain ⟨p, hwalk⟩ := (exists_importPath_iff hne).2 hreach
      obtain ⟨q, hq⟩ := hfound t p hne hwalk
      exact ⟨(t, q), hitems.2 ⟨hq, hmatch⟩, rfl⟩

theorem exact_ruleViolations {rule : BoundaryRule} (hrule : rule ∈ rules) :
    ∃ found, ruleViolations (importGraph sites) (siteByEdge sites) rule = some found ∧
      Exact sites found fun about => ∃ s, rule.sourceMatches s = true ∧ Violates sites rule s about := by
  have hsources : ∀ {s}, s ∈ (sorted (nodesOf (importGraph sites))).filter rule.sourceMatches ↔
      s ∈ nodesOf (importGraph sites) ∧ rule.sourceMatches s = true := by
    intro s
    rw [List.mem_filter, mem_sorted]
  have hstrict := (pairwise_sorted (nodup_nodesOf (importGraph sites))).filter rule.sourceMatches
  obtain ⟨found, hfound, hexact⟩ := exact_mapM (M := Violates sites rule)
    (fun s _ => exact_violationsFrom hrule s) (hstrict.imp fun {s s'} hlt => by
      rintro about ⟨t, -, -, -, rfl⟩ ⟨t', -, -, -, heq⟩
      simp only [Prod.mk.injEq, true_and] at heq
      exact hlt.ne heq.1)
  refine ⟨found.flatten, ?_, hexact.congr fun about => ?_⟩
  · rw [ruleViolations, hfound]
    rfl
  · constructor
    · rintro ⟨s, hs, hviolates⟩
      exact ⟨s, (hsources.1 hs).2, hviolates⟩
    · rintro ⟨s, hmatch, hviolates⟩
      obtain ⟨t, -, -, hreach, -⟩ := id hviolates
      obtain ⟨b, hb, -⟩ := Relation.TransGen.head'_iff.1 hreach
      exact ⟨s, hsources.2 ⟨(mem_nodesOf_of_imports hb).1, hmatch⟩, hviolates⟩

theorem exact_boundaryViolations (sites : List ImportSite) :
    ∃ found, boundaryViolations sites = some found ∧
      found.Pairwise (fun v w => v.key ≤ w.key) ∧
      Exact sites found fun about => ∃ rule ∈ rules, ∃ s, rule.sourceMatches s = true ∧
        Violates sites rule s about := by
  have hnames : rules.Pairwise fun r r' => r.name ≠ r'.name := List.pairwise_map.1 nodup_names
  obtain ⟨found, hfound, hexact⟩ := exact_mapM (fun rule hrule => exact_ruleViolations hrule)
    (hnames.imp fun {r r'} hne => by
      rintro about ⟨s, -, t, -, -, -, rfl⟩ ⟨s', -, t', -, -, -, heq⟩
      exact hne (congrArg Prod.fst heq))
  have hperm := (perm_sortedBy Violation.key found.flatten).map Violation.about
  refine ⟨sortedBy Violation.key found.flatten, ?_, pairwise_sortedBy _ _,
    hperm.nodup_iff.2 hexact.distinct, fun about => hperm.mem_iff.trans (hexact.mem about),
    fun v hv => hexact.reports v (mem_sortedBy.1 hv)⟩
  rw [boundaryViolations, hfound]
  rfl

end Exact

/-! ## The order of the sites -/

section Order

/-- A violation with the sites of its edges left out. -/
def Violation.withoutSites (v : Violation) : Violation :=
  { v with
    line := 0
    sourceFile := str ""
    edges := v.edges.map fun e => { e with line := 0, sourceFile := str "" } }

theorem imports_perm {sites sites' : List ImportSite} (h : sites'.Perm sites) :
    Imports sites' = Imports sites := by
  funext s t
  simp only [Imports, h.mem_iff]

theorem Reports.least_path {sites : List ImportSite} {v : Violation} (h : Reports sites v) :
    Least (Imports sites) v.source v.path v.target := by
  refine ⟨walk_iff_importPath.2 h.path, fun q hq => ?_⟩
  rcases h.least q (walk_iff_importPath.1 hq) with hlt | ⟨hlen, hle⟩
  · exact (rank_lt.2 (.inl hlt)).le
  · rcases hle.lt_or_eq with hlt | heq
    · exact (rank_lt.2 (.inr ⟨hlen, hlt⟩)).le
    · rw [heq]

/-- What an entry is about determines all of it but its sites. -/
theorem withoutSites_eq {sites sites' : List ImportSite} (h : sites'.Perm sites) {v v' : Violation}
    (hv : Reports sites v) (hv' : Reports sites' v') (habout : v.about = v'.about) :
    v.withoutSites = v'.withoutSites ∧ v.key = v'.key := by
  obtain ⟨direct, edges, explanation, line, path, rule, source, sourceFile, target⟩ := v
  obtain ⟨direct', edges', explanation', line', path', rule', source', sourceFile', target'⟩ := v'
  simp only [Violation.about, Prod.mk.injEq] at habout
  obtain ⟨rfl, rfl, rfl⟩ := habout
  have hleast' := hv'.least_path
  rw [imports_perm h] at hleast'
  obtain rfl : path = path' := hv.least_path.unique hleast'
  have hexplanation : explanation = explanation' := by
    obtain ⟨r, hr, hname, hexp⟩ := hv.rule
    obtain ⟨r', hr', hname', hexp'⟩ := hv'.rule
    obtain rfl := eq_of_name hr hr' (hname.trans hname'.symm)
    exact hexp.symm.trans hexp'
  have hlen : edges.length = edges'.length :=
    (length_edges hv.edges).trans (length_edges hv'.edges).symm
  have hdirect : direct = direct' := by
    have h : direct = true ↔ edges.length = 1 := hv.direct
    have h' : direct' = true ↔ edges'.length = 1 := hv'.direct
    rw [Bool.eq_iff_iff, h, h', hlen]
  have hedges : edges.map (fun e => ({ e with line := 0, sourceFile := str "" } : Edge))
      = edges'.map fun e => { e with line := 0, sourceFile := str "" } := by
    have hends := congrArg (List.map fun ends : Str × Str => (⟨ends.1, 0, str "", ends.2⟩ : Edge))
      (hv.edges.trans hv'.edges.symm)
    rwa [List.map_map, List.map_map] at hends
  refine ⟨?_, rfl⟩
  simp only [Violation.withoutSites, Violation.mk.injEq, and_true]
  exact ⟨hdirect, hedges, hexplanation⟩

theorem map_eq_map {α β γ : Type} {f : α → β} {g : α → γ} : ∀ {xs ys : List α},
    xs.map f = ys.map f → (∀ x ∈ xs, ∀ y ∈ ys, f x = f y → g x = g y) → xs.map g = ys.map g
  | [], [], _, _ => rfl
  | [], _ :: _, h, _ => by cases h
  | _ :: _, [], h, _ => by cases h
  | x :: xs, y :: ys, h, hfg => by
    rw [List.map_cons, List.map_cons, List.cons.injEq] at h
    rw [List.map_cons, List.map_cons, hfg x (by simp) y (by simp) h.1,
      map_eq_map h.2 fun a ha b hb => hfg a (by simp [ha]) b (by simp [hb])]

/-- Two reports of one graph in the order of their keys have the same keys. -/
theorem map_key_eq {sites sites' : List ImportSite} (hperm : sites'.Perm sites)
    {found found' : List Violation} {M : Str × Str × Str → Prop} (h : Exact sites found M)
    (h' : Exact sites' found' M) (hsorted : found.Pairwise fun v w => v.key ≤ w.key)
    (hsorted' : found'.Pairwise fun v w => v.key ≤ w.key) :
    found'.map Violation.key = found.map Violation.key := by
  have hnodup : ∀ {vs : List Violation}, (vs.map Violation.about).Nodup →
      (vs.map Violation.key).Nodup := fun hvs =>
    List.pairwise_map.2 ((List.pairwise_map.1 hvs).imp fun hne hkey => hne (by
      simp only [Violation.key, toLex_inj, Prod.mk.injEq] at hkey
      simp only [Violation.about, Prod.mk.injEq]
      exact ⟨hkey.1, hkey.2.1, hkey.2.2.1⟩))
  refine @List.Perm.eq_of_pairwise _ (· ≤ ·) _ _ (fun a b _ _ => le_antisymm)
    (List.pairwise_map.2 hsorted') (List.pairwise_map.2 hsorted)
    ((List.perm_ext_iff_of_nodup (hnodup h'.distinct) (hnodup h.distinct)).2 fun key => ?_)
  constructor
  · intro hkey
    obtain ⟨v', hv', rfl⟩ := List.mem_map.1 hkey
    obtain ⟨v, hv, habout⟩ := List.mem_map.1
      ((h.mem _).2 ((h'.mem _).1 (List.mem_map_of_mem hv')))
    exact List.mem_map.2 ⟨v, hv, (withoutSites_eq hperm (h.reports v hv) (h'.reports v' hv')
      habout).2⟩
  · intro hkey
    obtain ⟨v, hv, rfl⟩ := List.mem_map.1 hkey
    obtain ⟨v', hv', habout⟩ := List.mem_map.1
      ((h'.mem _).2 ((h.mem _).1 (List.mem_map_of_mem hv)))
    exact List.mem_map.2 ⟨v', hv', (withoutSites_eq hperm (h.reports v hv) (h'.reports v' hv')
      habout.symm).2.symm⟩

/-- The report has exactly one entry for each rule, source and target that match with the target
transitively imported; each shows a least shortest path with sites of the input; and another order
of the sites changes the sites at most. -/
theorem boundaryViolations_exact (sites : List ImportSite) :
    ∃ found, boundaryViolations sites = some found ∧
      (found.map Violation.about).Nodup ∧
      (∀ rule ∈ rules, ∀ s t, (rule.name, s, t) ∈ found.map Violation.about ↔
        rule.sourceMatches s = true ∧ rule.targetMatches t = true ∧ t ≠ s ∧
          Relation.TransGen (Imports sites) s t) ∧
      (∀ v ∈ found, Reports sites v) ∧
      ∀ sites', sites'.Perm sites → ∃ found', boundaryViolations sites' = some found' ∧
        found'.map Violation.withoutSites = found.map Violation.withoutSites := by
  obtain ⟨found, hfound, hsorted, hexact⟩ := exact_boundaryViolations sites
  refine ⟨found, hfound, hexact.distinct, fun rule hrule s t => ?_, hexact.reports,
    fun sites' hperm => ?_⟩
  · rw [hexact.mem]
    constructor
    · rintro ⟨rule', hrule', s', hs, t', ht, hne, hreach, heq⟩
      simp only [Prod.mk.injEq] at heq
      obtain ⟨hname, rfl, rfl⟩ := heq
      obtain rfl := eq_of_name hrule hrule' hname
      exact ⟨hs, ht, hne, hreach⟩
    · rintro ⟨hs, ht, hne, hreach⟩
      exact ⟨rule, hrule, s, hs, t, ht, hne, hreach, rfl⟩
  · obtain ⟨found', hfound', hsorted', hexact'⟩ := exact_boundaryViolations sites'
    have hsame := hexact'.congr (N := fun about => ∃ rule ∈ rules, ∃ s,
      rule.sourceMatches s = true ∧ Violates sites rule s about) fun about => by
        simp only [Violates, imports_perm hperm]
    refine ⟨found', hfound', map_eq_map (map_key_eq hperm hexact hsame hsorted hsorted')
      fun v' hv' v hv hkey => ?_⟩
    simp only [Violation.key, toLex_inj, Prod.mk.injEq] at hkey
    have habout : v.about = v'.about := by
      simp only [Violation.about, Prod.mk.injEq]
      exact ⟨hkey.1.symm, hkey.2.1.symm, hkey.2.2.1.symm⟩
    exact (withoutSites_eq hperm (hexact.reports v hv) (hexact'.reports v' hv') habout).1.symm

end Order

end Architecture
