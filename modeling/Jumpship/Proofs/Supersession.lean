import Jumpship.Client.Registry
import Jumpship.Lib.Chains

/-!
# Supersession chains end

The depth-first search of `validateRegistry`, in whatever order the map of the kids is ranged over,
and the path walk of the browser both accept exactly the links whose chains all end.
-/

namespace Canonical

open Go Chains

/-! ## The keys of a registry -/

section Keys

variable {keys : List RegistryKey} {kid parent : List Char} {key : RegistryKey}

theorem nodup_of_validateKeys {ε ρ : Type} {lib : Primitives ε ρ} : ∀ {seen keys : List RegistryKey},
    validateKeys lib seen keys = .ok () →
      (keys.map RegistryKey.kid).Nodup ∧ ∀ key ∈ keys, ∀ other ∈ seen, other.kid ≠ key.kid
  | _, [], _ => by simp
  | seen, key :: keys, h => by
    rw [validateKeys] at h
    cases hkey : validateKey lib seen key with
    | error e =>
      rw [hkey] at h
      cases h
    | ok u =>
      rw [hkey] at h
      obtain ⟨hnodup, hfresh⟩ := @nodup_of_validateKeys ε ρ lib (seen ++ [key]) keys h
      simp only [List.forall_mem_append, List.forall_mem_singleton] at hfresh
      refine ⟨?_, List.forall_mem_cons.2 ⟨?_, fun k hk => (hfresh k hk).1⟩⟩
      · rw [List.map_cons, List.nodup_cons]
        refine ⟨fun hmem => ?_, hnodup⟩
        obtain ⟨other, hother, heq⟩ := List.mem_map.1 hmem
        exact (hfresh other hother).2 heq.symm
      · unfold validateKey at hkey
        split_ifs at hkey with hempty hseen
        intro other hother heq
        exact hseen (List.any_eq_true.2 ⟨other, hother, decide_eq_true heq⟩)

theorem eq_of_kid (hnodup : (keys.map RegistryKey.kid).Nodup) {other : RegistryKey}
    (hkey : key ∈ keys) (hother : other ∈ keys) (h : other.kid = key.kid) : other = key :=
  List.inj_on_of_nodup_map hnodup hother hkey h

theorem supersedes_eq_some (h : supersedes keys kid = some parent) :
    ∃ key ∈ keys, key.kid = kid ∧ key.supersedesKid = some parent := by
  obtain ⟨key, hfind, hparent⟩ := Option.bind_eq_some_iff.1 h
  have hkey := List.find?_some hfind
  rw [Bool.and_eq_true, decide_eq_true_eq] at hkey
  exact ⟨key, List.mem_of_find?_eq_some hfind, hkey.1, hparent⟩

theorem supersedes_of_mem (hnodup : (keys.map RegistryKey.kid).Nodup) (hkey : key ∈ keys) :
    supersedes keys key.kid = key.supersedesKid := by
  cases hparent : key.supersedesKid with
  | none =>
    cases h : supersedes keys key.kid with
    | none => rfl
    | some parent =>
      obtain ⟨other, hother, hkid, hsome⟩ := supersedes_eq_some h
      rw [eq_of_kid hnodup hkey hother hkid, hparent] at hsome
      cases hsome
  | some parent =>
    have hfound : (keys.find? fun other =>
        decide (other.kid = key.kid) && other.supersedesKid.isSome).isSome := by
      rw [List.find?_isSome]
      exact ⟨key, hkey, by simp [hparent]⟩
    obtain ⟨other, hfind⟩ := Option.isSome_iff_exists.1 hfound
    have hother := List.find?_some hfind
    rw [Bool.and_eq_true, decide_eq_true_eq] at hother
    rw [supersedes, hfind, Option.bind_some,
      eq_of_kid hnodup hkey (List.mem_of_find?_eq_some hfind) hother.1, hparent]

/-- The map of the browser holds the same links. -/
theorem parentByKid_eq (hnodup : (keys.map RegistryKey.kid).Nodup) (kid : List Char) :
    Client.parentByKid keys kid = supersedes keys kid := by
  have hreverse : Client.parentByKid keys kid = supersedes keys.reverse kid := rfl
  have hnodup' : (keys.reverse.map RegistryKey.kid).Nodup := by
    rw [List.map_reverse]
    exact List.nodup_reverse.2 hnodup
  rw [hreverse]
  by_cases hmem : kid ∈ keys.map RegistryKey.kid
  · obtain ⟨key, hkey, rfl⟩ := List.mem_map.1 hmem
    rw [supersedes_of_mem hnodup hkey, supersedes_of_mem hnodup' (List.mem_reverse.2 hkey)]
  · have hnone : ∀ {ks : List RegistryKey}, (∀ key ∈ ks, key ∈ keys) →
        supersedes ks kid = none := by
      intro ks hks
      refine Option.eq_none_iff_forall_ne_some.2 fun parent h => hmem ?_
      obtain ⟨key, hkey, rfl, -⟩ := supersedes_eq_some h
      exact List.mem_map_of_mem (hks key hkey)
    rw [hnone fun _ h => h, hnone fun _ h => List.mem_reverse.1 h]

/-- What the check of the links asks of each. -/
theorem validateLinks_eq_ok : ∀ {rest : List RegistryKey}, validateLinks keys rest = .ok () ↔
    ∀ key ∈ rest, ∀ parent, key.supersedesKid = some parent → parent ≠ key.kid ∧
      ∃ prior, seenKey keys parent = some prior ∧ prior.status = "superseded".toList ∧
        prior.algorithm = key.algorithm
  | [] => by simp [validateLinks]
  | key :: rest => by
    have hlink : validateLink keys key = .ok () ↔
        ∀ parent, key.supersedesKid = some parent → parent ≠ key.kid ∧
          ∃ prior, seenKey keys parent = some prior ∧ prior.status = "superseded".toList ∧
            prior.algorithm = key.algorithm := by
      unfold validateLink
      generalize "superseded".toList = superseded
      cases key.supersedesKid with
      | none => simp
      | some parent =>
        by_cases hself : parent = key.kid
        · simp [hself]
        · cases hprior : seenKey keys parent with
          | none => simp [hself, hprior]
          | some prior => simp [hself, hprior]
    rw [List.forall_mem_cons, ← hlink, ← validateLinks_eq_ok, validateLinks]
    cases validateLink keys key with
    | error e => simp [bind, Except.bind]
    | ok u => simp [bind, Except.bind]

/-- The browser checks the same of each link. -/
theorem all_validLink : keys.all (Client.validLink keys) = true ↔ validateLinks keys keys = .ok () := by
  rw [List.all_eq_true, validateLinks_eq_ok]
  refine forall₂_congr fun key _ => ?_
  unfold Client.validLink
  generalize "superseded".toList = superseded
  cases key.supersedesKid with
  | none => simp
  | some parent =>
    by_cases hself : parent = key.kid
    · simp [hself]
    · have hfind : keys.find? (fun item => item.kid = parent) = seenKey keys parent := rfl
      dsimp only
      rw [if_neg hself, hfind]
      cases hprior : seenKey keys parent with
      | none => simp [hself, hprior]
      | some prior => simp [hself, hprior]

end Keys

/-! ## The depth-first search -/

section Search

variable {keys : List RegistryKey} {nodes : Finset (List Char)} {marks : Marks}
  {kid : List Char} {fuel : ℕ}

/-- The chains of what is visited end. -/
def Marks.Sound (keys : List RegistryKey) (marks : Marks) : Prop :=
  ∀ k, marks.visited k = true → Ends (supersedes keys) k

/-- What a call of `visit` does: it fails where the chain does not end, and otherwise leaves the
stack as it was. -/
def Visits (keys : List RegistryKey) (marks : Marks) (kid : List Char)
    (result : Option (Except SignatureError Marks)) : Prop :=
  (Ends (supersedes keys) kid ∧ ∃ m, result = some (.ok m) ∧ m.visiting = marks.visiting ∧
    m.Sound keys) ∨
  (¬ Ends (supersedes keys) kid ∧ result = some (.error .cyclicChain))

theorem visit_spec (hclosed : ∀ k ∈ nodes, ∀ p, supersedes keys k = some p → p ∈ nodes) :
    ∀ {fuel : ℕ} {marks : Marks} {kid : List Char}, kid ∈ nodes → marks.Sound keys →
      (∀ k, marks.visiting k = true → Leads (supersedes keys) k kid) →
      (nodes.filter fun k => marks.visiting k = false).card < fuel →
      Visits keys marks kid (visit keys fuel marks kid)
  | 0, _, _, _, _, _, hfuel => absurd hfuel (Nat.not_lt_zero _)
  | fuel + 1, marks, kid, hkid, hsound, hstack, hfuel => by
    rw [visit]
    by_cases hvisiting : marks.visiting kid = true
    · -- the kid is on the stack, so its chain has come back to it
      rw [if_pos hvisiting]
      exact .inr ⟨not_ends_of_leads (hstack kid hvisiting), rfl⟩
    rw [if_neg hvisiting]
    rw [Bool.not_eq_true] at hvisiting
    by_cases hvisited : marks.visited kid = true
    · rw [if_pos hvisited]
      exact .inl ⟨hsound kid hvisited, marks, rfl, rfl, hsound⟩
    rw [if_neg hvisited]
    have hleave : ∀ m : Marks, m.visiting = Function.update marks.visiting kid true →
        Function.update m.visiting kid false = marks.visiting := by
      intro m hm
      rw [hm, Function.update_idem, ← hvisiting, Function.update_eq_self]
    have hsound' : ∀ m : Marks, m.Sound keys → Ends (supersedes keys) kid →
        Marks.Sound keys ⟨Function.update m.visiting kid false,
          Function.update m.visited kid true⟩ := by
      intro m hm hends k hk
      by_cases heq : k = kid
      · exact heq ▸ hends
      · refine hm k ?_
        have hk' : Function.update m.visited kid true k = true := hk
        rwa [Function.update_of_ne heq] at hk'
    cases hparent : supersedes keys kid with
    | none =>
      have hends := ends_of_none hparent
      exact .inl ⟨hends, _, rfl, hleave _ rfl, hsound' _ hsound hends⟩
    | some parent =>
      have hstack' : ∀ k, Function.update marks.visiting kid true k = true →
          Leads (supersedes keys) k parent := by
        intro k hk
        by_cases heq : k = kid
        · exact heq ▸ leads_of_some hparent
        · rw [Function.update_of_ne heq] at hk
          exact (hstack k hk).step hparent
      have hfewer : (nodes.filter fun k => Function.update marks.visiting kid true k = false).card
          < fuel := by
        refine lt_of_lt_of_le (Finset.card_lt_card ?_) (Nat.lt_succ_iff.1 hfuel)
        refine (Finset.ssubset_iff_of_subset ?_).2 ⟨kid, ?_, ?_⟩
        · intro k hk
          rw [Finset.mem_filter] at hk ⊢
          by_cases heq : k = kid
          · exact ⟨hk.1, heq ▸ hvisiting⟩
          · rw [Function.update_of_ne heq] at hk
            exact hk
        · exact Finset.mem_filter.2 ⟨hkid, hvisiting⟩
        · simp
      have hrest : Visits keys { marks with visiting := Function.update marks.visiting kid true }
          parent _ :=
        visit_spec hclosed (hclosed kid hkid parent hparent) hsound hstack' hfewer
      rcases hrest with ⟨hends, m, hm, hvisiting', hm'⟩ | ⟨hends, hm⟩
      · have hends' := (ends_iff_of_some hparent).2 hends
        refine .inl ⟨hends', _, ?_, hleave m hvisiting', hsound' m hm' hends'⟩
        dsimp only
        rw [hm]
      · refine .inr ⟨fun h => hends ((ends_iff_of_some hparent).1 h), ?_⟩
        dsimp only
        rw [hm]

/-- The loop over the kids accepts when all their chains end. -/
theorem visitAll_spec (hclosed : ∀ k ∈ nodes, ∀ p, supersedes keys k = some p → p ∈ nodes)
    (hcard : nodes.card ≤ keys.length) : ∀ {kids : List (List Char)} {marks : Marks},
      (∀ k ∈ kids, k ∈ nodes) → marks.Sound keys → (∀ k, marks.visiting k = false) →
      ((∀ k ∈ kids, Ends (supersedes keys) k) ∧ visitAll keys kids marks = some (.ok ())) ∨
        ((∃ k ∈ kids, ¬ Ends (supersedes keys) k) ∧
          visitAll keys kids marks = some (.error .cyclicChain))
  | [], _, _, _, _ => .inl ⟨by simp, rfl⟩
  | kid :: kids, marks, hkids, hsound, hempty => by
    obtain ⟨hkid, hrest⟩ := List.forall_mem_cons.1 hkids
    have hfuel : (nodes.filter fun k => marks.visiting k = false).card < keys.length + 1 :=
      Nat.lt_succ_of_le ((Finset.card_filter_le _ _).trans hcard)
    have hstack : ∀ k, marks.visiting k = true → Leads (supersedes keys) k kid := by
      intro k hk
      rw [hempty k] at hk
      cases hk
    rw [visitAll]
    rcases visit_spec hclosed hkid hsound hstack hfuel with ⟨hends, m, hm, hvisiting, hm'⟩ | ⟨hends, hm⟩
    · rw [hm]
      rcases visitAll_spec hclosed hcard hrest hm' (hvisiting ▸ hempty) with ⟨hall, h⟩ | ⟨⟨k, hk, hne⟩, h⟩
      · exact .inl ⟨List.forall_mem_cons.2 ⟨hends, hall⟩, h⟩
      · exact .inr ⟨⟨k, List.mem_cons_of_mem _ hk, hne⟩, h⟩
    · rw [hm]
      exact .inr ⟨⟨kid, List.mem_cons_self, hends⟩, rfl⟩

end Search

/-! ## The path walk -/

section Walk

variable {parent : List Char → Option (List Char)} {nodes : Finset (List Char)}

/-- The inner loop stops with a path whose chains end, or on a node it has passed. -/
theorem walkPath_spec (hclosed : ∀ k ∈ nodes, ∀ p, parent k = some p → p ∈ nodes)
    {visited : List (List Char)} (hvisited : ∀ k ∈ visited, Ends parent k) :
    ∀ {fuel : ℕ} {path : List (List Char)} {current : List Char}, current ∈ nodes →
      (∀ k ∈ path, k ∈ nodes) → path.Nodup → (∀ k ∈ path, Leads parent k current) →
      nodes.card < fuel + path.length →
      (Ends parent current ∧ ∃ path', Client.walkPath parent visited fuel path (some current)
          = some (some path') ∧ ∀ k ∈ path', Ends parent k) ∨
        (¬ Ends parent current ∧
          Client.walkPath parent visited fuel path (some current) = some none)
  | 0, path, current, _, hpath, hnodup, _, hfuel => by
    have hle : path.toFinset.card ≤ nodes.card :=
      Finset.card_le_card fun k hk => hpath k (List.mem_toFinset.1 hk)
    rw [List.toFinset_card_of_nodup hnodup] at hle
    omega
  | fuel + 1, path, current, hcurrent, hpath, hnodup, hleads, hfuel => by
    have hends : ∀ k ∈ path, Ends parent current → Ends parent k := by
      intro k hk h
      obtain ⟨n, hn⟩ := hleads k hk
      exact (ends_of_follow hn).2 h
    rw [Client.walkPath]
    by_cases hseen : current ∈ visited
    · rw [if_pos (List.contains_iff_mem.2 hseen)]
      have h := hvisited current hseen
      exact .inl ⟨h, path, rfl, fun k hk => hends k hk h⟩
    rw [if_neg (mt List.contains_iff_mem.1 hseen)]
    by_cases hagain : current ∈ path
    · rw [if_pos (List.contains_iff_mem.2 hagain)]
      exact .inr ⟨not_ends_of_leads (hleads current hagain), rfl⟩
    rw [if_neg (mt List.contains_iff_mem.1 hagain)]
    cases hparent : parent current with
    | none =>
      have h := ends_of_none hparent
      refine .inl ⟨h, path ++ [current], ?_, fun k hk => ?_⟩
      · rw [Client.walkPath]
      rcases List.mem_append.1 hk with hk | hk
      · exact hends k hk h
      · exact List.mem_singleton.1 hk ▸ h
    | some next =>
      rw [ends_iff_of_some hparent]
      refine walkPath_spec hclosed hvisited (hclosed current hcurrent next hparent) ?_ ?_ ?_ ?_
      · exact List.forall_mem_append.2 ⟨hpath, List.forall_mem_singleton.2 hcurrent⟩
      · exact List.nodup_append.2 ⟨hnodup, List.nodup_singleton _, fun a ha b hb heq =>
          hagain (List.mem_singleton.1 hb ▸ heq ▸ ha)⟩
      · exact List.forall_mem_append.2 ⟨fun k hk => (hleads k hk).step hparent,
          List.forall_mem_singleton.2 (leads_of_some hparent)⟩
      · rw [List.length_append, List.length_singleton]
        omega

/-- The outer loop accepts when all chains end. -/
theorem walkAll_spec (hclosed : ∀ k ∈ nodes, ∀ p, parent k = some p → p ∈ nodes) {fuel : ℕ}
    (hfuel : nodes.card < fuel) : ∀ {kids visited : List (List Char)}, (∀ k ∈ kids, k ∈ nodes) →
      (∀ k ∈ visited, Ends parent k) →
      ((∀ k ∈ kids, Ends parent k) ∧ Client.walkAll parent fuel visited kids = some true) ∨
        ((∃ k ∈ kids, ¬ Ends parent k) ∧ Client.walkAll parent fuel visited kids = some false)
  | [], _, _, _ => .inl ⟨by simp, rfl⟩
  | kid :: kids, visited, hkids, hvisited => by
    obtain ⟨hkid, hrest⟩ := List.forall_mem_cons.1 hkids
    rw [Client.walkAll]
    rcases walkPath_spec hclosed hvisited hkid (by simp) List.nodup_nil (by simp)
      (by simpa using hfuel) with ⟨hends, path, hpath, hall⟩ | ⟨hends, hpath⟩
    · rw [hpath]
      rcases walkAll_spec hclosed hfuel hrest (List.forall_mem_append.2 ⟨hvisited, hall⟩) with
        ⟨hall, h⟩ | ⟨⟨k, hk, hne⟩, h⟩
      · exact .inl ⟨List.forall_mem_cons.2 ⟨hends, hall⟩, h⟩
      · exact .inr ⟨⟨k, List.mem_cons_of_mem _ hk, hne⟩, h⟩
    · rw [hpath]
      exact .inr ⟨⟨kid, List.mem_cons_self, hends⟩, rfl⟩

end Walk

/-! ## The verdict -/

section Verdict

variable {keys : List RegistryKey}

/-- The kids of a registry. -/
def kids (keys : List RegistryKey) : Finset (List Char) := (keys.map RegistryKey.kid).toFinset

theorem mem_kids {kid : List Char} : kid ∈ kids keys ↔ kid ∈ keys.map RegistryKey.kid :=
  List.mem_toFinset

theorem card_kids : (kids keys).card ≤ keys.length :=
  (List.toFinset_card_le _).trans (List.length_map _).le

/-- Every link goes to a kid of the registry. -/
theorem kids_closed (hlinks : validateLinks keys keys = .ok ()) :
    ∀ k ∈ kids keys, ∀ p, supersedes keys k = some p → p ∈ kids keys := by
  intro k _ p hp
  obtain ⟨key, hkey, -, hparent⟩ := supersedes_eq_some hp
  obtain ⟨-, prior, hprior, -⟩ := validateLinks_eq_ok.1 hlinks key hkey p hparent
  have hkid : prior.kid = p := by simpa using List.find?_some hprior
  exact mem_kids.2 (hkid ▸ List.mem_map_of_mem (List.mem_of_find?_eq_some hprior))

/-- Both verdicts, in any order of the kids. -/
theorem supersession_verdict (hnodup : (keys.map RegistryKey.kid).Nodup)
    {order : List (List Char)} (horder : order.Perm (keys.map RegistryKey.kid)) :
    (∃ e, validateLinks keys keys = .error e ∧
      validateSupersession order keys = some (.error e) ∧
      Client.validSupersession keys = some false) ∨
    (validateLinks keys keys = .ok () ∧ (∀ k ∈ kids keys, Ends (supersedes keys) k) ∧
      validateSupersession order keys = some (.ok ()) ∧
      Client.validSupersession keys = some true) ∨
    (validateLinks keys keys = .ok () ∧ (∃ k ∈ kids keys, ¬ Ends (supersedes keys) k) ∧
      validateSupersession order keys = some (.error .cyclicChain) ∧
      Client.validSupersession keys = some false) := by
  have hparents : Client.parentByKid keys = supersedes keys := funext (parentByKid_eq hnodup)
  unfold validateSupersession Client.validSupersession
  cases hlinks : validateLinks keys keys with
  | error e =>
    have hbrowser : ¬ keys.all (Client.validLink keys) = true := fun hall => by
      rw [all_validLink.1 hall] at hlinks
      cases hlinks
    rw [if_neg hbrowser]
    exact .inl ⟨e, rfl, rfl, rfl⟩
  | ok u =>
    rw [if_pos (all_validLink.2 hlinks), hparents]
    have hclosed := kids_closed hlinks
    have hmem : ∀ k, k ∈ order ↔ k ∈ kids keys := fun k => horder.mem_iff.trans mem_kids.symm
    have hsearch := visitAll_spec hclosed card_kids (fun k hk => (hmem k).1 hk)
      (fun _ hk => (by cases hk))
      (fun _ => rfl : ∀ k, (Marks.mk (fun _ => false) fun _ => false).visiting k = false)
    have hwalk := walkAll_spec hclosed (Nat.lt_succ_of_le card_kids)
      (fun k hk => mem_kids.2 hk) (List.forall_mem_nil _)
    refine .inr ?_
    rcases hsearch with ⟨hall, hsearch⟩ | ⟨⟨k, hk, hne⟩, hsearch⟩
    · have hends : ∀ k ∈ kids keys, Ends (supersedes keys) k := fun k hk => hall k ((hmem k).2 hk)
      rcases hwalk with ⟨-, hwalk⟩ | ⟨⟨k, hk, hne⟩, -⟩
      · exact .inl ⟨rfl, hends, hsearch, hwalk⟩
      · exact absurd (hends k (mem_kids.2 hk)) hne
    · rcases hwalk with ⟨hall, -⟩ | ⟨-, hwalk⟩
      · exact absurd (hall k (horder.mem_iff.1 hk)) hne
      · exact .inr ⟨rfl, ⟨k, (hmem k).1 hk, hne⟩, hsearch, hwalk⟩

/-- The chains of an accepted registry end, each link at one superseded key of the same algorithm;
and the verdict on the links, which is the browser's, is the same in any order of the kids: false
exactly when a chain revisits a key. -/
theorem validateRegistry_supersession {ε ρ : Type} (lib : Primitives ε ρ)
    (registry : PublicKeyRegistry) {order order' : List (List Char)}
    (horder : order.Perm (registry.keys.map RegistryKey.kid))
    (horder' : order'.Perm (registry.keys.map RegistryKey.kid)) :
    (validateRegistry lib order registry = some (.ok ()) →
      (∀ key ∈ registry.keys, ∃ n ≤ registry.keys.length,
        follow (supersedes registry.keys) n key.kid = none) ∧
      ∀ key ∈ registry.keys, supersedes registry.keys key.kid = key.supersedesKid ∧
        ∀ parent, key.supersedesKid = some parent → parent ≠ key.kid ∧
          ∃! prior, prior ∈ registry.keys ∧ prior.kid = parent ∧
            prior.status = "superseded".toList ∧ prior.algorithm = key.algorithm) ∧
    (validateHeader registry = .ok () → validateKeys lib [] registry.keys = .ok () →
      validateSupersession order registry.keys = validateSupersession order' registry.keys ∧
      (∃ verdict, validateSupersession order registry.keys = some verdict ∧
        Client.validSupersession registry.keys = some (decide (verdict = .ok ()))) ∧
      (validateLinks registry.keys registry.keys = .ok () →
        (validateSupersession order registry.keys = some (.ok ()) ↔
          ¬ ∃ key ∈ registry.keys, Revisits (supersedes registry.keys) key.kid))) := by
  have hkid : ∀ {k}, k ∈ kids registry.keys ↔ ∃ key ∈ registry.keys, key.kid = k := fun {k} =>
    mem_kids.trans List.mem_map
  constructor
  · intro h
    unfold validateRegistry at h
    split at h
    · cases h
    split at h
    · cases h
    rename_i hkeys
    have hnodup := (nodup_of_validateKeys hkeys).1
    obtain ⟨e, -, hverdict, -⟩ | ⟨hlinks, hends, -⟩ | ⟨-, -, hverdict, -⟩ :=
      supersession_verdict hnodup horder
    · rw [hverdict] at h
      cases h
    · have hclosed := kids_closed hlinks
      refine ⟨fun key hkey => ⟨_, card_kids, ?_⟩, fun key hkey =>
        ⟨supersedes_of_mem hnodup hkey, fun parent hparent => ?_⟩⟩
      · have hmem := hkid.2 ⟨key, hkey, rfl⟩
        exact follow_card_of_ends hclosed hmem (hends _ hmem)
      · obtain ⟨hne, prior, hprior, hstatus, halgorithm⟩ :=
          validateLinks_eq_ok.1 hlinks key hkey parent hparent
        have hmem := List.mem_of_find?_eq_some hprior
        have hpriorKid : prior.kid = parent := by simpa using List.find?_some hprior
        refine ⟨hne, prior, ⟨hmem, hpriorKid, hstatus, halgorithm⟩, fun other hother => ?_⟩
        exact eq_of_kid hnodup hmem hother.1 (hother.2.1.trans hpriorKid.symm)
    · rw [hverdict] at h
      cases h
  · intro _ hkeys
    have hnodup := (nodup_of_validateKeys hkeys).1
    obtain ⟨e, hlinks, hverdict, hbrowser⟩ | ⟨hlinks, hends, hverdict, hbrowser⟩ |
      ⟨hlinks, ⟨k, hk, hne⟩, hverdict, hbrowser⟩ := supersession_verdict hnodup horder
    · refine ⟨?_, ⟨_, hverdict, hbrowser.trans (by simp)⟩, fun hok => ?_⟩
      · obtain ⟨e', hlinks', hverdict', -⟩ | ⟨hlinks', -⟩ | ⟨hlinks', -⟩ :=
          supersession_verdict hnodup horder'
        · rw [hverdict, hverdict', Except.error.inj (hlinks.symm.trans hlinks')]
        · exact absurd (hlinks.symm.trans hlinks') (by simp)
        · exact absurd (hlinks.symm.trans hlinks') (by simp)
      · exact absurd (hlinks.symm.trans hok) (by simp)
    · have hclosed := kids_closed hlinks
      refine ⟨?_, ⟨_, hverdict, hbrowser.trans (by simp)⟩, fun _ => iff_of_true hverdict ?_⟩
      · obtain ⟨e', hlinks', -⟩ | ⟨-, -, hverdict', -⟩ | ⟨-, ⟨k, hk, hne⟩, -⟩ :=
          supersession_verdict hnodup horder'
        · exact absurd (hlinks.symm.trans hlinks') (by simp)
        · rw [hverdict, hverdict']
        · exact absurd (hends k hk) hne
      · rintro ⟨key, hkey, hrevisits⟩
        exact hrevisits.not_ends (hends _ (hkid.2 ⟨key, hkey, rfl⟩))
    · have hclosed := kids_closed hlinks
      refine ⟨?_, ⟨_, hverdict, hbrowser.trans (by simp)⟩, fun _ => iff_of_false ?_ ?_⟩
      · obtain ⟨e', hlinks', -⟩ | ⟨-, hends, -⟩ | ⟨-, -, hverdict', -⟩ :=
          supersession_verdict hnodup horder'
        · exact absurd (hlinks.symm.trans hlinks') (by simp)
        · exact absurd (hends k hk) hne
        · rw [hverdict, hverdict']
      · rw [hverdict]
        simp
      · obtain ⟨key, hkey, rfl⟩ := hkid.1 hk
        rw [not_not]
        refine ⟨key, hkey, ?_⟩
        by_contra hrevisits
        exact hne ((ends_iff_not_revisits hclosed hk).2 hrevisits)

/-- A library that takes every text for a P-256 key. -/
def sampleLibrary : Primitives Unit Unit where
  pemDecode text := (some ("PUBLIC KEY".toList, text), [])
  parsePKIXPublicKey _ := some (.ecdsa () "P-256".toList)
  verifyASN1 _ _ _ := true
  verifyPSS _ _ _ := true

def sampleKey (kid status : String) (parent : Option (List Char)) : RegistryKey where
  algorithm := algorithmECDSAP256SHA256
  environments := some []
  kid := kid.toList
  publicKeyPem := []
  purposes := some []
  revocationReason := none
  revokedAt := none
  status := status.toList
  supersedesKid := parent
  tenantScope := none
  validFrom := "2026-07-18T01:00:00Z".toList
  validUntil := "2026-07-18T01:00:00.5Z".toList

def sampleRegistry : PublicKeyRegistry where
  issuedAt := "2026-07-18T01:00:00Z".toList
  keys := [sampleKey "b" "active" (some "a".toList), sampleKey "a" "superseded" none]
  previousRegistryHash := none
  purposePolicyHash := List.replicate 64 '0'
  registryID := List.replicate 64 '0'
  registryVersion := 1
  rootFingerprint := List.replicate 64 '0'
  schemaVersion := "1.0.0".toList

theorem validateRegistry_supersession_sample :
    (∃ n ≤ 2, follow (supersedes sampleRegistry.keys) n "b".toList = none) ∧
      validateSupersession ["b".toList, "a".toList] sampleRegistry.keys
        = validateSupersession ["a".toList, "b".toList] sampleRegistry.keys ∧
      ¬ ∃ key ∈ sampleRegistry.keys, Revisits (supersedes sampleRegistry.keys) key.kid := by
  obtain ⟨hchains, hverdict⟩ := validateRegistry_supersession sampleLibrary sampleRegistry
    (by decide : ["b".toList, "a".toList].Perm (sampleRegistry.keys.map RegistryKey.kid))
    (by decide : ["a".toList, "b".toList].Perm (sampleRegistry.keys.map RegistryKey.kid))
  obtain ⟨hends, -⟩ := hchains (by decide +kernel)
  obtain ⟨hsame, -, hiff⟩ := hverdict (by decide +kernel) (by decide +kernel)
  exact ⟨hends (sampleKey "b" "active" (some "a".toList)) List.mem_cons_self, hsame,
    (hiff (by decide +kernel)).1 (by decide +kernel)⟩

end Verdict

end Canonical
