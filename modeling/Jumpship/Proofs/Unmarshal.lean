import Jumpship.Go.Unmarshal

/-!
# Decoding into structs

What a struct holds after an object is decoded into it: a field that only the member of its own name
is decoded into holds that member's value, and what it held where there is none.
-/

namespace Go

variable {σ α β : Type}

/-! ## Slices -/

section Slices

variable {zero : α} {decode : Decoding α}

theorem decodeElements_nil (xs : List Tree) :
    decodeElements zero decode xs [] = (xs.mapM (decode · zero)).map fun elems => (elems, []) := by
  induction xs with
  | nil => rfl
  | cons x xs ih =>
    rw [decodeElements, List.mapM_cons, List.tail_nil, ih]
    cases hx : decode x zero with
    | none => simp [hx]
    | some a => cases hxs : xs.mapM (decode · zero) <;> simp [hx]

/-- A fresh slice is decoded element by element. -/
theorem decodeSlice_nil {v : Tree} {s : Slice α} (h : decodeSlice zero decode v .nil = some s) :
    v = .null ∧ s = .nil ∨ ∃ xs, v = .arr xs ∧ xs.mapM (decode · zero) = some s.elems := by
  cases v with
  | null => exact .inl ⟨rfl, (Option.some.inj h).symm⟩
  | arr xs =>
    refine .inr ⟨xs, rfl, ?_⟩
    rcases xs with _ | ⟨x, xs⟩
    · rw [← Option.some.inj h]
      rfl
    · rw [decodeSlice, Slice.nil, List.nil_append, decodeElements_nil, Option.map_map] at h
      · obtain ⟨elems, helems, rfl⟩ := Option.map_eq_some_iff.1 h
        exact helems
      · simp
  | bool b => cases h
  | num n => cases h
  | str t => cases h
  | obj ms => cases h

end Slices

/-! ## Fields -/

section Fields

/-- Only its own name is decoded into a field this name could be decoded into. -/
def Plain (fields : List (StructField σ)) (key : List Char) : Prop :=
  ∀ f ∈ fields, foldName f.name.toList = foldName key → f.name.toList = key

instance decidablePlain (fields : List (StructField σ)) (key : List Char) :
    Decidable (Plain fields key) :=
  inferInstanceAs (Decidable (∀ f ∈ fields, _ → _))

/-- Decoding into the field leaves what `get` reads. -/
def Preserves (f : StructField σ) (get : σ → β) : Prop :=
  ∀ v s s', f.decode v s = some s' → get s' = get s

@[simp] theorem name_field (name : String) (get : σ → α) (set : σ → α → σ) (decode : Decoding α) :
    (field name get set decode).name = name := rfl

theorem preserves_field {name : String} {get : σ → α} {set : σ → α → σ} {decode : Decoding α}
    {read : σ → β} (h : ∀ s a, read (set s a) = read s) :
    Preserves (field name get set decode) read := by
  intro v s s' hs
  obtain ⟨a, -, rfl⟩ := Option.map_eq_some_iff.1 hs
  exact h s a

theorem plain_of_fieldFor {fields : List (StructField σ)} {key : List Char} {f : StructField σ}
    (hplain : Plain fields key) (h : fieldFor fields key = some f) :
    f ∈ fields ∧ f.name.toList = key := by
  rw [fieldFor, Option.or_eq_some_iff] at h
  rcases h with h | ⟨-, h⟩
  · exact ⟨List.mem_of_find?_eq_some h, by simpa using List.find?_some h⟩
  · have hmem := List.mem_of_find?_eq_some h
    exact ⟨hmem, hplain f hmem (by simpa using List.find?_some h)⟩

/-- The field of a name that one field alone has. -/
theorem fieldFor_name {fields : List (StructField σ)} {f : StructField σ} (hmem : f ∈ fields)
    (hunique : ∀ g ∈ fields, g.name = f.name → g = f) : fieldFor fields f.name.toList = some f := by
  rw [fieldFor]
  cases hfind : fields.find? fun g => g.name.toList = f.name.toList with
  | none =>
    have := List.find?_eq_none.1 hfind f hmem
    simp at this
  | some g =>
    have hname : g.name.toList = f.name.toList := by simpa using List.find?_some hfind
    rw [hunique g (List.mem_of_find?_eq_some hfind) (String.toList_injective hname), Option.some_or]

variable {fields : List (StructField σ)} {strict : Bool} {name : String} {get : σ → α}
  {set : σ → α → σ} {decode : Decoding α}

/-- What is decoded into a field, from the member of its name. -/
def MemberDecoded (decode : Decoding α) (member : Option Tree) (old new : α) : Prop :=
  match member with
  | none => new = old
  | some v => decode v old = some new

theorem decodeMembers_get (hmem : field name get set decode ∈ fields)
    (hget : ∀ s a, get (set s a) = a)
    (hunique : ∀ g ∈ fields, g.name = name → g = field name get set decode)
    (hothers : ∀ g ∈ fields, g.name ≠ name → Preserves g get) {ms : List (List Char × Tree)}
    {s s' : σ} (hnodup : (Json.names ms).Nodup) (hplain : ∀ k ∈ Json.names ms, Plain fields k)
    (h : decodeMembers fields strict ms s = some s') :
    MemberDecoded decode (ms.lookup name.toList) (get s) (get s') := by
  induction ms generalizing s with
  | nil =>
    rw [decodeMembers] at h
    rw [← Option.some.inj h]
    rfl
  | cons m ms ih =>
    obtain ⟨key, v⟩ := m
    rw [Json.names_cons, List.nodup_cons] at hnodup
    obtain ⟨hkey, hrest⟩ := List.forall_mem_cons.1 hplain
    rw [Json.lookup_cons_eq]
    rw [decodeMembers] at h
    by_cases hname : name.toList = key
    · subst hname
      rw [if_pos rfl]
      rw [show fieldFor fields name.toList = some (field name get set decode) from
        fieldFor_name hmem hunique] at h
      obtain ⟨s₁, hs₁, h⟩ := Option.bind_eq_some_iff.1 h
      obtain ⟨a, ha, rfl⟩ := Option.map_eq_some_iff.1 hs₁
      have hlast := ih hnodup.2 hrest h
      rw [Json.lookup_eq_none.2 hnodup.1] at hlast
      have hvalue : get s' = get (set s a) := hlast
      rw [hget] at hvalue
      show decode v (get s) = some (get s')
      rw [hvalue]
      exact ha
    · rw [if_neg hname]
      cases hfield : fieldFor fields key with
      | none =>
        rw [hfield] at h
        dsimp only at h
        cases strict with
        | true => cases h
        | false => exact ih hnodup.2 hrest h
      | some f =>
        rw [hfield] at h
        obtain ⟨s₁, hs₁, h⟩ := Option.bind_eq_some_iff.1 h
        obtain ⟨hf, hfname⟩ := plain_of_fieldFor hkey hfield
        have hne : f.name ≠ name := fun heq => hname (heq ▸ hfname)
        rw [← hothers f hf hne v s s₁ hs₁]
        exact ih hnodup.2 hrest h

/-- An object is decoded if all its members are, whatever is there. -/
theorem exists_decodeMembers {ms : List (List Char × Tree)} {s : σ}
    (h : ∀ m ∈ ms, ∀ f, fieldFor fields m.1 = some f → ∀ s, ∃ s', f.decode m.2 s = some s') :
    ∃ s', decodeMembers fields false ms s = some s' := by
  induction ms generalizing s with
  | nil => exact ⟨s, rfl⟩
  | cons m ms ih =>
    obtain ⟨hm, hms⟩ := List.forall_mem_cons.1 h
    rw [decodeMembers]
    cases hfield : fieldFor fields m.1 with
    | none => exact ih hms
    | some f =>
      obtain ⟨s₁, hs₁⟩ := hm f hfield s
      show ∃ s', (f.decode m.2 s).bind _ = some s'
      rw [hs₁]
      exact ih hms

/-- Where unknown members are refused, allowing them makes no difference. -/
theorem decodeMembers_allow : ∀ {ms : List (List Char × Tree)} {s s' : σ},
    decodeMembers fields true ms s = some s' → decodeMembers fields false ms s = some s'
  | [], _, _, h => h
  | (key, v) :: ms, s, s', h => by
    rw [decodeMembers] at h ⊢
    cases hfield : fieldFor fields key with
    | none =>
      rw [hfield] at h
      cases h
    | some f =>
      rw [hfield] at h
      obtain ⟨s₁, hs₁, h⟩ := Option.bind_eq_some_iff.1 h
      show (f.decode v s).bind _ = some s'
      rw [hs₁]
      exact decodeMembers_allow h

theorem decodeStruct_allow {v : Tree} {s s' : σ} (h : decodeStruct fields true v s = some s') :
    decodeStruct fields false v s = some s' := by
  cases v with
  | null => exact h
  | obj ms => exact decodeMembers_allow h
  | bool b => cases h
  | num n => cases h
  | str t => cases h
  | arr xs => cases h

end Fields

end Go
