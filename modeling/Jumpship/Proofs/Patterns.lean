import Jumpship.Codegen.Patterns
import Jumpship.Proofs.FailClosed

/-!
# Contract patterns in three dialects

The validator of the contract tests searches a pattern as Python does, whose `$` also matches before a
last newline.
-/

namespace SchemaValidator

open Eval Pattern Py Regex

/-! ## Subjects -/

section Subjects

/-- The code units of a code point. -/
def codeUnits (c : ℕ) : List ℕ :=
  if c < 0x10000 then [c]
  else [0xD800 + (c - 0x10000) / 0x400, 0xDC00 + (c - 0x10000) % 0x400]

/-- What a dialect makes of a string: its code points, or its code units. -/
def subject : Dialect → Str → List ℕ
  | .python, v | .go, v => v.codes
  | .ecmaScript, v => v.codes.flatMap codeUnits

/-- Whether the dialect finds `^p$` in the string. -/
def Accepts (d : Dialect) (p : Regex) (v : Str) : Prop := d.finds p (subject d v) = true

end Subjects

/-! ## The validator -/

section Validator

/-- The members of `s_string(pattern=p)`. -/
def patternMembers (p : Regex) : Dict :=
  [(str "type", .str (str "string")), (str "pattern", .str (.text (String.ofList p.anchored)))]

variable {re : Str → Option (Str → Bool)} {byId : Documents} {p : Regex} {found : Str → Bool}

theorem keyword_patternMembers (name : String) : keyword (patternMembers p) name
      = if name = "type" then some (.str (str "string"))
        else if name = "pattern" then some (.str (.text (String.ofList p.anchored))) else none := by
  unfold keyword patternMembers
  by_cases htype : name = "type"
  · rw [if_pos htype, htype]
    exact Json.lookup_cons_self _ _ _
  · have hne : str name ≠ str "type" := fun h => htype (Str.text.inj h)
    rw [if_neg htype, Json.lookup_cons_ne hne]
    by_cases hpattern : name = "pattern"
    · rw [if_pos hpattern, hpattern]
      exact Json.lookup_cons_self _ _ _
    · have hne' : str name ≠ str "pattern" := fun h => hpattern (Str.text.inj h)
      rw [if_neg hpattern, Json.lookup_cons_ne hne']
      rfl

theorem validateSchemaDefinition_patternMembers
    (hre : re (.text (String.ofList p.anchored)) = some found) (limit : ℕ) :
    validateSchemaDefinition re (limit + 1) (.obj (patternMembers p)) [] = pure () := by
  have hsupported : (Json.names (patternMembers p)).filter (fun key => !supported key) = [] := by
    have hnames : Json.names (patternMembers p) = [str "type", str "pattern"] := rfl
    rw [hnames]
    decide +kernel
  have htype : isTypeDeclaration (.str (str "string")) = true := by decide +kernel
  rw [validateSchemaDefinition, checkDict]
  simp [hsupported, htype, checkKeyword, onKeyword, keyword_patternMembers, hre, checkBounds,
    forEach, require, schemaMapKeywords, schemaListKeywords, schemaValueKeywords]
  rfl

/-- Under the schema of a pattern a string is searched for it and nothing else. -/
theorem validateAt_patternMembers (hre : re (.text (String.ofList p.anchored)) = some found)
    (limit : ℕ) (v : Str) (root : Dict) :
    validateAt re byId (limit + 1) (.str v) (.obj (patternMembers p)) root []
      = require (found v) [] .pattern := by
  have htype : validateType (.str v) (.str (str "string")) [] = pure () := by
    have hstring : hasType (.str v) (str "string") = true := by simp [hasType]
    change anyOf (checkType (.str v)) [.str (str "string")] >>= (fun found =>
      require found [] .type) = pure ()
    rw [anyOf, checkType, hstring]
    rfl
  have hlength : outOfRange (.int v.length) (patternMembers p) "minLength" "maxLength" (int 0)
      = pure false := by
    have hlow : Number.less (.int v.length) (.int 0) = false := by
      simp [Number.less, Number.value?]
    simp only [outOfRange, keywordD, keyword_patternMembers, below, above, number?, int, infinity]
    change (if Number.less _ _ = true then pure true else pure (Number.less _ _) : Eval Bool) = _
    rw [hlow]
    rfl
  rw [validateAt, validateDict]
  simp [htype, hlength, onKeyword, keyword_patternMembers, search, hre]
  rfl

/-- The validator accepts a string for a pattern where Python finds it. -/
theorem accepted_iff (hre : re (.text (String.ofList p.anchored)) = some found) (limit : ℕ)
    (v : Str) :
    (outcome re byId (limit + 1) (.str v) (.obj (patternMembers p))).1 = .ok () ↔
      found v = true := by
  have hrun : outcome re byId (limit + 1) (.str v) (.obj (patternMembers p))
      = require (found v) [] .pattern ⟨false, false⟩ := by
    rw [outcome, validate, validateSchemaDefinition_patternMembers hre]
    change validateAt re byId (limit + 1 + 1) (.str v) (.obj (patternMembers p)) _ [] _ = _
    rw [validateAt_patternMembers hre]
  rw [hrun, require]
  cases found v with
  | false => exact iff_of_false (fun h => by cases h) (by decide)
  | true => exact iff_of_true rfl rfl

end Validator

/-! ## Dialects -/

section Dialects

variable {p : Regex}

/-- Over ASCII, code units are code points. -/
theorem mem_codeUnits (hp : p.Ascii) {codes : List ℕ} :
    codes.flatMap codeUnits ∈ p.expression.matches' ↔ codes ∈ p.expression.matches' := by
  have hsame : ∀ {codes : List ℕ}, (∀ c ∈ codes, c < 128) → codes.flatMap codeUnits = codes := by
    intro codes h
    induction codes with
    | nil => rfl
    | cons c codes ih =>
      obtain ⟨hc, hcodes⟩ := List.forall_mem_cons.1 h
      rw [List.flatMap_cons, ih hcodes, codeUnits, if_pos (by omega), List.singleton_append]
  constructor
  · intro h
    have hunits := over_ascii hp _ h
    rwa [hsame] at h
    intro c hc
    have hmem : ∀ u ∈ codeUnits c, u < 128 := fun u hu => hunits u (List.mem_flatMap.2 ⟨c, hc, hu⟩)
    unfold codeUnits at hmem
    split_ifs at hmem with hlt
    · exact hmem c (List.mem_singleton_self c)
    · have := hmem _ List.mem_cons_self
      omega
  · intro h
    rwa [hsame (over_ascii hp _ h)]

theorem accepts_go (v : Str) : Accepts .go p v ↔ v.codes ∈ p.expression.matches' := finds_go

theorem accepts_ecmaScript (hp : p.Ascii) (v : Str) :
    Accepts .ecmaScript p v ↔ v.codes ∈ p.expression.matches' :=
  finds_ecmaScript.trans (mem_codeUnits hp)

theorem accepts_python (v : Str) : Accepts .python p v ↔
    v.codes ∈ p.expression.matches' ∨ ∃ w ∈ p.expression.matches', v.codes = w ++ [0x0A] :=
  finds_python

/-- The string is a match with a newline after it, and no match itself. -/
def TrailingNewline (p : Regex) (v : Str) : Prop :=
  (∃ w ∈ p.expression.matches', v.codes = w ++ [0x0A]) ∧ v.codes ∉ p.expression.matches'

/-- The validator and the other two dialects give a string the verdict of a whole match unless it is
a match with a newline after it, which the validator alone accepts. -/
theorem accepted_iff_matches {re : Str → Option (Str → Bool)} {byId : Documents} (hp : p.Ascii)
    (hre : re (.text (String.ofList p.anchored))
      = some fun v => Dialect.python.finds p (subject .python v))
    (limit : ℕ) (v : Str) :
    ((outcome re byId (limit + 1) (.str v) (.obj (patternMembers p))).1 = .ok () ↔
      v.codes ∈ p.expression.matches') ∧
      (Accepts .go p v ↔ v.codes ∈ p.expression.matches') ∧
      (Accepts .ecmaScript p v ↔ v.codes ∈ p.expression.matches') ↔
    ¬ TrailingNewline p v := by
  have hgo := @accepts_go p v
  have hecma := accepts_ecmaScript hp v
  rw [accepted_iff hre]
  change ((Accepts .python p v ↔ _) ∧ _) ↔ _
  rw [accepts_python, TrailingNewline, hgo, hecma]
  generalize (v.codes ∈ p.expression.matches') = whole
  generalize (∃ w ∈ p.expression.matches', v.codes = w ++ [0x0A]) = newline
  tauto

/-- Python's engine, for one pattern. -/
def engineFor (p : Regex) (text : Str) : Option (Str → Bool) :=
  if text = .text (String.ofList p.anchored) then
    some fun v => Dialect.python.finds p (subject .python v)
  else none

theorem engineFor_anchored (p : Regex) : engineFor p (.text (String.ofList p.anchored))
    = some fun v => Dialect.python.finds p (subject .python v) := if_pos rfl

theorem mem_safeName_a : [0x61] ∈ Codegen.Patterns.safeNamePattern.expression.matches' :=
  mem_matches_mul.2 ⟨[0x61], mem_oneOf.2 ⟨0x61, by decide, rfl⟩, [],
    mem_between_oneOf.2 ⟨by decide, by decide, by decide⟩, rfl⟩

theorem newline_notMem_safeName {w : List ℕ} (h : w ∈ Codegen.Patterns.safeNamePattern.expression.matches') :
    0x0A ∉ w := by
  obtain ⟨u, hu, v, hv, rfl⟩ := mem_matches_mul.1 h
  obtain ⟨c, hc, rfl⟩ := mem_oneOf.1 hu
  obtain ⟨-, -, hv⟩ := mem_between_oneOf.1 hv
  have hfirst : ∀ c ∈ [('a', 'z')].flatMap codes, (0x0A : ℕ) ≠ c := by decide
  have hrest : (0x0A : ℕ) ∉ [('a', 'z'), ('0', '9'), ('_', '_'), ('.', '.'), ('-', '-')].flatMap
      codes := by decide
  intro hmem
  rcases List.mem_cons.1 hmem with heq | hmem
  · exact hfirst c hc heq
  · exact hrest (hv _ hmem)

/-- The validator accepts the name `a` with a newline after it. -/
theorem not_accepted_iff_matches :
    ¬ ∀ p ∈ Codegen.Patterns.contractPatterns, ∀ (limit : ℕ) (v : Str),
      ((outcome (engineFor p) [] (limit + 1) (.str v) (.obj (patternMembers p))).1 = .ok () ↔
        v.codes ∈ p.expression.matches') := by
  intro h
  have hmem := (h Codegen.Patterns.safeNamePattern (by simp [Codegen.Patterns.contractPatterns]) 0 (str "a\n")).1
    ((accepted_iff (engineFor_anchored _) 0 _).2
      ((accepts_python _).2 (.inr ⟨[0x61], mem_safeName_a, rfl⟩)))
  exact newline_notMem_safeName hmem (by decide)

theorem accepted_iff_matches_name :
    (outcome (engineFor Codegen.Patterns.safeNamePattern) [] 1 (.str (str "a"))
      (.obj (patternMembers Codegen.Patterns.safeNamePattern))).1 = .ok () := by
  have hagrees := (@accepted_iff_matches _ _ [] (by decide)
    (engineFor_anchored Codegen.Patterns.safeNamePattern) 0 (str "a")).2 fun h => h.2 mem_safeName_a
  exact hagrees.1.2 mem_safeName_a

end Dialects

end SchemaValidator
