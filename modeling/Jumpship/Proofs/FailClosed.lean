import Jumpship.Contracts.SchemaValidator

/-!
# References that do not resolve

A reference that does not resolve raises, and the exception leaves `validate` unless a branch of
`anyOf`, `oneOf`, `not`, `if` or `contains` is being tried: there `_valid` answers false for it.
`Sound` is what every part of the evaluation keeps: a reference that failed is still the exception
in flight, or was swallowed.
-/

namespace SchemaValidator

open Py Eval

section Sound

variable {α β : Type}

/-- What an evaluation may do to the record, from `t` to the record it leaves. -/
structure Keeps (t : Trace) (r : Except Exc α × Trace) : Prop where
  unresolved : t.unresolved = true → r.2.unresolved = true
  swallowed : t.swallowed = true → r.2.swallowed = true
  kept : r.2.unresolved = true → t.unresolved = true ∨ r.2.swallowed = true ∨
    ∃ e, r.1 = .error e ∧ e.isReference = true
  cause : r.2.swallowed = true → t.swallowed = true ∨ r.2.unresolved = true
  raised : ∀ e, r.1 = .error e → e.isReference = true → r.2.unresolved = true

/-- From every record. -/
def Sound (m : Eval α) : Prop := ∀ t, Keeps t (m t)

theorem sound_pure (a : α) : Sound (pure a : Eval α) := fun _ =>
  ⟨id, id, .inl, .inl, fun _ h => by cases h⟩

theorem sound_raise {e : Exc} (he : e.isReference = false) : Sound (raise e : Eval α) := by
  refine fun _ => ⟨id, id, .inl, .inl, fun e' h h' => ?_⟩
  obtain rfl := Except.error.inj h
  rw [he] at h'
  cases h'

theorem sound_bind {m : Eval α} {f : α → Eval β} (hm : Sound m) (hf : ∀ a, Sound (f a)) :
    Sound (m >>= f) := by
  intro t
  have h := hm t
  rcases hmt : m t with ⟨e | a, t'⟩
  · rw [hmt] at h
    rw [bind_of_error hmt]
    exact ⟨h.unresolved, h.swallowed, fun h' => by simpa using h.kept h', h.cause,
      fun e' h' => h.raised e' (by simpa using h')⟩
  · rw [hmt] at h
    rw [bind_of_ok hmt]
    have hfa := hf a t'
    refine ⟨fun h' => hfa.unresolved (h.unresolved h'), fun h' => hfa.swallowed (h.swallowed h'),
      fun h' => ?_, fun h' => ?_, hfa.raised⟩
    · rcases hfa.kept h' with h' | h'
      · rcases h.kept h' with h' | h' | ⟨_, h', -⟩
        · exact .inl h'
        · exact .inr (.inl (hfa.swallowed h'))
        · simp at h'
      · exact .inr h'
    · rcases hfa.cause h' with h' | h'
      · exact (h.cause h').imp_right hfa.unresolved
      · exact .inr h'

theorem sound_require (test : Bool) (path : Path) (reason : Reason) :
    Sound (require test path reason) := by
  unfold require
  split_ifs
  · exact sound_pure ()
  · exact sound_raise rfl

theorem sound_forEach {body : α → Eval Unit} (h : ∀ x, Sound (body x)) :
    ∀ xs, Sound (forEach body xs)
  | [] => sound_pure ()
  | x :: xs => sound_bind (h x) fun _ => sound_forEach h xs

theorem sound_anyOf {test : α → Eval Bool} (h : ∀ x, Sound (test x)) :
    ∀ xs, Sound (anyOf test xs)
  | [] => sound_pure false
  | x :: xs => sound_bind (h x) fun b => by
    cases b
    · exact sound_anyOf h xs
    · exact sound_pure true

theorem sound_count {test : α → Eval Bool} (h : ∀ x, Sound (test x)) :
    ∀ xs, Sound (count test xs)
  | [] => sound_pure 0
  | x :: xs => sound_bind (h x) fun _ => sound_bind (sound_count h xs) fun _ => sound_pure _

theorem sound_filterMap {f : α → Eval (Option β)} (h : ∀ x, Sound (f x)) :
    ∀ xs, Sound (filterMap f xs)
  | [] => sound_pure []
  | x :: xs => sound_bind (h x) fun _ => sound_bind (sound_filterMap h xs) fun _ => sound_pure _

/-- `_valid` is where a failed reference stops being an exception. -/
theorem sound_valid {m : Eval Unit} (hm : Sound m) : Sound (valid m) := by
  intro t
  have h := hm t
  rcases hmt : m t with ⟨e | a, t'⟩
  · rw [hmt] at h
    rw [valid_of_error hmt]
    by_cases he : e.caught
    · simp only [if_pos he]
      refine ⟨h.unresolved, fun h' => Bool.or_eq_true_iff.2 (.inl (h.swallowed h')), fun h' => ?_,
        fun h' => ?_, fun _ h' => by cases h'⟩
      · rcases h.kept h' with h' | h' | ⟨e', h', h''⟩
        · exact .inl h'
        · exact .inr (.inl (by simp [show t'.swallowed = true from h']))
        · obtain rfl := Except.error.inj h'
          exact .inr (.inl (by simp [h'']))
      · rcases Bool.or_eq_true_iff.1 h' with h' | h'
        · exact h.cause h'
        · exact .inr (h.raised e rfl h')
    · simp only [if_neg he]
      exact ⟨h.unresolved, h.swallowed, fun h' => by simpa using h.kept h', h.cause,
        fun e' h' => h.raised e' (by simpa using h')⟩
  · rw [hmt] at h
    rw [valid_of_ok hmt]
    refine ⟨h.unresolved, h.swallowed, fun h' => ?_, h.cause, fun _ h' => by cases h'⟩
    rcases h.kept h' with h' | h' | ⟨_, h', -⟩
    · exact .inl h'
    · exact .inr (.inl h')
    · cases h'

theorem sound_onKeyword (schema : Dict) (name : String) {body : Value → Eval Unit}
    (h : ∀ v, Sound (body v)) : Sound (onKeyword schema name body) := by
  unfold onKeyword
  split
  · exact h _
  · exact sound_pure ()

theorem sound_iterate (value : Value) : Sound (iterate value) := by
  unfold iterate
  split
  · exact sound_pure _
  · exact sound_raise rfl

theorem sound_below (left : Number) (right : Value) : Sound (below left right) := by
  unfold below
  split
  · exact sound_pure _
  · exact sound_raise rfl

theorem sound_above (left : Number) (right : Value) : Sound (above left right) := by
  unfold above
  split
  · exact sound_pure _
  · exact sound_raise rfl

theorem sound_outOfRange (n : Number) (schema : Dict) (minimum maximum : String) (least : Value) :
    Sound (outOfRange n schema minimum maximum least) :=
  sound_bind (sound_below _ _) fun b => by
    cases b
    · exact sound_above _ _
    · exact sound_pure _

end Sound

/-! ## The parts of an evaluation -/

section Parts

theorem sound_validateType (value expected : Value) (path : Path) :
    Sound (validateType value expected path) := by
  refine sound_bind ?_ fun names => sound_bind (sound_anyOf (fun name => ?_) names) fun found =>
    sound_require _ _ _
  · unfold typeNames
    split
    · exact sound_pure _
    · exact sound_iterate _
  · unfold checkType
    split
    · exact sound_pure _
    · split_ifs
      · exact sound_pure _
      · exact sound_raise rfl

theorem sound_toFloat (x : Number) : Sound (toFloat x) := by
  unfold toFloat
  split
  · exact sound_pure _
  · split
    · exact sound_pure _
    · exact sound_raise rfl

theorem sound_trueDiv (left right : Number) : Sound (trueDiv left right) := by
  unfold trueDiv
  split
  · split_ifs
    · exact sound_raise rfl
    · split
      · exact sound_pure _
      · exact sound_raise rfl
  · refine sound_bind (sound_toFloat _) fun x => sound_bind (sound_toFloat _) fun y => ?_
    split_ifs
    · exact sound_raise rfl
    · exact sound_pure _

theorem sound_round (x : Double) : Sound (round x) := by
  cases x with
  | finite x => exact sound_pure _
  | negZero => exact sound_pure _
  | inf negative => exact sound_raise rfl
  | nan => exact sound_raise rfl

theorem sound_validateNumber (x : Number) (schema : Dict) (path : Path) :
    Sound (validateNumber x schema path) := by
  refine sound_bind (sound_outOfRange _ _ _ _ _) fun out => sound_bind (sound_require _ _ _) fun _ =>
    sound_bind (sound_onKeyword _ _ fun bound => ?_) fun _ =>
    sound_bind (sound_onKeyword _ _ fun bound => ?_) fun _ =>
    sound_onKeyword _ _ fun divisor => ?_
  · split
    · exact sound_require _ _ _
    · exact sound_raise rfl
  · split
    · exact sound_require _ _ _
    · exact sound_raise rfl
  · split
    · exact sound_raise rfl
    · exact sound_bind (sound_trueDiv _ _) fun q => sound_bind (sound_round q) fun n =>
        sound_require _ _ _

variable {re : Str → Option (Str → Bool)} {byId : Documents}

theorem sound_checkDict {rec : Value → Path → Eval Unit} (hrec : ∀ v p, Sound (rec v p))
    (schema : Dict) (path : Path) : Sound (checkDict re rec schema path) := by
  have hkey : ∀ test reason name, Sound (checkKeyword schema path test reason name) :=
    fun _ _ _ => sound_onKeyword _ _ fun _ => sound_require _ _ _
  refine sound_bind (sound_require _ _ _) fun _ => sound_bind (hkey _ _ _) fun _ =>
    sound_bind (hkey _ _ _) fun _ => sound_bind (sound_onKeyword _ _ fun values => ?_) fun _ =>
    sound_bind (hkey _ _ _) fun _ => sound_bind (sound_forEach (fun _ => hkey _ _ _) _) fun _ =>
    sound_bind (sound_forEach (fun bounds => ?_) _) fun _ =>
    sound_bind (sound_forEach (fun _ => hkey _ _ _) _) fun _ => sound_bind (hkey _ _ _) fun _ =>
    sound_bind (sound_onKeyword _ _ fun pattern => ?_) fun _ => sound_bind (hkey _ _ _) fun _ =>
    sound_bind (sound_forEach (fun name => sound_onKeyword _ _ fun children => ?_) _) fun _ =>
    sound_bind (sound_forEach (fun name => sound_onKeyword _ _ fun children => ?_) _) fun _ =>
    sound_bind (sound_forEach (fun name => sound_onKeyword _ _ fun child => hrec _ _) _) fun _ =>
    sound_onKeyword _ _ fun dependencies => ?_
  · split
    · exact sound_bind (sound_require _ _ _) fun _ => sound_require _ _ _
    · exact sound_raise rfl
  · refine sound_onKeyword _ _ fun low => sound_onKeyword _ _ fun high => ?_
    split
    · exact sound_require _ _ _
    · exact sound_raise rfl
  · split
    · exact sound_require _ _ _
    · exact sound_raise rfl
  · split
    · exact sound_forEach (fun _ => hrec _ _) _
    · exact sound_raise rfl
  · split
    · exact sound_bind (sound_require _ _ _) fun _ => sound_forEach (fun _ => hrec _ _) _
    · exact sound_raise rfl
  · split
    · exact sound_require _ _ _
    · exact sound_raise rfl

theorem sound_validateSchemaDefinition : ∀ (limit : ℕ) (schema : Value) (path : Path),
    Sound (validateSchemaDefinition re limit schema path)
  | 0, _, _ => sound_raise rfl
  | limit + 1, schema, path => by
    cases schema with
    | bool b => exact sound_pure ()
    | obj ms => exact sound_checkDict (sound_validateSchemaDefinition limit) ms path
    | _ => exact sound_raise rfl

/-- The only place where a reference fails. -/
theorem sound_evalReference (reference : Value) (root : Dict) :
    Sound (evalReference byId reference root) := by
  unfold evalReference
  split
  · split
    · exact sound_pure _
    · exact fun t => ⟨fun _ => rfl, id, fun _ => .inr (.inr ⟨_, rfl, rfl⟩), .inl, fun _ _ _ => rfl⟩
  · exact sound_raise rfl

theorem sound_search (pattern : Value) (text : Str) : Sound (search re pattern text) := by
  unfold search
  split
  · split
    · exact sound_pure _
    · exact sound_raise rfl
  · exact sound_raise rfl

theorem sound_missingFields (members : Dict) (fields : List Value) :
    Sound (missingFields members fields) := by
  refine sound_filterMap (fun field => ?_) fields
  split
  · exact sound_pure _
  · split_ifs
    · exact sound_pure _
    · exact sound_raise rfl

theorem sound_memberSchemas (schema : Dict) (key : Str) (path : Path) :
    Sound (memberSchemas re schema key path) := by
  refine sound_bind ?_ fun own => sound_bind ?_ fun matched => ?_
  · unfold ownProperty
    split
    · exact sound_pure _
    · split_ifs
      · exact sound_raise rfl
      · exact sound_pure _
    · split_ifs
      · exact sound_raise rfl
      · exact sound_pure _
    · exact sound_raise rfl
  · unfold patternMatches
    split
    · exact sound_filterMap (fun m => sound_bind (sound_search _ _) fun b => by
        cases b <;> exact sound_pure _) _
    · exact sound_raise rfl
  · split_ifs
    · exact sound_pure _
    · split
      · exact sound_raise rfl
      · exact sound_pure _
      · exact sound_pure _

variable {rec : Validator} (hrec : ∀ value schema root path, Sound (rec value schema root path))
include hrec

theorem sound_validateObject (members schema root : Dict) (path : Path) :
    Sound (validateObject re rec members schema root path) := by
  refine sound_bind (sound_iterate _) fun required => sound_bind (sound_missingFields _ _) fun _ =>
    sound_bind (sound_require _ _ _) fun _ => sound_bind (sound_outOfRange _ _ _ _ _) fun _ =>
    sound_bind (sound_require _ _ _) fun _ => sound_bind (sound_forEach (fun m => ?_) _) fun _ =>
    sound_bind (sound_onKeyword _ _ fun _ => sound_forEach (fun _ => hrec _ _ _ _) _) fun _ => ?_
  · exact sound_bind (sound_memberSchemas _ _ _) fun children =>
      sound_forEach (fun _ => hrec _ _ _ _) _
  · split
    · refine sound_forEach (fun d => ?_) _
      split_ifs
      · exact sound_bind (sound_iterate _) fun _ => sound_bind (sound_missingFields _ _) fun _ =>
          sound_require _ _ _
      · exact sound_pure ()
    · exact sound_raise rfl

theorem sound_validateArray (elements : List Value) (schema root : Dict) (path : Path) :
    Sound (validateArray rec elements schema root path) := by
  refine sound_bind (sound_outOfRange _ _ _ _ _) fun _ => sound_bind (sound_require _ _ _) fun _ =>
    sound_bind (sound_require _ _ _) fun _ => sound_bind (sound_iterate _) fun _ =>
    sound_bind (sound_forEach (fun _ => hrec _ _ _ _) _) fun _ =>
    sound_bind (sound_onKeyword _ _ fun _ => sound_forEach (fun _ => hrec _ _ _ _) _) fun _ =>
    sound_onKeyword _ _ fun child => ?_
  exact sound_bind (sound_count (fun _ => sound_valid (hrec _ _ _ _)) _) fun _ =>
    sound_bind (sound_outOfRange _ _ _ _ _) fun _ => sound_require _ _ _

theorem sound_validateDict (value : Value) (schema root : Dict) (path : Path) :
    Sound (validateDict re byId rec value schema root path) := by
  have hvalid : ∀ child : Value, Sound (valid (rec value child root path)) :=
    fun _ => sound_valid (hrec _ _ _ _)
  refine sound_bind (sound_onKeyword _ _ fun _ => ?_) fun _ =>
    sound_bind (sound_onKeyword _ _ fun _ => ?_) fun _ =>
    sound_bind (sound_onKeyword _ _ fun _ => ?_) fun _ =>
    sound_bind (sound_onKeyword _ _ fun _ => ?_) fun _ =>
    sound_bind (sound_onKeyword _ _ fun _ => ?_) fun _ =>
    sound_bind (sound_onKeyword _ _ fun _ => ?_) fun _ =>
    sound_bind (sound_onKeyword _ _ fun _ => sound_require _ _ _) fun _ =>
    sound_bind (sound_onKeyword _ _ fun _ => ?_) fun _ =>
    sound_bind (sound_onKeyword _ _ fun _ => sound_validateType _ _ _) fun _ => ?_
  · exact sound_bind (sound_evalReference _ _) fun _ => hrec _ _ _ _
  · exact sound_bind (sound_iterate _) fun _ => sound_forEach (fun _ => hrec _ _ _ _) _
  · exact sound_bind (sound_iterate _) fun _ => sound_bind (sound_anyOf hvalid _) fun _ =>
      sound_require _ _ _
  · exact sound_bind (sound_iterate _) fun _ => sound_bind (sound_count hvalid _) fun _ =>
      sound_require _ _ _
  · exact sound_bind (hvalid _) fun _ => sound_require _ _ _
  · refine sound_bind (hvalid _) fun _ => ?_
    split
    · exact sound_pure ()
    · exact hrec _ _ _ _
  · exact sound_bind (sound_iterate _) fun _ => sound_require _ _ _
  · split
    · exact sound_validateObject hrec _ _ _ _
    · exact sound_validateArray hrec _ _ _ _
    · exact sound_bind (sound_outOfRange _ _ _ _ _) fun _ => sound_bind (sound_require _ _ _) fun _ =>
        sound_onKeyword _ _ fun _ => sound_bind (sound_search _ _) fun _ => sound_require _ _ _
    · exact sound_validateNumber _ _ _
    · exact sound_pure ()

end Parts

/-! ## validate -/

section Validate

variable {re : Str → Option (Str → Bool)} {byId : Documents}

theorem sound_validateOther (value schema : Value) : Sound (validateOther value schema) := by
  unfold validateOther
  dsimp only
  split_ifs
  · exact sound_raise rfl
  · split
    · exact sound_pure ()
    · exact sound_pure ()
    · exact sound_raise rfl

theorem sound_validateAt : ∀ (limit : ℕ) (value schema : Value) (root : Dict) (path : Path),
    Sound (validateAt re byId limit value schema root path)
  | 0, _, _, _, _ => sound_raise rfl
  | limit + 1, value, schema, root, path => by
    cases schema with
    | bool b =>
      cases b
      · exact sound_raise rfl
      · exact sound_pure ()
    | obj ms => exact sound_validateDict (sound_validateAt limit) value ms root path
    | _ => exact sound_validateOther _ _

theorem sound_validate (limit : ℕ) (value schema : Value) :
    Sound (validate re byId limit value schema) := by
  cases schema with
  | bool b =>
    cases b
    · exact sound_raise rfl
    · exact sound_pure ()
  | obj ms =>
    exact sound_bind (sound_validateSchemaDefinition _ _ _) fun _ => sound_validateAt _ _ _ _ _
  | _ => exact sound_validateSchemaDefinition _ _ _

variable (re byId) (limit : ℕ) (value schema : Value)

/-- A run of `validate`: what it raises, if anything, and its record. -/
def outcome : Except Exc Unit × Trace := validate re byId limit value schema ⟨false, false⟩

/-- The evaluation reaches a reference that does not resolve. -/
def ReachesUnresolved : Prop := (outcome re byId limit value schema).2.unresolved = true

/-- A branch that was tried answered false because of one. -/
def SwallowsUnresolved : Prop := (outcome re byId limit value schema).2.swallowed = true

def Raises : Prop := ∃ e, (outcome re byId limit value schema).1 = .error e

end Validate

end SchemaValidator
