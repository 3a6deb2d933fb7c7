import Jumpship.Contracts.SchemaValidator

/-!
# Schema definitions that pass

Whether `_validate_schema_definition` passes depends neither on the path nor on what was recorded
(`alike_validateSchemaDefinition`), so a schema passes once its own keywords do and the schemas inside
it pass (`defined_of_subschemas`).
-/

namespace SchemaValidator

open Py Eval

section Alike

variable {α : Type} {m m' n n' : Eval Unit}

/-- Both pass or both fail, and neither records anything. -/
def Alike (m m' : Eval Unit) : Prop :=
  ∀ t t', (m t).2 = t ∧ (m' t').2 = t' ∧ (m t).1.isOk = (m' t').1.isOk

theorem alike_pure : Alike (pure ()) (pure ()) := fun _ _ => ⟨rfl, rfl, rfl⟩

theorem alike_raise (e e' : Exc) : Alike (raise e) (raise e') := fun _ _ => ⟨rfl, rfl, rfl⟩

theorem alike_require (test : Bool) (path path' : Path) (reason reason' : Reason) :
    Alike (require test path reason) (require test path' reason') := by
  unfold require
  split
  · exact alike_pure
  · exact alike_raise _ _

theorem alike_seq (hm : Alike m m') (hn : Alike n n') :
    Alike (m >>= fun _ => n) (m' >>= fun _ => n') := by
  intro t t'
  obtain ⟨hs, hs', hok⟩ := hm t t'
  rcases h : m t with ⟨e | u, s⟩ <;> rcases h' : m' t' with ⟨e' | u', s'⟩ <;>
    rw [h] at hs hok <;> rw [h'] at hs' hok
  · rw [bind_of_error h, bind_of_error h']
    exact ⟨hs, hs', rfl⟩
  · cases hok
  · cases hok
  · rw [bind_of_ok h, bind_of_ok h']
    obtain ⟨hn₁, hn₂, hn₃⟩ := hn s s'
    exact ⟨hn₁.trans hs, hn₂.trans hs', hn₃⟩

theorem alike_forEach {body body' : α → Eval Unit} :
    ∀ {xs : List α}, (∀ x ∈ xs, Alike (body x) (body' x)) → Alike (forEach body xs) (forEach body' xs)
  | [], _ => alike_pure
  | x :: xs, h => by
    obtain ⟨hx, hxs⟩ := List.forall_mem_cons.1 h
    exact alike_seq hx (alike_forEach hxs)

theorem alike_onKeyword {schema : Dict} {name : String} {body body' : Value → Eval Unit}
    (h : ∀ v, keyword schema name = some v → Alike (body v) (body' v)) :
    Alike (onKeyword schema name body) (onKeyword schema name body') := by
  unfold onKeyword
  cases hv : keyword schema name with
  | none => exact alike_pure
  | some v => exact h v hv

end Alike

section Subschemas

variable {re : Str → Option (Str → Bool)} {schema : Dict} {limit : ℕ} {v : Value}

/-- The schemas a schema object goes on to. -/
def Subschema (schema : Dict) (v : Value) : Prop :=
  (∃ name ∈ schemaMapKeywords, ∃ ms, keyword schema name = some (.obj ms) ∧ v ∈ ms.map Prod.snd) ∨
    (∃ name ∈ schemaListKeywords, ∃ xs, keyword schema name = some (.arr xs) ∧ v ∈ xs) ∨
    ∃ name ∈ schemaValueKeywords, keyword schema name = some v

theorem alike_checkDict {rec rec' : Value → Path → Eval Unit}
    (hrec : ∀ v, Subschema schema v → ∀ p p', Alike (rec v p) (rec' v p')) (path path' : Path) :
    Alike (checkDict re rec schema path) (checkDict re rec' schema path') := by
  have hkey : ∀ test reason name, Alike (checkKeyword schema path test reason name)
      (checkKeyword schema path' test reason name) :=
    fun _ _ _ => alike_onKeyword fun _ _ => alike_require _ _ _ _ _
  refine alike_seq (alike_require _ _ _ _ _) (alike_seq (hkey _ _ _) (alike_seq (hkey _ _ _)
    (alike_seq (alike_onKeyword fun values _ => ?_) (alike_seq (hkey _ _ _)
    (alike_seq (alike_forEach fun _ _ => hkey _ _ _) (alike_seq (alike_forEach fun bounds _ => ?_)
    (alike_seq (alike_forEach fun _ _ => hkey _ _ _) (alike_seq (hkey _ _ _)
    (alike_seq (alike_onKeyword fun pattern _ => ?_) (alike_seq (hkey _ _ _)
    (alike_seq (alike_forEach fun name hname => alike_onKeyword fun children hv => ?_)
    (alike_seq (alike_forEach fun name hname => alike_onKeyword fun children hv => ?_)
    (alike_seq (alike_forEach fun name hname => alike_onKeyword fun child hv =>
      hrec _ (.inr (.inr ⟨_, hname, hv⟩)) _ _)
    (alike_onKeyword fun dependencies _ => ?_))))))))))))))
  · split
    · exact alike_seq (alike_require _ _ _ _ _) (alike_require _ _ _ _ _)
    · exact alike_raise _ _
  · refine alike_onKeyword fun low _ => alike_onKeyword fun high _ => ?_
    split
    · exact alike_require _ _ _ _ _
    · exact alike_raise _ _
  · split
    · exact alike_require _ _ _ _ _
    · exact alike_raise _ _
  · split
    · exact alike_forEach fun m hm =>
        hrec _ (.inl ⟨_, hname, _, hv, List.mem_map_of_mem hm⟩) _ _
    · exact alike_raise _ _
  · split
    · exact alike_seq (alike_require _ _ _ _ _) (alike_forEach fun x hx =>
        hrec _ (.inr (.inl ⟨_, hname, _, hv, List.fst_mem_of_mem_zipIdx hx⟩)) _ _)
    · exact alike_raise _ _
  · split
    · exact alike_require _ _ _ _ _
    · exact alike_raise _ _

theorem alike_validateSchemaDefinition : ∀ (limit : ℕ) (v : Value) (path path' : Path),
    Alike (validateSchemaDefinition re limit v path) (validateSchemaDefinition re limit v path')
  | 0, _, _, _ => alike_raise _ _
  | limit + 1, v, path, path' => by
    cases v with
    | bool b => exact alike_pure
    | obj ms => exact alike_checkDict (fun v _ => alike_validateSchemaDefinition limit v) path path'
    | _ => exact alike_raise _ _

/-- The definition passes. -/
def Defined (re : Str → Option (Str → Bool)) (limit : ℕ) (v : Value) : Prop :=
  ∀ path t, validateSchemaDefinition re limit v path t = (.ok (), t)

theorem defined_of_alike {m : Eval Unit} {t : Trace} (hm : (m t).1.isOk = true)
    (h : ∀ path, Alike (validateSchemaDefinition re limit v path) m) : Defined re limit v := by
  intro path t'
  obtain ⟨htrace, -, hok⟩ := h path t' t
  rcases hrun : validateSchemaDefinition re limit v path t' with ⟨e | u, s⟩ <;>
    rw [hrun] at htrace hok
  · rw [hm] at hok
    cases hok
  · rw [show s = t' from htrace]

theorem defined_of_isOk
    (h : (validateSchemaDefinition re limit v [] ⟨false, false⟩).1.isOk = true) :
    Defined re limit v :=
  defined_of_alike h fun path => alike_validateSchemaDefinition limit v path []

theorem defined_of_subschemas
    (hown : (checkDict re (fun _ _ => pure ()) schema [] ⟨false, false⟩).1.isOk = true)
    (h : ∀ v, Subschema schema v → Defined re limit v) : Defined re (limit + 1) (.obj schema) := by
  refine defined_of_alike hown fun path => alike_checkDict (fun v hv p p' t t' => ?_) path []
  rw [h v hv p t]
  exact ⟨rfl, rfl, rfl⟩

end Subschemas

end SchemaValidator
