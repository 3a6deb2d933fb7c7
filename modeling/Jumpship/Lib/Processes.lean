import Mathlib.Logic.Function.Basic
import Mathlib.Tactic.Common

/-!
# Processes that share a world

A process calls operations on a world it shares with others and goes on by their answers. A machine
says what an operation does, a run interleaves the operations of any number of executions, each of
which can be killed between two of them.

`Meets` is the rely-guarantee reading of a process: whatever the others do in the meantime within
the rely, each of its operations keeps the guarantee. A machine whose programs all meet a guarantee
that is the others' rely keeps it on every run (`step_safe`).
-/

namespace Processes

/-- Operations and the type of what each answers. -/
structure Signature where
  Op : Type
  Answer : Op → Type

/-- A process that answers an `α` or raises an `ε`. An operation can raise. -/
inductive Process (S : Signature) (ε α : Type) where
  | done (a : α)
  | raise (e : ε)
  | call (op : S.Op) (next : Except ε (S.Answer op) → Process S ε α)

variable {S : Signature} {ε α β : Type}

namespace Process

def bind : Process S ε α → (α → Process S ε β) → Process S ε β
  | .done a, f => f a
  | .raise e, _ => .raise e
  | .call op next, f => .call op fun r => (next r).bind f

instance instMonad : Monad (Process S ε) where
  pure := .done
  bind := bind

/-- One operation. -/
def perform (op : S.Op) : Process S ε (S.Answer op) :=
  .call op fun r => match r with
    | .ok a => .done a
    | .error e => .raise e

/-- `try: p finally: cleanup` -/
def finally_ : Process S ε α → Process S ε Unit → Process S ε α
  | .done a, cleanup => cleanup.bind fun _ => .done a
  | .raise e, cleanup => cleanup.bind fun _ => .raise e
  | .call op next, cleanup => .call op fun r => (next r).finally_ cleanup

/-- `try: p except: handler` -/
def except_ : Process S ε α → (ε → Process S ε α) → Process S ε α
  | .done a, _ => .done a
  | .raise e, handler => handler e
  | .call op next, handler => .call op fun r => (next r).except_ handler

end Process

/-! ## Meeting a guarantee -/

section Meets

variable {W : Type} (invariant : W → Prop) (rely guarantee : W → W → Prop)
  (acts : (op : S.Op) → W → Except ε (S.Answer op) → W → Prop)

/-- From this world on the process keeps the guarantee, ends in `post` and raises in `raised`. -/
def Meets (post : α → W → Prop) (raised : W → Prop) : Process S ε α → W → Prop
  | .done a, w => ∀ w', rely w w' → invariant w' → post a w'
  | .raise _, w => ∀ w', rely w w' → invariant w' → raised w'
  | .call op next, w => ∀ w₁, rely w w₁ → invariant w₁ → ∀ r w₂, acts op w₁ r w₂ →
      invariant w₂ ∧ guarantee w₁ w₂ ∧ Meets post raised (next r) w₂

/-- The process keeps the guarantee from every world of the precondition. -/
def Triple (pre : W → Prop) (p : Process S ε α) (post : α → W → Prop) (raised : W → Prop) : Prop :=
  ∀ w, invariant w → pre w → Meets invariant rely guarantee acts post raised p w

/-- `post` of an answer, `raised` of an exception. -/
def After {γ : Type} (post : γ → W → Prop) (raised : W → Prop) : Except ε γ → W → Prop
  | .ok a => post a
  | .error _ => raised

/-- What the others do leaves it true. -/
def Stable (P : W → Prop) : Prop := ∀ w w', P w → rely w w' → invariant w' → P w'

variable {invariant rely guarantee acts} {pre pre' raised raised' : W → Prop}
  {post post' : α → W → Prop} {p : Process S ε α} {w w' : W}

theorem Meets.mono (h : Meets invariant rely guarantee acts post raised p w)
    (hpost : ∀ a w, post a w → post' a w) (hraised : ∀ w, raised w → raised' w) :
    Meets invariant rely guarantee acts post' raised' p w := by
  induction p generalizing w with
  | done a => exact fun w' hr hi => hpost a w' (h w' hr hi)
  | raise e => exact fun w' hr hi => hraised w' (h w' hr hi)
  | call op next ih =>
    intro w₁ hr hi r w₂ hact
    obtain ⟨hi₂, hg, hnext⟩ := h w₁ hr hi r w₂ hact
    exact ⟨hi₂, hg, ih r hnext⟩

/-- The others can go on in between. -/
theorem Meets.later (htrans : ∀ {a b c}, rely a b → rely b c → rely a c)
    (h : Meets invariant rely guarantee acts post raised p w) (hr : rely w w') :
    Meets invariant rely guarantee acts post raised p w' := by
  cases p with
  | done a => exact fun w₁ hr₁ hi => h w₁ (htrans hr hr₁) hi
  | raise e => exact fun w₁ hr₁ hi => h w₁ (htrans hr hr₁) hi
  | call op next => exact fun w₁ hr₁ hi => h w₁ (htrans hr hr₁) hi

theorem Triple.mono (h : Triple invariant rely guarantee acts pre p post raised)
    (hpre : ∀ w, pre' w → pre w) (hpost : ∀ a w, post a w → post' a w)
    (hraised : ∀ w, raised w → raised' w) :
    Triple invariant rely guarantee acts pre' p post' raised' :=
  fun w hi hw => (h w hi (hpre w hw)).mono hpost hraised

theorem triple_pure (a : α) (hpre : Stable invariant rely pre) (h : ∀ w, pre w → post a w) :
    Triple invariant rely guarantee acts pre (pure a) post raised :=
  fun w _ hw w' hr hi => h w' (hpre w w' hw hr hi)

theorem triple_raise (e : ε) (hpre : Stable invariant rely pre) (h : ∀ w, pre w → raised w) :
    Triple invariant rely guarantee acts pre (.raise e : Process S ε α) post raised :=
  fun w _ hw w' hr hi => h w' (hpre w w' hw hr hi)

theorem Meets.bind {f : α → Process S ε β} {post : α → W → Prop} {post' : β → W → Prop}
    (hrefl : ∀ w, rely w w) (h : Meets invariant rely guarantee acts post raised p w)
    (hi : invariant w) (hf : ∀ a w, invariant w → post a w →
      Meets invariant rely guarantee acts post' raised (f a) w) :
    Meets invariant rely guarantee acts post' raised (p.bind f) w := by
  induction p generalizing w with
  | done a => exact hf a w hi (h w (hrefl w) hi)
  | raise e => exact h
  | call op next ih =>
    intro w₁ hr hi₁ r w₂ hact
    obtain ⟨hi₂, hg, hnext⟩ := h w₁ hr hi₁ r w₂ hact
    exact ⟨hi₂, hg, ih r hnext hi₂⟩

theorem triple_bind {f : α → Process S ε β} {post : α → W → Prop} {post' : β → W → Prop}
    (hrefl : ∀ w, rely w w) (hp : Triple invariant rely guarantee acts pre p post raised)
    (hf : ∀ a, Triple invariant rely guarantee acts (post a) (f a) post' raised) :
    Triple invariant rely guarantee acts pre (p >>= f) post' raised :=
  fun w hi hw => (hp w hi hw).bind hrefl hi hf

/-- One operation, by what it does. -/
theorem triple_perform {op : S.Op} {post : S.Answer op → W → Prop}
    (hpre : Stable invariant rely pre) (hpost : ∀ a, Stable invariant rely (post a))
    (hraised : Stable invariant rely raised)
    (h : ∀ w r w', invariant w → pre w → acts op w r w' →
      invariant w' ∧ guarantee w w' ∧ After post raised r w') :
    Triple invariant rely guarantee acts pre (.perform op : Process S ε _) post raised := by
  intro w _ hw w₁ hr hi₁ r w₂ hact
  obtain ⟨hi₂, hg, hr₂⟩ := h w₁ r w₂ hi₁ (hpre w w₁ hw hr hi₁) hact
  refine ⟨hi₂, hg, ?_⟩
  cases r with
  | ok a => exact fun w' hr' hi' => hpost a w₂ w' hr₂ hr' hi'
  | error e => exact fun w' hr' hi' => hraised w₂ w' hr₂ hr' hi'

theorem Meets.finally {cleanup : Process S ε Unit} (hrefl : ∀ w, rely w w)
    (h : Meets invariant rely guarantee acts post raised p w) (hi : invariant w)
    (hdone : ∀ a, Triple invariant rely guarantee acts (post a) cleanup (fun _ => post' a) raised')
    (hraise : Triple invariant rely guarantee acts raised cleanup (fun _ => raised') raised')
    (hpost : ∀ a, Stable invariant rely (post' a)) (hraised : Stable invariant rely raised') :
    Meets invariant rely guarantee acts post' raised' (p.finally_ cleanup) w := by
  induction p generalizing w with
  | done a =>
    exact (hdone a w hi (h w (hrefl w) hi)).bind hrefl hi fun _ w₁ _ h₁ w' hr' hi' =>
      hpost a w₁ w' h₁ hr' hi'
  | raise e =>
    exact (hraise w hi (h w (hrefl w) hi)).bind hrefl hi fun _ w₁ _ h₁ w' hr' hi' =>
      hraised w₁ w' h₁ hr' hi'
  | call op next ih =>
    intro w₁ hr hi₁ r w₂ hact
    obtain ⟨hi₂, hg, hnext⟩ := h w₁ hr hi₁ r w₂ hact
    exact ⟨hi₂, hg, ih r hnext hi₂⟩

theorem triple_finally {cleanup : Process S ε Unit} (hrefl : ∀ w, rely w w)
    (hp : Triple invariant rely guarantee acts pre p post raised)
    (hdone : ∀ a, Triple invariant rely guarantee acts (post a) cleanup (fun _ => post' a) raised')
    (hraise : Triple invariant rely guarantee acts raised cleanup (fun _ => raised') raised')
    (hpost : ∀ a, Stable invariant rely (post' a)) (hraised : Stable invariant rely raised') :
    Triple invariant rely guarantee acts pre (p.finally_ cleanup) post' raised' :=
  fun w hi hw => (hp w hi hw).finally hrefl hi hdone hraise hpost hraised

theorem Meets.except {handler : ε → Process S ε α} (hrefl : ∀ w, rely w w)
    (h : Meets invariant rely guarantee acts post raised p w) (hi : invariant w)
    (hhandler : ∀ e, Triple invariant rely guarantee acts raised (handler e) post raised') :
    Meets invariant rely guarantee acts post raised' (p.except_ handler) w := by
  induction p generalizing w with
  | done a => exact h
  | raise e => exact hhandler e w hi (h w (hrefl w) hi)
  | call op next ih =>
    intro w₁ hr hi₁ r w₂ hact
    obtain ⟨hi₂, hg, hnext⟩ := h w₁ hr hi₁ r w₂ hact
    exact ⟨hi₂, hg, ih r hnext hi₂⟩

theorem triple_except {handler : ε → Process S ε α} (hrefl : ∀ w, rely w w)
    (hp : Triple invariant rely guarantee acts pre p post raised)
    (hhandler : ∀ e, Triple invariant rely guarantee acts raised (handler e) post raised') :
    Triple invariant rely guarantee acts pre (p.except_ handler) post raised' :=
  fun w hi hw => (hp w hi hw).except hrefl hi hhandler

end Meets

/-! ## Machines and their runs -/

section Machine

/-- What operations do to a world, by a choice that stands for all that is left open. -/
structure Machine (S : Signature) (ε W : Type) where
  Choice : Type
  /-- One operation of an execution. -/
  act : ℕ → (op : S.Op) → Choice → W → Except ε (S.Answer op) × W
  /-- What the end of an execution leaves, be it its own or a kill. -/
  leave : ℕ → W → W
  /-- What is done to the world from outside. -/
  Outside : Type
  outside : Outside → W → W

inductive Status (S : Signature) (ε : Type) where
  | idle
  | running (p : Process S ε Unit)
  | ended

structure State (S : Signature) (ε W : Type) where
  world : W
  status : ℕ → Status S ε

inductive Event (Args Choice Outside : Type) where
  | start (e : ℕ) (args : Args)
  | act (e : ℕ) (choice : Choice)
  | kill (e : ℕ)
  | outside (o : Outside)

variable {W Args : Type} (M : Machine S ε W) (program : Args → Process S ε Unit)

def State.set (s : State S ε W) (e : ℕ) (world : W) (status : Status S ε) : State S ε W where
  world := world
  status := Function.update s.status e status

/-- An execution starts once. -/
def State.start (s : State S ε W) (e : ℕ) (args : Args) : State S ε W :=
  match s.status e with
  | .idle => s.set e s.world (.running (program args))
  | _ => s

def State.stop (s : State S ε W) (e : ℕ) : State S ε W :=
  match s.status e with
  | .running _ => s.set e (M.leave e s.world) .ended
  | _ => s

/-- The next operation of an execution, or its end. -/
def State.act (s : State S ε W) (e : ℕ) (choice : M.Choice) : State S ε W :=
  match s.status e with
  | .running (.call op next) =>
    s.set e (M.act e op choice s.world).2 (.running (next (M.act e op choice s.world).1))
  | _ => s.stop M e

/-- One event. An event that is not possible changes nothing. -/
def step (s : State S ε W) : Event Args M.Choice M.Outside → State S ε W
  | .start e args => s.start program e args
  | .act e choice => s.act M e choice
  | .kill e => s.stop M e
  | .outside o => { s with world := M.outside o s.world }

def run (s : State S ε W) (events : List (Event Args M.Choice M.Outside)) : State S ε W :=
  events.foldl (step M program) s

/-- The executions that have not started. -/
def initial (w : W) : State S ε W where
  world := w
  status := fun _ => .idle

def acts (e : ℕ) (op : S.Op) (w : W) (r : Except ε (S.Answer op)) (w' : W) : Prop :=
  ∃ choice, M.act e op choice w = (r, w')

/-- The guarantees of a machine's executions, each the rely of the others. -/
structure Agreed (invariant : W → Prop) (rely guarantee : ℕ → W → W → Prop) : Prop where
  refl : ∀ e w, rely e w w
  trans : ∀ e {a b c}, rely e a b → rely e b c → rely e a c
  other : ∀ {e e' w w'}, e' ≠ e → invariant w → guarantee e w w' → rely e' w w'
  leave : ∀ e w, invariant w → invariant (M.leave e w) ∧ guarantee e w (M.leave e w)
  outside : ∀ o w, invariant w → invariant (M.outside o w) ∧ ∀ e, rely e w (M.outside o w)
  program : ∀ e args, Triple invariant (rely e) (guarantee e) (acts M e) (fun _ => True)
    (program args) (fun _ _ => True) (fun _ => True)

variable {M program} {invariant : W → Prop} {rely guarantee : ℕ → W → W → Prop}

/-- Every execution meets its guarantee from here on. -/
structure Safe (M : Machine S ε W) (invariant : W → Prop) (rely guarantee : ℕ → W → W → Prop)
    (s : State S ε W) : Prop where
  world : invariant s.world
  running : ∀ e p, s.status e = .running p → Meets invariant (rely e) (guarantee e) (acts M e)
    (fun _ _ => True) (fun _ => True) p s.world

/-- A change of the world by one execution, and no more than that. -/
def Changes (s : State S ε W) (guarantee : ℕ → W → W → Prop) (e : ℕ) (s' : State S ε W) : Prop :=
  s'.world = s.world ∨ (∃ p, s.status e = .running p) ∧ guarantee e s.world s'.world

theorem Safe.set (h : Agreed M program invariant rely guarantee) {s : State S ε W}
    (hs : Safe M invariant rely guarantee s) {e : ℕ} {w : W} {status : Status S ε}
    (hw : invariant w) (hrely : ∀ e' ≠ e, rely e' s.world w)
    (hstatus : ∀ p, status = .running p → Meets invariant (rely e) (guarantee e) (acts M e)
      (fun _ _ => True) (fun _ => True) p w) :
    Safe M invariant rely guarantee (s.set e w status) := by
  refine ⟨hw, fun e' p hp => ?_⟩
  by_cases he : e' = e
  · subst he
    exact hstatus p (by simpa [State.set] using hp)
  · have hp' : s.status e' = .running p := by simpa [State.set, he] using hp
    exact (hs.running e' p hp').later (h.trans e') (hrely e' he)

theorem Safe.start (h : Agreed M program invariant rely guarantee) {s : State S ε W}
    (hs : Safe M invariant rely guarantee s) (e : ℕ) (args : Args) :
    Safe M invariant rely guarantee (s.start program e args) ∧
      (s.start program e args).world = s.world := by
  unfold State.start
  split
  · refine ⟨hs.set h hs.world (fun e' _ => h.refl e' _) fun p hp => ?_, rfl⟩
    obtain rfl := Status.running.inj hp
    exact h.program e args s.world hs.world trivial
  · exact ⟨hs, rfl⟩

theorem Safe.stop (h : Agreed M program invariant rely guarantee) {s : State S ε W}
    (hs : Safe M invariant rely guarantee s) (e : ℕ) :
    Safe M invariant rely guarantee (s.stop M e) ∧ Changes s guarantee e (s.stop M e) := by
  unfold State.stop
  split
  · rename_i p hp
    obtain ⟨hi, hg⟩ := h.leave e s.world hs.world
    exact ⟨hs.set h hi (fun e' he => h.other he hs.world hg) (by simp), .inr ⟨⟨p, hp⟩, hg⟩⟩
  · exact ⟨hs, .inl rfl⟩

theorem Safe.act (h : Agreed M program invariant rely guarantee) {s : State S ε W}
    (hs : Safe M invariant rely guarantee s) (e : ℕ) (choice : M.Choice) :
    Safe M invariant rely guarantee (s.act M e choice) ∧
      Changes s guarantee e (s.act M e choice) := by
  unfold State.act
  split
  · rename_i op next hstatus
    obtain ⟨hi, hg, hnext⟩ := hs.running e _ hstatus s.world (h.refl e _) hs.world
      (M.act e op choice s.world).1 (M.act e op choice s.world).2 ⟨choice, rfl⟩
    refine ⟨hs.set h hi (fun e' he => h.other he hs.world hg) fun p hp => ?_,
      .inr ⟨⟨_, hstatus⟩, hg⟩⟩
    obtain rfl := Status.running.inj hp
    exact hnext
  · exact hs.stop h e

/-- One event keeps every guarantee, and changes the world within that of its execution. -/
theorem step_safe (h : Agreed M program invariant rely guarantee) {s : State S ε W}
    (hs : Safe M invariant rely guarantee s) : ∀ event : Event Args M.Choice M.Outside,
    Safe M invariant rely guarantee (step M program s event) ∧
      match event with
      | .start _ _ => (step M program s event).world = s.world
      | .act e _ | .kill e => Changes s guarantee e (step M program s event)
      | .outside o => (step M program s event).world = M.outside o s.world
  | .start e args => hs.start h e args
  | .act e choice => hs.act h e choice
  | .kill e => hs.stop h e
  | .outside o => by
    obtain ⟨hi, hr⟩ := h.outside o s.world hs.world
    exact ⟨⟨hi, fun e p hp => (hs.running e p hp).later (h.trans e) (hr e)⟩, rfl⟩

theorem run_safe (h : Agreed M program invariant rely guarantee) {s : State S ε W}
    (hs : Safe M invariant rely guarantee s) (events : List (Event Args M.Choice M.Outside)) :
    Safe M invariant rely guarantee (run M program s events) := by
  induction events generalizing s with
  | nil => exact hs
  | cons event events ih => exact ih (step_safe h hs event).1

theorem initial_safe {w : W} (hw : invariant w) :
    Safe M invariant rely guarantee (initial w) :=
  ⟨hw, fun e p hp => by simp [initial] at hp⟩

end Machine

end Processes
