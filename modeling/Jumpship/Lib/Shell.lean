import Mathlib.Data.List.Basic
import Mathlib.Data.List.Induction

/-!
# The words of a shell text

How a POSIX shell cuts a text into words and separators: blanks end a word, operators and newlines
end a command, quotes and backslashes keep what they cover. Texts are code points. Expansions are
not performed: a word is the one before them.
-/

namespace Shell

def isBlank (c : ℕ) : Bool := c = 0x20 || c = 0x09

/-- A newline, or a character that begins an operator. -/
def isOperator (c : ℕ) : Bool := [0x0A, 0x3B, 0x26, 0x7C, 0x28, 0x29, 0x3C, 0x3E].contains c

/-- Characters that stand for themselves anywhere in a word. -/
def isPlain (c : ℕ) : Bool :=
  !isBlank c && !isOperator c && !([0x5C, 0x27, 0x22, 0x23].contains c)

inductive Item where
  | word (value : List ℕ)
  | separator
deriving DecidableEq

/-- Where in the text the shell is, with the word it is in the middle of. -/
inductive Mode where
  | between
  | word (value : List ℕ)
  | single (value : List ℕ)
  | double (value : List ℕ)
  | escaped (value : Option (List ℕ))
  | doubleEscaped (value : List ℕ)
  | comment
deriving DecidableEq

namespace Mode

/-- A character outside of quotes, in the word so far. -/
def unquoted (value : List ℕ) (c : ℕ) : Mode :=
  if c = 0x5C then .escaped (some value)
  else if c = 0x27 then .single value
  else if c = 0x22 then .double value
  else .word (value ++ [c])

def step : Mode → ℕ → List Item × Mode
  | .between, c =>
    if isBlank c then ([], .between)
    else if isOperator c then ([.separator], .between)
    else if c = 0x23 then ([], .comment)
    else if c = 0x5C then ([], .escaped none)
    else ([], unquoted [] c)
  | .word value, c =>
    if isBlank c then ([.word value], .between)
    else if isOperator c then ([.word value, .separator], .between)
    else ([], unquoted value c)
  | .single value, c => if c = 0x27 then ([], .word value) else ([], .single (value ++ [c]))
  | .double value, c =>
    if c = 0x22 then ([], .word value)
    else if c = 0x5C then ([], .doubleEscaped value)
    else ([], .double (value ++ [c]))
  | .escaped value, c =>
    -- a backslash and a newline are a line's continuation
    if c = 0x0A then ([], value.elim .between .word)
    else ([], .word (value.getD [] ++ [c]))
  | .doubleEscaped value, c =>
    if c = 0x0A then ([], .double value)
    else if [0x24, 0x60, 0x22, 0x5C].contains c then ([], .double (value ++ [c]))
    else ([], .double (value ++ [0x5C, c]))
  | .comment, c => if c = 0x0A then ([.separator], .between) else ([], .comment)

/-- At the end of the text: a backslash stands for itself, quotes that are open leave no word. -/
def finish : Mode → List Item
  | .word value => [.word value]
  | .escaped value => [.word (value.getD [] ++ [0x5C])]
  | _ => []

end Mode

def items : Mode → List ℕ → List Item
  | m, [] => m.finish
  | m, c :: s => (m.step c).1 ++ items (m.step c).2 s

/-- Where the shell is after a text. -/
def after : Mode → List ℕ → Mode
  | m, [] => m
  | m, c :: s => after (m.step c).2 s

/-- What the shell has read of a text when it is at its end. -/
def read : Mode → List ℕ → List Item
  | _, [] => []
  | m, c :: s => (m.step c).1 ++ read (m.step c).2 s

/-- The words stand in a row in a command of the text. -/
def HasWords (text : List ℕ) (words : List (List ℕ)) : Prop :=
  words.map .word <:+: items .between text

/-- The text is read as the words, the last of which may go on behind it. -/
def Spells (text : List ℕ) (front : List (List ℕ)) (last : List ℕ) : Prop :=
  read .between text = front.map .word ∧ after .between text = .word last

/-- What stands at the start of the text ends a word. -/
def EndsWord (s : List ℕ) : Prop := ∀ c ∈ s.head?, isBlank c || isOperator c

variable {m : Mode} {s t w : List ℕ} {c : ℕ}

theorem after_append : after m (s ++ t) = after (after m s) t := by
  induction s generalizing m with
  | nil => rfl
  | cons c s ih => exact ih

theorem read_append : read m (s ++ t) = read m s ++ read (after m s) t := by
  induction s generalizing m with
  | nil => rfl
  | cons c s ih => rw [List.cons_append, read, ih, ← List.append_assoc]; rfl

/-- What stands behind a text is read from where the shell is after it. -/
theorem items_append : items m (s ++ t) = read m s ++ items (after m s) t := by
  induction s generalizing m with
  | nil => rfl
  | cons c s ih => rw [List.cons_append, items, ih, ← List.append_assoc]; rfl

/-! ## Reading a character -/

/-- A word is read where it ends, and the shell is between words then. -/
theorem step_cases (m : Mode) (c : ℕ) :
    (m.step c).1 = [] ∨ m.step c = ([.separator], .between) ∨
      ∃ value, m = .word value ∧ (isBlank c || isOperator c) = true ∧
        (m.step c = ([.word value], .between) ∨
          m.step c = ([.word value, .separator], .between)) := by
  cases m with
  | between => rw [Mode.step]; split_ifs <;> simp
  | word value =>
    rw [Mode.step]
    split_ifs with hblank hoperator
    · exact .inr (.inr ⟨value, rfl, by simp [hblank], .inl rfl⟩)
    · exact .inr (.inr ⟨value, rfl, by simp [hoperator], .inr rfl⟩)
    · exact .inl rfl
  | single value => rw [Mode.step]; split_ifs <;> simp
  | double value => rw [Mode.step]; split_ifs <;> simp
  | escaped value => rw [Mode.step]; split_ifs <;> simp
  | doubleEscaped value => rw [Mode.step]; split_ifs <;> simp
  | comment => rw [Mode.step]; split_ifs <;> simp

theorem step_word (hc : isPlain c = true) (value : List ℕ) :
    (Mode.word value).step c = ([], .word (value ++ [c])) := by
  simp only [isPlain, Bool.and_eq_true, Bool.not_eq_true', List.contains_eq_mem, List.mem_cons,
    List.not_mem_nil, or_false, decide_eq_false_iff_not, not_or] at hc
  obtain ⟨⟨hblank, hoperator⟩, hslash, hsingle, hdouble, -⟩ := hc
  simp [Mode.step, Mode.unquoted, hblank, hoperator, hslash, hsingle, hdouble]

theorem step_between (hc : isPlain c = true) : Mode.between.step c = ([], .word [c]) := by
  simp only [isPlain, Bool.and_eq_true, Bool.not_eq_true', List.contains_eq_mem, List.mem_cons,
    List.not_mem_nil, or_false, decide_eq_false_iff_not, not_or] at hc
  obtain ⟨⟨hblank, hoperator⟩, hslash, hsingle, hdouble, hhash⟩ := hc
  simp [Mode.step, Mode.unquoted, hblank, hoperator, hslash, hsingle, hdouble, hhash]

/-! ## Plain words -/

theorem spells_word (hw : ∀ c ∈ w, isPlain c = true) :
    ∀ value : List ℕ, read (.word value) w = [] ∧ after (.word value) w = .word (value ++ w) := by
  induction w with
  | nil => intro value; rw [List.append_nil]; exact ⟨rfl, rfl⟩
  | cons c w ih =>
    intro value
    obtain ⟨hc, hw⟩ := List.forall_mem_cons.1 hw
    obtain ⟨hread, hafter⟩ := ih hw (value ++ [c])
    rw [read, after, step_word hc, hread, hafter, List.append_assoc]
    exact ⟨rfl, rfl⟩

/-- A plain word is read as it stands. -/
theorem spells_plain (hne : w ≠ []) (hw : ∀ c ∈ w, isPlain c = true) : Spells w [] w := by
  obtain ⟨c, w, rfl⟩ := List.exists_cons_of_ne_nil hne
  obtain ⟨hc, hw⟩ := List.forall_mem_cons.1 hw
  obtain ⟨hread, hafter⟩ := spells_word hw [c]
  rw [Spells, read, after, step_between hc, hread, hafter]
  exact ⟨rfl, rfl⟩

/-- Two plain words with a blank between them are read as one behind the other. -/
theorem spells_pair {first second : List ℕ} (hfirst : first ≠ [] ∧ ∀ c ∈ first, isPlain c = true)
    (hsecond : second ≠ [] ∧ ∀ c ∈ second, isPlain c = true) :
    Spells (first ++ 0x20 :: second) [first] second := by
  obtain ⟨hread, hafter⟩ := spells_plain hfirst.1 hfirst.2
  obtain ⟨hread', hafter'⟩ := spells_plain hsecond.1 hsecond.2
  rw [Spells, read_append, after_append, hread, hafter]
  exact ⟨congrArg (Item.word first :: ·) hread', hafter'⟩

/-! ## The words of a text -/

theorem exists_items_word (hs : EndsWord s) (value : List ℕ) :
    ∃ rest, items (.word value) s = .word value :: rest := by
  cases s with
  | nil => exact ⟨[], rfl⟩
  | cons c s =>
    have hc : (isBlank c || isOperator c) = true := hs c rfl
    rw [items, Mode.step]
    by_cases hblank : isBlank c = true
    · exact ⟨_, by rw [if_pos hblank]; rfl⟩
    · rw [if_neg hblank, if_pos (by simpa [hblank] using hc)]
      exact ⟨_, rfl⟩

/-- Where a word is read that ends in no backslash, the text is cut at its end. -/
theorem exists_of_items {front back : List Item} {value : List ℕ}
    (hvalue : value.getLast? ≠ some 0x5C) (h : items m s = front ++ .word value :: back) :
    ∃ a c, s = a ++ c ∧ read m a = front ∧ after m a = .word value ∧ EndsWord c := by
  induction s generalizing m front with
  | nil =>
    have hends : EndsWord [] := fun c hc => by cases hc
    cases m with
    | word text =>
      cases front with
      | nil =>
        obtain ⟨rfl, -⟩ : text = value ∧ back = [] := by simpa [items, Mode.finish] using h
        exact ⟨[], [], rfl, rfl, rfl, hends⟩
      | cons x front => simp [items, Mode.finish] at h
    | escaped text =>
      cases front with
      | nil =>
        obtain ⟨rfl, -⟩ : text.getD [] ++ [0x5C] = value ∧ back = [] := by
          simpa [items, Mode.finish] using h
        simp at hvalue
      | cons x front => simp [items, Mode.finish] at h
    | _ => simp [items, Mode.finish] at h
  | cons c s ih =>
    have hkeep : ∀ front' : List Item, front = (m.step c).1 ++ front' →
        items (m.step c).2 s = front' ++ .word value :: back →
        ∃ a c', c :: s = a ++ c' ∧ read m a = front ∧ after m a = .word value ∧ EndsWord c' := by
      rintro front' rfl hs
      obtain ⟨a, c', rfl, rfl, hafter, hends⟩ := ih hs
      exact ⟨c :: a, c', rfl, rfl, hafter, hends⟩
    rw [items] at h
    rcases step_cases m c with hnone | hsep | ⟨text, rfl, hc, hword⟩
    · rw [hnone, List.nil_append] at h
      exact hkeep front (by rw [hnone]; rfl) h
    · simp only [hsep, List.cons_append, List.nil_append] at h
      cases front with
      | nil => cases (List.cons.inj h).1
      | cons x front =>
        obtain ⟨rfl, hback⟩ := List.cons.inj h
        exact hkeep front (by rw [hsep]; rfl) (by rw [hsep]; exact hback)
    · cases front with
      | nil =>
        -- the word ends here
        have htext : text = value := by
          rcases hword with hword | hword <;> rw [hword] at h <;>
            exact Item.word.inj (List.cons.inj h).1
        subst htext
        exact ⟨[], c :: s, rfl, rfl, rfl, fun d hd => by cases hd; exact hc⟩
      | cons x front =>
        rcases hword with hword | hword
        · simp only [hword, List.cons_append, List.nil_append] at h
          obtain ⟨rfl, hback⟩ := List.cons.inj h
          exact hkeep front (by rw [hword]; rfl) (by rw [hword]; exact hback)
        · simp only [hword, List.cons_append, List.nil_append] at h
          obtain ⟨rfl, hback⟩ := List.cons.inj h
          cases front with
          | nil => cases (List.cons.inj hback).1
          | cons y front =>
            obtain ⟨rfl, hrest⟩ := List.cons.inj hback
            exact hkeep front (by rw [hword]; rfl) (by rw [hword]; exact hrest)

/-- Where words in a row have been read last, the text is cut between words before them. -/
theorem exists_of_read {front : List Item} {words : List (List ℕ)}
    (h : read .between s = front ++ words.map .word) :
    ∃ a b, s = a ++ b ∧ after .between a = .between ∧ read .between b = words.map .word := by
  induction s using List.reverseRecOn generalizing front words with
  | nil =>
    obtain ⟨-, h⟩ := List.append_eq_nil_iff.1 h.symm
    exact ⟨[], [], rfl, rfl, h.symm⟩
  | append_singleton s c ih =>
    have hlast : read (after .between s) [c] = ((after .between s).step c).1 := List.append_nil _
    rw [read_append, hlast] at h
    have hkeep : ∀ ws : List (List ℕ), words.map Item.word = ws.map .word ++
          ((after .between s).step c).1 → read .between s = front ++ ws.map .word →
        ∃ a b, s ++ [c] = a ++ b ∧ after .between a = .between ∧
          read .between b = words.map .word := by
      intro ws hws hs
      obtain ⟨a, b, rfl, ha, hb⟩ := ih hs
      refine ⟨a, b ++ [c], List.append_assoc a b [c], ha, ?_⟩
      rw [hws, read_append, hb]
      rw [after_append, ha]
      exact congrArg (ws.map Item.word ++ ·) (List.append_nil _)
    have hstop : ((after .between s).step c).2 = .between → words = [] →
        ∃ a b, s ++ [c] = a ++ b ∧ after .between a = .between ∧
          read .between b = words.map .word := by
      rintro hmode rfl
      exact ⟨s ++ [c], [], (List.append_nil _).symm, after_append.trans hmode, rfl⟩
    rcases step_cases (after .between s) c with hnone | hsep | ⟨text, -, -, hword | hword⟩
    · rw [hnone, List.append_nil] at h
      exact hkeep words (by rw [hnone, List.append_nil]) h
    · refine hstop (by rw [hsep]) ?_
      rw [hsep] at h
      rcases List.eq_nil_or_concat words with rfl | ⟨ws, w, rfl⟩
      · rfl
      · have := congrArg List.getLast? h
        simp at this
    · rcases List.eq_nil_or_concat words with rfl | ⟨ws, w, rfl⟩
      · exact hstop (by rw [hword]) rfl
      · rw [hword, List.map_concat, List.concat_eq_append, ← List.append_assoc] at h
        obtain ⟨hs, hw⟩ := List.append_inj' h rfl
        obtain rfl := Item.word.inj (List.cons.inj hw).1
        exact hkeep ws (by rw [hword, List.map_concat, List.concat_eq_append]) hs
    · refine hstop (by rw [hword]) ?_
      rw [hword] at h
      rcases List.eq_nil_or_concat words with rfl | ⟨ws, w, rfl⟩
      · rfl
      · have := congrArg List.getLast? h
        simp at this

/-- Words stand in a row where a part of the text spells them, from between words on and up to
where the last one ends. -/
theorem hasWords_iff {front : List (List ℕ)} {last : List ℕ} (hlast : last.getLast? ≠ some 0x5C) :
    HasWords s (front ++ [last]) ↔
      ∃ a b c, s = a ++ (b ++ c) ∧ after .between a = .between ∧ Spells b front last ∧
        EndsWord c := by
  constructor
  · rintro ⟨before, back, h⟩
    have h : items .between s = (before ++ front.map .word) ++ .word last :: back := by
      rw [← h]
      simp
    obtain ⟨t, c, rfl, hread, hafter, hc⟩ := exists_of_items hlast h
    obtain ⟨a, b, rfl, ha, hb⟩ := exists_of_read hread
    rw [after_append, ha] at hafter
    exact ⟨a, b, c, List.append_assoc a b c, ha, ⟨hb, hafter⟩, hc⟩
  · rintro ⟨a, b, c, rfl, ha, ⟨hread, hafter⟩, hc⟩
    obtain ⟨rest, hrest⟩ := exists_items_word hc last
    refine ⟨read .between a, rest, ?_⟩
    rw [items_append, ha, items_append, hread, hafter, hrest, List.map_append, List.append_assoc,
      List.append_assoc]
    rfl

end Shell
