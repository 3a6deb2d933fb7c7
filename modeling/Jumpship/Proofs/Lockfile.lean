import Jumpship.DependencyLocks.Lockfile

/-!
# When the readers of pnpm-lock.yaml agree

One reader answers the first integrity that stands under a key in the lines up to the end of the
packages section; the other reads the entries of that section and keeps the last integrity of each, and
the last supported entry of each key. They agree on a package when the first integrity under its key
and the last one of its entry are both the one on the entry's resolution line.
-/

namespace DependencyLocks

open Py

/-! ## Lines -/

section Lines

/-- The lines of a packages section, after the line that opens it. -/
def sectionLines : List Codes → List Codes
  | [] => []
  | line :: lines =>
    if line = packagesLine then sectionLines lines
    else if endsSection line then []
    else line :: sectionLines lines

/-- The lines of the packages section. -/
def packagesLines : List Codes → List Codes
  | [] => []
  | line :: lines => if line = packagesLine then sectionLines lines else packagesLines lines

/-- The lines up to the end of the packages section. -/
def leadingLines : List Codes → List Codes
  | [] => []
  | line :: lines => if line = packagesLine then sectionLines lines else line :: leadingLines lines

/-- The lines that stand under a key. -/
def linesUnder (key : Codes) (under : Bool) : List Codes → List Codes
  | [] => []
  | line :: lines =>
    match keyMatch line with
    | some k => linesUnder key (k = key) lines
    | none => if under then line :: linesUnder key under lines else linesUnder key under lines

/-- A key and the lines under it up to the next key. -/
structure Entry where
  key : Codes
  lines : List Codes
deriving DecidableEq

def entriesFrom (e : Entry) : List Codes → List Entry
  | [] => [e]
  | line :: lines =>
    match keyMatch line with
    | some key => e :: entriesFrom ⟨key, []⟩ lines
    | none => entriesFrom ⟨e.key, e.lines ++ [line]⟩ lines

def entries : List Codes → List Entry
  | [] => []
  | line :: lines =>
    match keyMatch line with
    | some key => entriesFrom ⟨key, []⟩ lines
    | none => entries lines

variable (word : ℕ → Bool)

def Entry.constraints (e : Entry) : Constraints := e.lines.foldl Constraints.read {}

/-- The last integrity that the lines of an entry mention. -/
def Entry.lastIntegrity (e : Entry) : Option Codes := (e.lines.filterMap (integrityMatch word)).getLast?

/-- The integrity on the resolution line of an entry. -/
def Entry.resolution (e : Entry) : Option Codes := do
  let line ← e.lines.find? fun line => (codes "    resolution:").isPrefixOf line
  integrityMatch word line

def Entry.record (e : Entry) : Record := ⟨e.key, e.constraints, e.lastIntegrity word⟩

/-- The entry of a package: the last supported one with its key. -/
def packageEntry (lines : List Codes) (key : Codes) : Option Entry :=
  (entries (packagesLines lines)).reverse.find? fun e => e.constraints.supported && e.key = key

/-- The first integrity that stands under a key, up to the end of the packages section. -/
def firstIntegrity (lines : List Codes) (key : Codes) : Option Codes :=
  (linesUnder key false (leadingLines lines)).findSome? (integrityMatch word)

end Lines

/-! ## The first reader -/

section First

variable (word : ℕ → Bool)

theorem scanIntegrity_section (expected : Codes) (current : Option Codes) (lines : List Codes) :
    scanIntegrity word expected true current lines
      = (linesUnder expected (current = some expected) (sectionLines lines)).findSome?
          (integrityMatch word) := by
  induction lines generalizing current with
  | nil => rfl
  | cons line lines ih =>
    rw [scanIntegrity, sectionLines]
    by_cases hmark : line = packagesLine
    · rw [if_pos hmark, if_pos hmark, ih]
    by_cases hend : endsSection line = true
    · simp [hmark, hend, linesUnder]
    rw [if_neg hmark, if_neg hmark, if_neg (by simpa using hend), if_neg hend, linesUnder]
    cases hkey : keyMatch line with
    | some key => simp [ih]
    | none =>
      by_cases hcurrent : current = some expected
      · simp only [hcurrent, if_true, decide_true, List.findSome?_cons, ih]
        cases integrityMatch word line <;> rfl
      · simp [hcurrent, ih]

theorem scanIntegrity_eq (expected : Codes) (current : Option Codes) (lines : List Codes) :
    scanIntegrity word expected false current lines
      = (linesUnder expected (current = some expected) (leadingLines lines)).findSome?
          (integrityMatch word) := by
  induction lines generalizing current with
  | nil => rfl
  | cons line lines ih =>
    rw [scanIntegrity, leadingLines]
    by_cases hmark : line = packagesLine
    · rw [if_pos hmark, if_pos hmark, scanIntegrity_section]
    rw [if_neg hmark, if_neg hmark, if_neg (by simp), linesUnder]
    cases hkey : keyMatch line with
    | some key => simp [ih]
    | none =>
      by_cases hcurrent : current = some expected
      · simp only [hcurrent, if_true, decide_true, List.findSome?_cons, ih]
        cases integrityMatch word line <;> rfl
      · simp [hcurrent, ih]

/-- The first reader answers the first integrity under the key. -/
theorem pnpmLockIntegrity_eq (text name version : Codes) :
    pnpmLockIntegrity word text name version
      = firstIntegrity word (splitlines text) (name ++ 64 :: version) :=
  scanIntegrity_eq word _ none _

end First

/-! ## The second reader -/

section Second

variable (word : ℕ → Bool)

theorem constraints_append (key line : Codes) (lines : List Codes) :
    (Entry.mk key (lines ++ [line])).constraints = (Entry.mk key lines).constraints.read line := by
  simp [Entry.constraints]

theorem lastIntegrity_append (key line : Codes) (lines : List Codes) :
    (Entry.mk key (lines ++ [line])).lastIntegrity word
      = (integrityMatch word line).or ((Entry.mk key lines).lastIntegrity word) := by
  unfold Entry.lastIntegrity
  cases h : integrityMatch word line <;> simp [h]

theorem finish_some {s : Scan} {e : Entry} (h : s.key = some e.key)
    (hc : s.constraints = e.constraints) (hi : s.integrity = e.lastIntegrity word) :
    s.finish.records = s.records ++ [e.record word] := by
  simp [Scan.finish, h, hc, hi, Entry.record]

theorem run_entry (lines : List Codes) {s : Scan} {e : Entry} (hs : s.inPackages = true)
    (h : s.key = some e.key) (hc : s.constraints = e.constraints)
    (hi : s.integrity = e.lastIntegrity word) :
    s.run word lines = s.records ++ (entriesFrom e (sectionLines lines)).map (Entry.record word) := by
  induction lines generalizing s e with
  | nil => exact finish_some word h hc hi
  | cons line lines ih =>
    rw [Scan.run, sectionLines]
    by_cases hmark : line = packagesLine
    · rw [if_pos hmark, if_pos hmark]
      exact ih rfl h hc hi
    by_cases hend : endsSection line = true
    · rw [if_neg hmark, if_neg hmark, if_pos (by simp [hs, hend]), if_pos hend, finish_some word h hc hi]
      rfl
    rw [if_neg hmark, if_neg hmark, if_neg (by simp [hend]), if_neg (by simp [hs]), if_neg hend,
      entriesFrom]
    cases hkey : keyMatch line with
    | some key =>
      simp only []
      rw [ih (e := ⟨key, []⟩) (by simpa [Scan.finish] using hs) rfl rfl rfl, List.map_cons]
      simp only [finish_some word h hc hi, List.append_assoc, List.singleton_append]
    | none =>
      refine ih (e := ⟨e.key, e.lines ++ [line]⟩) hs h ?_ ?_
      · rw [constraints_append, ← hc]
      · rw [lastIntegrity_append, ← hi]

theorem run_section (lines : List Codes) {s : Scan} (hs : s.inPackages = true) (h : s.key = none) :
    s.run word lines = s.records ++ (entries (sectionLines lines)).map (Entry.record word) := by
  induction lines generalizing s with
  | nil => simp [Scan.run, Scan.finish, h, sectionLines, entries]
  | cons line lines ih =>
    rw [Scan.run, sectionLines]
    by_cases hmark : line = packagesLine
    · rw [if_pos hmark, if_pos hmark]
      exact ih rfl h
    by_cases hend : endsSection line = true
    · simp [hmark, hend, hs, Scan.finish, h, entries]
    rw [if_neg hmark, if_neg hmark, if_neg (by simp [hend]), if_neg (by simp [hs]), if_neg hend, entries]
    cases hkey : keyMatch line with
    | some key =>
      simp only []
      rw [run_entry word lines (e := ⟨key, []⟩) (by simpa [Scan.finish] using hs) rfl rfl rfl]
      simp [Scan.finish, h]
    | none => exact ih hs h

theorem run_eq (lines : List Codes) {s : Scan} (hs : s.inPackages = false) (h : s.key = none) :
    s.run word lines = s.records ++ (entries (packagesLines lines)).map (Entry.record word) := by
  induction lines generalizing s with
  | nil => simp [Scan.run, Scan.finish, h, packagesLines, entries]
  | cons line lines ih =>
    rw [Scan.run, packagesLines]
    by_cases hmark : line = packagesLine
    · rw [if_pos hmark, if_pos hmark]
      exact run_section word lines rfl h
    · rw [if_neg hmark, if_neg hmark, if_neg (by simp [hs]), if_pos (by simp [hs])]
      exact ih hs h

end Second

/-! ## The records of the packages -/

section Required

theorem lookup_cons_eq {κ α : Type} [BEq κ] [LawfulBEq κ] [DecidableEq κ] (d : List (κ × α)) (k l : κ) (v : α) :
    ((k, v) :: d).lookup l = if l = k then some v else d.lookup l := by
  rw [List.lookup_cons]
  split_ifs with h
  · rw [beq_iff_eq.2 h]
  · rw [beq_eq_false_iff_ne.2 h]

theorem lookup_assign {κ α : Type} [BEq κ] [LawfulBEq κ] [DecidableEq κ] (d : List (κ × α))
    (k l : κ) (v : α) :
    (assign d k v).lookup l = if l = k then some v else d.lookup l := by
  induction d with
  | nil => exact lookup_cons_eq [] k l v
  | cons entry d ih =>
    obtain ⟨key, value⟩ := entry
    rw [assign]
    by_cases hk : key = k
    · rw [if_pos hk, lookup_cons_eq, lookup_cons_eq, hk]
      split_ifs <;> rfl
    · rw [if_neg hk, lookup_cons_eq, lookup_cons_eq, ih]
      by_cases h : l = key
      · rw [if_pos h, if_neg (h ▸ hk), if_pos h]
      · rw [if_neg h, if_neg h]

theorem rfind_spec {c i : ℕ} {s : Codes} (h : rfind c s = some i) :
    s = s.take i ++ c :: s.drop (i + 1) := by
  induction s generalizing i with
  | nil => cases h
  | cons d s ih =>
    rw [rfind] at h
    cases hs : rfind c s with
    | some j =>
      simp only [hs, Option.some.injEq] at h
      subst h
      exact congrArg _ (ih hs)
    | none =>
      simp only [hs] at h
      split_ifs at h with hd
      rw [← Option.some.inj h, ← hd]
      rfl

theorem splitKey_spec {key name version : Codes} (h : splitKey key = some (name, version)) :
    key = name ++ 64 :: version := by
  obtain ⟨i, hi, h⟩ := Option.bind_eq_some_iff.1 h
  split_ifs at h with hzero
  rw [Option.some_inj, Prod.mk.injEq] at h
  rw [← h.1, ← h.2]
  exact rfind_spec hi

/-- What the loop over the records holds for a package comes from the last supported record with its
key, and no supported record lacks a package or an integrity. -/
theorem foldlM_require {records : List Record} {required : List ((Codes × Codes) × Codes)}
    (h : records.foldlM requireRecord [] = some required) :
    (∀ r ∈ records, r.constraints.supported = true →
        ∃ package integrity, splitKey r.key = some package ∧ r.integrity = some integrity)
      ∧ ∀ name version integrity, required.lookup (name, version) = some integrity
        ↔ ∃ r, records.reverse.find? (fun r => r.constraints.supported && r.key = name ++ 64 :: version)
              = some r ∧ splitKey r.key = some (name, version) ∧ r.integrity = some integrity := by
  induction records using List.reverseRecOn generalizing required with
  | nil =>
    obtain rfl := Option.some.inj h
    simp
  | append_singleton records r ih =>
    rw [List.foldlM_append] at h
    obtain ⟨before, hbefore, h⟩ := Option.bind_eq_some_iff.1 h
    obtain ⟨hmem, hlookup⟩ := ih hbefore
    have hstep : requireRecord before r = some required := by
      simpa only [List.foldlM_cons, List.foldlM_nil, Option.bind_eq_bind, Option.pure_def,
        Option.bind_fun_some] using h
    rw [requireRecord] at hstep
    by_cases hsupported : r.constraints.supported = true
    · rw [if_neg (by simpa using hsupported)] at hstep
      obtain ⟨⟨name', version'⟩, hkey, hstep⟩ := Option.bind_eq_some_iff.1 hstep
      obtain ⟨integrity', hintegrity, hstep⟩ := Option.bind_eq_some_iff.1 hstep
      split_ifs at hstep with hvalid
      obtain rfl := Option.some.inj hstep
      refine ⟨?_, fun name version integrity => ?_⟩
      · intro r' hr' hr''
        rcases List.mem_append.1 hr' with hr' | hr'
        · exact hmem r' hr' hr''
        · rw [List.mem_singleton.1 hr']
          exact ⟨_, _, hkey, hintegrity⟩
      · rw [lookup_assign, List.reverse_append, List.reverse_singleton, List.singleton_append,
          List.find?_cons]
        by_cases hname : r.key = name ++ 64 :: version
        · rw [hname] at hkey
          simp only [hsupported, hname, decide_true, Bool.and_self, Option.some_inj, exists_eq_left', hkey,
            hintegrity]
          by_cases hpackage : (name, version) = (name', version')
          · simp [hpackage]
          · rw [if_neg hpackage, hlookup]
            refine iff_of_false ?_ fun h => hpackage h.1.symm
            rintro ⟨r', hr', hkey', -⟩
            have hname' := List.find?_some hr'
            simp only [Bool.and_eq_true, decide_eq_true_eq] at hname'
            rw [hname'.2, hkey] at hkey'
            exact hpackage (Option.some.inj hkey').symm
        · have hpackage : (name, version) ≠ (name', version') := by
            rintro heq
            rw [← heq] at hkey
            exact hname (splitKey_spec hkey)
          rw [if_neg hpackage, hlookup]
          simp only [hname, decide_false, Bool.and_false]
    · rw [if_pos (by simpa using hsupported)] at hstep
      obtain rfl := Option.some.inj hstep
      refine ⟨?_, fun name version integrity => ?_⟩
      · intro r' hr' hr''
        rcases List.mem_append.1 hr' with hr' | hr'
        · exact hmem r' hr' hr''
        · rw [List.mem_singleton.1 hr'] at hr''
          exact absurd hr'' hsupported
      · rw [hlookup, List.reverse_append, List.reverse_singleton, List.singleton_append,
          List.find?_cons_of_neg (by simp [hsupported])]

end Required

/-! ## Agreement -/

section Agreement

variable (word : ℕ → Bool)

/-- For every package of the second reader's result the first answers the same integrity, and it is
the one on the resolution line of the package's entry. -/
def ReadersAgree (text : Codes) : Prop :=
  ∀ records, pnpmSupportedLockRecords word text = some records →
    ∀ name version integrity, records.lookup (name, version) = some integrity →
      pnpmLockIntegrity word text name version = some integrity
        ∧ ∃ e, packageEntry (splitlines text) (name ++ 64 :: version) = some e
          ∧ e.resolution word = some integrity

/-- Every package has an integrity on the resolution line of its entry, the last one its entry mentions
and the first one under its key. -/
def OnePlace (text : Codes) : Prop :=
  ∀ key e, packageEntry (splitlines text) key = some e →
    ∃ integrity, e.resolution word = some integrity ∧ e.lastIntegrity word = some integrity
      ∧ firstIntegrity word (splitlines text) key = some integrity

theorem find?_record (lines : List Codes) (key : Codes) :
    ((entries (packagesLines lines)).map (Entry.record word)).reverse.find?
        (fun r => r.constraints.supported && r.key = key)
      = (packageEntry lines key).map (Entry.record word) := by
  rw [← List.map_reverse, List.find?_map]
  rfl

/-- What the second reader holds for a package is the last integrity of its entry. -/
theorem lookup_records {text : Codes} {records : List ((Codes × Codes) × Codes)}
    (h : pnpmSupportedLockRecords word text = some records) :
    (∀ e ∈ entries (packagesLines (splitlines text)), e.constraints.supported = true →
        ∃ package integrity, splitKey e.key = some package ∧ e.lastIntegrity word = some integrity)
      ∧ ∀ name version integrity, records.lookup (name, version) = some integrity
        ↔ ∃ e, packageEntry (splitlines text) (name ++ 64 :: version) = some e
          ∧ splitKey e.key = some (name, version) ∧ e.lastIntegrity word = some integrity := by
  obtain ⟨required, hrequired, h⟩ := Option.bind_eq_some_iff.1 h
  split_ifs at h
  obtain rfl := Option.some.inj h
  rw [run_eq word _ rfl rfl, List.nil_append] at hrequired
  obtain ⟨hmem, hlookup⟩ := foldlM_require hrequired
  refine ⟨fun e he => hmem (e.record word) (List.mem_map_of_mem he), fun name version integrity => ?_⟩
  rw [hlookup, find?_record]
  simp only [Option.map_eq_some_iff]
  constructor
  · rintro ⟨_, ⟨e, he, rfl⟩, hkey, hintegrity⟩
    exact ⟨e, he, hkey, hintegrity⟩
  · rintro ⟨e, he, hkey, hintegrity⟩
    exact ⟨_, ⟨e, he, rfl⟩, hkey, hintegrity⟩

/-- On a file that the second reader accepts, the two agree when each package has its integrity in
one place. -/
theorem readersAgree_iff {text : Codes} {records : List ((Codes × Codes) × Codes)}
    (h : pnpmSupportedLockRecords word text = some records) :
    ReadersAgree word text ↔ OnePlace word text := by
  obtain ⟨hmem, hlookup⟩ := lookup_records word h
  constructor
  · intro hagree key e he
    have hfind := List.find?_some he
    simp only [Bool.and_eq_true, decide_eq_true_eq] at hfind
    obtain ⟨⟨name, version⟩, integrity, hkey, hintegrity⟩ :=
      hmem e (List.mem_reverse.1 (List.mem_of_find?_eq_some he)) hfind.1
    have hjoin := splitKey_spec hkey
    rw [hfind.2] at hjoin
    subst hjoin
    obtain ⟨hfirst, e', he', hresolution⟩ :=
      hagree records h name version integrity ((hlookup name version integrity).2 ⟨e, he, hkey, hintegrity⟩)
    obtain rfl := Option.some.inj (he.symm.trans he')
    rw [pnpmLockIntegrity_eq] at hfirst
    exact ⟨integrity, hresolution, hintegrity, hfirst⟩
  · intro hplace records' hrecords' name version integrity hentry
    obtain rfl := Option.some.inj (h.symm.trans hrecords')
    obtain ⟨e, he, -, hintegrity⟩ := (hlookup name version integrity).1 hentry
    obtain ⟨integrity', hresolution, hlast, hfirst⟩ := hplace _ e he
    obtain rfl := Option.some.inj (hlast.symm.trans hintegrity)
    rw [pnpmLockIntegrity_eq]
    exact ⟨hfirst, e, he, hresolution⟩

/-- `\w` under `re.ASCII`. -/
def asciiWord (c : ℕ) : Bool :=
  (97 ≤ c && c ≤ 122) || (65 ≤ c && c ≤ 90) || (48 ≤ c && c ≤ 57) || c = 95

def sampleIntegrity : Codes := codes "sha512-" ++ List.replicate 86 65 ++ [61, 61]

def sampleLock : Codes :=
  codes "packages:\n  a@1:\n    resolution: \x7bintegrity: " ++ sampleIntegrity ++ codes "\x7d\n"

theorem readersAgree_iff_sample :
    ReadersAgree asciiWord sampleLock ↔ OnePlace asciiWord sampleLock :=
  readersAgree_iff asciiWord 
    (by decide +kernel : pnpmSupportedLockRecords asciiWord sampleLock
      = some [((codes "a", codes "1"), sampleIntegrity)])

/-- The same file after an entry of another section with a key of the same text. -/
def driftedLock : Codes := codes "  a@1:\n    integrity: 0\n" ++ sampleLock

theorem not_readersAgree : ¬ ∀ text, ReadersAgree asciiWord text := by
  intro h
  have hrecords : pnpmSupportedLockRecords asciiWord driftedLock
      = some [((codes "a", codes "1"), sampleIntegrity)] := by decide +kernel
  obtain ⟨hfirst, -⟩ := h driftedLock _ hrecords (codes "a") (codes "1") sampleIntegrity
    (by decide +kernel)
  revert hfirst
  decide +kernel

end Agreement

end DependencyLocks
