/-
Processes on one host that make up names for files.  A name is made by creating
a file no file is called, given out once that file is deleted again, and opened
by name later.  As long as nobody makes a name that somebody else was given and
has not opened yet, all names held by different processes differ.
-/
import Mathlib.Data.Set.Insert
import Mathlib.Logic.Function.Basic
import Mathlib.Logic.Relation

namespace FreshNames

universe u v

variable {α : Type u} {ι : Type v}

/-- How far a process has come with a name: it was made with its file, given out
without it, and opened again. -/
inductive Phase where
  | unused
  | made
  | given
  | opened
deriving Repr, DecidableEq

/-- The calls of a process that concern names, in the order it makes them.
`branch` leaves open how the process goes on. -/
inductive Calls (α : Type u) where
  | done
  | mkstemp (template : α → Prop) (next : α → Calls α)
  | unlink (name : α) (next : Calls α)
  | fopen (name : α) (next : Calls α)
  | remove (name : α) (next : Calls α)
  | branch (left right : Calls α)

structure Process (α : Type u) where
  calls : Calls α
  phase : α → Phase

/-- The files of a host and the processes on it. -/
structure Host (ι : Type v) (α : Type u) where
  files : Set α
  process : ι → Process α

section Set

variable [DecidableEq ι]

/-- Process `i` has gone on to `p`, and left `files`. -/
def Host.set (s : Host ι α) (i : ι) (p : Process α) (files : Set α) : Host ι α :=
  ⟨files, Function.update s.process i p⟩

@[simp] theorem Host.set_process_self (s : Host ι α) (i : ι) (p : Process α)
    (files : Set α) :
    (s.set i p files).process i = p := Function.update_self ..

@[simp] theorem Host.set_process_of_ne (s : Host ι α) {i j : ι} (hj : j ≠ i)
    (p : Process α)
    (files : Set α) : (s.set i p files).process j = s.process j :=
  Function.update_of_ne hj ..

@[simp] theorem Host.set_files (s : Host ι α) (i : ι) (p : Process α) (files : Set α) :
    (s.set i p files).files = files := rfl

@[simp] theorem Host.set_set (s : Host ι α) (i : ι) (p p' : Process α)
    (files files' : Set α) :
    (s.set i p files).set i p' files' = s.set i p' files' := by
  simp [Host.set]

end Set

variable [DecidableEq α]

/-- What opening a name for writing does to the phases: a name that was given out
is opened, and any other file may be opened as well. -/
def openName (phase : α → Phase) (name : α) : α → Phase :=
  if phase name = .given then Function.update phase name .opened else phase

/-- One call of a process, with the name it makes, on the names of all files.
A call that fails ends the process, but for `unlink` and `remove`, whose failure
leaves the file. -/
inductive Step : Option α → Process α → Set α → Process α → Set α → Prop
  | mkstemp {template : α → Prop} {next : α → Calls α} {phase : α → Phase} {files : Set α}
      {name : α} (htemplate : template name) (hfree : name ∉ files) :
      Step (some name) ⟨.mkstemp template next, phase⟩ files
        ⟨next name, Function.update phase name .made⟩ (insert name files)
  | unlink {name : α} {next : Calls α} {phase : α → Phase} {files : Set α}
      (hfile : name ∈ files) :
      Step none ⟨.unlink name next, phase⟩ files
        ⟨next, Function.update phase name .given⟩ (files \ {name})
  | unlinkFails {name : α} {next : Calls α} {phase : α → Phase} {files : Set α} :
      Step none ⟨.unlink name next, phase⟩ files
        ⟨next, Function.update phase name .given⟩ files
  | fopen {name : α} {next : Calls α} {phase : α → Phase} {files : Set α} :
      Step none ⟨.fopen name next, phase⟩ files
        ⟨next, openName phase name⟩ (insert name files)
  | remove {name : α} {next : Calls α} {phase : α → Phase} {files : Set α}
      (hfile : name ∈ files) :
      Step none ⟨.remove name next, phase⟩ files
        ⟨next, Function.update phase name .unused⟩ (files \ {name})
  | removeFails {name : α} {next : Calls α} {phase : α → Phase} {files : Set α} :
      Step none ⟨.remove name next, phase⟩ files ⟨next, phase⟩ files
  | left {l r : Calls α} {phase : α → Phase} {files : Set α} :
      Step none ⟨.branch l r, phase⟩ files ⟨l, phase⟩ files
  | right {l r : Calls α} {phase : α → Phase} {files : Set α} :
      Step none ⟨.branch l r, phase⟩ files ⟨r, phase⟩ files
  | giveUp {calls : Calls α} {phase : α → Phase} {files : Set α} :
      Step none ⟨calls, phase⟩ files ⟨.done, phase⟩ files

/-- What a process has to keep to: it unlinks the name it has made, removes only
names it has opened, and makes no name while it has one it has not opened. -/
def Disciplined : Calls α → (α → Phase) → Prop
  | .done, _ => True
  | .mkstemp _ next, phase =>
      (∀ name, phase name ≠ .given) ∧ ∀ name, phase name = .unused →
        Disciplined (next name) (Function.update phase name .made)
  | .unlink name next, phase =>
      phase name = .made ∧ Disciplined next (Function.update phase name .given)
  | .fopen name next, phase => Disciplined next (openName phase name)
  | .remove name next, phase =>
      phase name = .opened ∧ Disciplined next (Function.update phase name .unused) ∧
        Disciplined next phase
  | .branch l r, phase => Disciplined l phase ∧ Disciplined r phase

section Process

variable {made : Option α} {p p' : Process α} {files files' : Set α}

/-- The names a process has made or opened are those of files. -/
def Process.There (p : Process α) (files : Set α) : Prop :=
  ∀ name, p.phase name = .made ∨ p.phase name = .opened → name ∈ files

theorem there_update {phase : α → Phase} {calls calls' : Calls α} {name : α} {x : Phase}
    (h : Process.There ⟨calls, phase⟩ files) (hkeep : ∀ n, n ≠ name →
      n ∈ files → n ∈ files')
    (hname : x = .made ∨ x = .opened → name ∈ files') :
    Process.There ⟨calls', Function.update phase name x⟩ files' := by
  intro n hn
  by_cases hne : n = name
  · subst hne
    simp only [Function.update_self] at hn
    exact hname hn
  · simp only [Function.update_of_ne hne] at hn
    exact hkeep n hne (h n hn)

theorem Step.disciplined (h : Step made p files p' files')
    (hp : Disciplined p.calls p.phase)
    (hthere : p.There files) : Disciplined p'.calls p'.phase := by
  induction h with
  | @mkstemp template next phase files name htemplate hfree =>
      obtain ⟨hgiven, hnext⟩ := hp
      apply hnext name
      cases hphase : phase name with
      | unused => exact hphase
      | made => exact absurd (hthere name (.inl hphase)) hfree
      | given => exact absurd hphase (hgiven name)
      | opened => exact absurd (hthere name (.inr hphase)) hfree
  | unlink hfile => exact hp.2
  | unlinkFails => exact hp.2
  | fopen => exact hp
  | remove hfile => exact hp.2.1
  | removeFails => exact hp.2.2
  | left => exact hp.1
  | right => exact hp.2
  | giveUp => trivial

theorem Step.there (h : Step made p files p' files') (hthere : p.There files) :
    p'.There files' := by
  induction h with
  | mkstemp htemplate hfree =>
      exact there_update hthere (fun n _ hn => .inr hn) fun _ => .inl rfl
  | unlink hfile =>
      exact there_update hthere (fun n hne hn => ⟨hn, hne⟩) (by simp)
  | unlinkFails => exact there_update hthere (fun n _ hn => hn) (by simp)
  | @fopen name next phase files =>
      unfold openName
      split
      · exact there_update hthere (fun n _ hn => .inr hn) fun _ => .inl rfl
      · exact fun n hn => .inr (hthere n hn)
  | remove hfile =>
      exact there_update hthere (fun n hne hn => ⟨hn, hne⟩) (by simp)
  | removeFails => exact hthere
  | left => exact hthere
  | right => exact hthere
  | giveUp => exact hthere

/-- A process comes to hold no other name than the one it makes. -/
theorem Step.held (h : Step made p files p' files') {name : α}
    (hheld : p'.phase name ≠ .unused) (hp : Disciplined p.calls p.phase) :
    p.phase name ≠ .unused ∨ made = some name ∧ name ∉ files := by
  have hupdate : ∀ (phase : α → Phase) (n : α) (x : Phase),
      Function.update phase n x name ≠ .unused → name = n ∨ phase name ≠ .unused := by
    intro phase n x hne
    by_cases heq : name = n
    · exact .inl heq
    · rw [Function.update_of_ne heq] at hne
      exact .inr hne
  induction h with
  | mkstemp htemplate hfree =>
      rcases hupdate _ _ _ hheld with rfl | hold
      · exact .inr ⟨rfl, hfree⟩
      · exact .inl hold
  | unlink hfile =>
      rcases hupdate _ _ _ hheld with rfl | hold
      · exact .inl (ne_of_eq_of_ne hp.1 (by simp))
      · exact .inl hold
  | unlinkFails =>
      rcases hupdate _ _ _ hheld with rfl | hold
      · exact .inl (ne_of_eq_of_ne hp.1 (by simp))
      · exact .inl hold
  | @fopen n next phase files =>
      unfold openName at hheld
      split at hheld
      · rename_i hgiven
        rcases hupdate _ _ _ hheld with rfl | hold
        · exact .inl (by simp [hgiven])
        · exact .inl hold
      · exact .inl hheld
  | remove hfile =>
      rcases hupdate _ _ _ hheld with rfl | hold
      · exact .inl (ne_of_eq_of_ne hp.1 (by simp))
      · exact .inl hold
  | removeFails => exact .inl hheld
  | left => exact .inl hheld
  | right => exact .inl hheld
  | giveUp => exact .inl hheld

/-- A process deletes no files but those whose names it holds. -/
theorem Step.keeps (h : Step made p files p' files') {name : α} (hfile : name ∈ files)
    (hp : Disciplined p.calls p.phase) : name ∈ files' ∨ p.phase name ≠ .unused := by
  induction h with
  | mkstemp htemplate hfree => exact .inl (.inr hfile)
  | @unlink n next phase files hn =>
      by_cases heq : name = n
      · subst heq
        exact .inr (ne_of_eq_of_ne hp.1 (by simp))
      · exact .inl ⟨hfile, heq⟩
  | unlinkFails => exact .inl hfile
  | fopen => exact .inl (.inr hfile)
  | @remove n next phase files hn =>
      by_cases heq : name = n
      · subst heq
        exact .inr (ne_of_eq_of_ne hp.1 (by simp))
      · exact .inl ⟨hfile, heq⟩
  | removeFails => exact .inl hfile
  | left => exact .inl hfile
  | right => exact .inl hfile
  | giveUp => exact .inl hfile

end Process

namespace Host

variable {s s' : Host ι α} {i j : ι}

/-- A name a process was given and has not removed. -/
def InUse (s : Host ι α) (i : ι) (name : α) : Prop :=
  (s.process i).phase name = .given ∨ (s.process i).phase name = .opened

/-- Names held by different processes differ, and those of files are there. -/
structure Exclusive (s : Host ι α) : Prop where
  disciplined : ∀ i, Disciplined (s.process i).calls (s.process i).phase
  there : ∀ i, (s.process i).There s.files
  alone : ∀ i j, i ≠ j → ∀ name, (s.process i).phase name ≠ .unused →
    (s.process j).phase name = .unused

theorem Exclusive.inUse_ne (hs : s.Exclusive) (hij : i ≠ j) {m n : α} (hm : s.InUse i m)
    (hn : s.InUse j n) : m ≠ n := by
  rintro rfl
  have hheld : (s.process i).phase m ≠ .unused := by
    rcases hm with hgiven | hopened
    · simp [hgiven]
    · simp [hopened]
  rcases hn with hgiven | hopened
  · rw [hs.alone i j hij m hheld] at hgiven
    cases hgiven
  · rw [hs.alone i j hij m hheld] at hopened
    cases hopened

/-- The name process `i` makes, if it makes one, is none that another process was
given and has not opened yet. -/
def Clear (s : Host ι α) (i : ι) (made : Option α) : Prop :=
  ∀ name, made = some name → ∀ j, j ≠ i → (s.process j).phase name ≠ .given

/-- What a process holds after its step no other process holds. -/
theorem Exclusive.unused_of_held (hs : s.Exclusive) {made : Option α}
    (hclear : s.Clear i made) {p : Process α} {files : Set α}
    (h : FreshNames.Step made (s.process i) s.files p files) (hj : j ≠ i)
    {name : α} (hname : p.phase name ≠ .unused) : (s.process j).phase name = .unused := by
  rcases h.held hname (hs.disciplined i) with hold | ⟨hmade, hfree⟩
  · exact hs.alone i j (Ne.symm hj) name hold
  · cases hphase : (s.process j).phase name with
    | unused => rfl
    | made => exact absurd (hs.there j name (.inl hphase)) hfree
    | given => exact absurd hphase (hclear name hmade j hj)
    | opened => exact absurd (hs.there j name (.inr hphase)) hfree

variable [DecidableEq ι]

/-- Process `i` makes a call. -/
inductive Step (i : ι) (made : Option α) : Host ι α → Host ι α → Prop
  | mk {s : Host ι α} {p : Process α} {files : Set α}
      (h : FreshNames.Step made (s.process i) s.files p files) :
      Step i made s (s.set i p files)

/-- Runs in which the processes make their calls in any order, but for steps that
are not `ok`. -/
def RunsIf (ok : Host ι α → ι → Option α → Prop) : Host ι α → Host ι α → Prop :=
  Relation.ReflTransGen fun s s' => ∃ i made, ok s i made ∧ Step i made s s'

def Runs : Host ι α → Host ι α → Prop := RunsIf fun _ _ _ => True

/-- Runs in which no name is made that another process waits to open. -/
def ClearRuns : Host ι α → Host ι α → Prop := RunsIf Clear

variable {made : Option α} {ok : Host ι α → ι → Option α → Prop}

theorem RunsIf.step {p p' : Process α} {files : Set α} (hok : ok s i made)
    (hp : s.process i = p) (h : FreshNames.Step made p s.files p' files) :
    RunsIf ok s (s.set i p' files) := by
  subst hp
  exact Relation.ReflTransGen.single ⟨i, made, hok, .mk h⟩

theorem Runs.step {p p' : Process α} {files : Set α} (hp : s.process i = p)
    (h : FreshNames.Step made p s.files p' files) : Runs s (s.set i p' files) :=
  RunsIf.step trivial hp h

theorem Exclusive.step (hs : s.Exclusive) (hclear : s.Clear i made)
    (h : Step i made s s') :
    s'.Exclusive := by
  induction h with
  | @mk p files h =>
      have hi := hs.disciplined i
      constructor
      · intro j
        by_cases hj : j = i
        · subst hj
          simpa using h.disciplined hi (hs.there j)
        · simpa [hj] using hs.disciplined j
      · intro j
        by_cases hj : j = i
        · subst hj
          simpa using h.there (hs.there j)
        · rw [set_process_of_ne _ hj]
          intro name hname
          rcases h.keeps (hs.there j name hname) hi with hfile | hheld
          · exact hfile
          · rw [hs.alone i j (Ne.symm hj) name hheld] at hname
            simp at hname
      · intro j k hjk name hname
        by_cases hj : j = i
        · subst hj
          rw [set_process_self] at hname
          rw [set_process_of_ne _ (Ne.symm hjk)]
          exact hs.unused_of_held hclear h (Ne.symm hjk) hname
        · rw [set_process_of_ne _ hj] at hname
          by_cases hk : k = i
          · subst hk
            rw [set_process_self]
            by_contra hheld
            exact hname (hs.unused_of_held hclear h hj hheld)
          · rw [set_process_of_ne _ hk]
            exact hs.alone j k hjk name hname

/-- Whatever happens in a run in which no name is made that another process waits
to open, no two processes hold the same name. -/
theorem Exclusive.runs (hs : s.Exclusive) (h : ClearRuns s s') : s'.Exclusive := by
  induction h with
  | refl => exact hs
  | tail _ hstep ih =>
      obtain ⟨i, made, hclear, hstep⟩ := hstep
      exact ih.step hclear hstep

end Host

end FreshNames
