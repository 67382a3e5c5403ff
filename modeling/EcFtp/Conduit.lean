/-
A source, a channel of bounded room, and a sink.  The source hands over what it has
left in pieces of any size, the sink takes what is on its way in pieces of any size.
Either may stop before its time: the source without a trace, the sink with a failure.
-/
import Mathlib.Data.List.Infix
import Mathlib.Logic.Relation

namespace Conduit

/-- Something that hands over entries.  As long as it has some left it can hand over
one of them. -/
structure Source (σ β : Type) where
  left : σ → List β
  Writes : σ → List β → σ → Prop
  ne_nil : ∀ {s msg s'}, Writes s msg s' → msg ≠ []
  left_eq : ∀ {s msg s'}, Writes s msg s' → left s = msg ++ left s'
  goes_on : ∀ s, left s ≠ [] → ∃ b s', Writes s [b] s'

inductive Status where
  | reading
  | ended
  | failed
deriving Repr, DecidableEq

/-- Something that takes entries until it is told that there are no more of them, or
that it cannot have them. -/
structure Sink (ρ β : Type) where
  got : ρ → List β
  status : ρ → Status
  Reads : ρ → List β → ρ → Prop
  Stops : ρ → Status → ρ → Prop
  reads : ∀ {r msg r'}, Reads r msg r' →
    msg ≠ [] ∧ got r' = got r ++ msg ∧ status r = .reading ∧ status r' = .reading
  stops : ∀ {r st r'}, Stops r st r' →
    st ≠ .reading ∧ got r' = got r ∧ status r = .reading ∧ status r' = st
  goes_on : ∀ r, status r = .reading →
    (∀ b, ∃ r', Reads r [b] r') ∧ ∃ r', Stops r .ended r'

/-- The two, what is on its way, and whether the source has closed its end. -/
structure Flow (σ ρ β : Type) where
  source : σ
  pending : List β
  closed : Bool
  sink : ρ

variable {σ ρ β : Type} (w : Source σ β) (r : Sink ρ β) (room : Nat)

/-- A step of a run in which nothing breaks. -/
inductive Step : Flow σ ρ β → Flow σ ρ β → Prop
  | write {s : Flow σ ρ β} {msg : List β} {s' : σ} (hopen : s.closed = false)
      (hwrite : w.Writes s.source msg s')
      (hroom : s.pending.length + msg.length ≤ room) :
      Step s { s with source := s', pending := s.pending ++ msg }
  | close {s : Flow σ ρ β} (hopen : s.closed = false) (hall : w.left s.source = []) :
      Step s { s with closed := true }
  | read {s : Flow σ ρ β} {msg rest : List β} {r' : ρ} (hread : r.Reads s.sink msg r')
      (hmsg : s.pending = msg ++ rest) : Step s { s with pending := rest, sink := r' }
  | finish {s : Flow σ ρ β} {r' : ρ} (hempty : s.pending = []) (hclosed : s.closed = true)
      (hstop : r.Stops s.sink .ended r') : Step s { s with sink := r' }

/-- The source is gone, or the connection is. -/
inductive Break : Flow σ ρ β → Flow σ ρ β → Prop
  | cut {s : Flow σ ρ β} (hopen : s.closed = false) : Break s { s with closed := true }
  | fail {s : Flow σ ρ β} {r' : ρ} (hstop : r.Stops s.sink .failed r') :
      Break s { s with sink := r' }

def AnyStep (s s' : Flow σ ρ β) : Prop := Step w r room s s' ∨ Break r s s'

/-- What the sink has got, what is on its way and what the source has left make up
what the source started with. -/
structure Carries (x : List β) (s : Flow σ ρ β) : Prop where
  whole : r.got s.sink ++ s.pending ++ w.left s.source = x
  of_ended : r.status s.sink = .ended → s.pending = [] ∧ s.closed = true

/-- Nothing has broken. -/
structure Unbroken (s : Flow σ ρ β) : Prop where
  of_closed : s.closed = true → w.left s.source = []
  not_failed : r.status s.sink ≠ .failed

section Runs

variable {w r room} {x : List β} {s s' : Flow σ ρ β}

theorem carries_step (hs : Carries w r x s) (h : Step w r room s s') :
    Carries w r x s' := by
  cases h with
  | @write msg s' hopen hwrite hroom =>
      refine ⟨?_, fun hended => ?_⟩
      · rw [← hs.whole, w.left_eq hwrite]
        simp only [List.append_assoc]
      · have hclosed := (hs.of_ended hended).2
        rw [hopen] at hclosed
        cases hclosed
  | close hopen hall => exact ⟨hs.whole, fun hended => ⟨(hs.of_ended hended).1, rfl⟩⟩
  | @read msg rest r' hread hmsg =>
      obtain ⟨_, hgot, _, hstatus⟩ := r.reads hread
      refine ⟨?_, fun hended => ?_⟩
      · change r.got r' ++ rest ++ w.left s.source = x
        rw [← hs.whole, hgot, hmsg]
        simp only [List.append_assoc]
      · cases hstatus.symm.trans hended
  | finish hempty hclosed hstop =>
      obtain ⟨_, hgot, _, _⟩ := r.stops hstop
      refine ⟨?_, fun _ => ⟨hempty, hclosed⟩⟩
      rw [← hs.whole]
      exact congrArg (· ++ s.pending ++ w.left s.source) hgot

theorem carries_break (hs : Carries w r x s) (h : Break r s s') : Carries w r x s' := by
  cases h with
  | cut hopen => exact ⟨hs.whole, fun hended => ⟨(hs.of_ended hended).1, rfl⟩⟩
  | fail hstop =>
      obtain ⟨_, hgot, _, hstatus⟩ := r.stops hstop
      refine ⟨?_, fun hended => ?_⟩
      · rw [← hs.whole]
        exact congrArg (· ++ s.pending ++ w.left s.source) hgot
      · cases hstatus.symm.trans hended

theorem carries_anyStep (hs : Carries w r x s) (h : AnyStep w r room s s') :
    Carries w r x s' := by
  rcases h with h | h
  · exact carries_step hs h
  · exact carries_break hs h

theorem carries_runs (hs : Carries w r x s)
    (h : Relation.ReflTransGen (AnyStep w r room) s s') : Carries w r x s' := by
  induction h with
  | refl => exact hs
  | tail _ hstep ih => exact carries_anyStep ih hstep

/-- What no call of the source changes stays so. -/
theorem source_kept {α : Type} {f : σ → α}
    (hf : ∀ {a msg a'}, w.Writes a msg a' → f a' = f a)
    (h : Relation.ReflTransGen (AnyStep w r room) s s') : f s'.source = f s.source := by
  induction h with
  | refl => rfl
  | tail _ hstep ih =>
      rcases hstep with hstep | hbreak
      · cases hstep with
        | write hopen hwrite hroom => exact (hf hwrite).trans ih
        | close hopen hall => exact ih
        | read hread hmsg => exact ih
        | finish hempty hclosed hstop => exact ih
      · cases hbreak with
        | cut hopen => exact ih
        | fail hstop => exact ih

theorem runs_any (h : Relation.ReflTransGen (Step w r room) s s') :
    Relation.ReflTransGen (AnyStep w r room) s s' :=
  Relation.ReflTransGen.mono (fun _ _ => .inl) _ _ h

/-- What the sink has is a beginning of what was to be written. -/
theorem Carries.got_begins (hs : Carries w r x s) : r.got s.sink <+: x := by
  rw [← hs.whole, List.append_assoc]
  exact List.prefix_append _ _

/-- At the end the sink has all of it but what the source has left. -/
theorem Carries.got_append_left (hs : Carries w r x s)
    (hended : r.status s.sink = .ended) :
    r.got s.sink ++ w.left s.source = x := by
  have hwhole := hs.whole
  rwa [(hs.of_ended hended).1, List.append_nil] at hwhole

theorem unbroken_step (hs : Unbroken w r s) (h : Step w r room s s') :
    Unbroken w r s' := by
  cases h with
  | write hopen hwrite hroom =>
      refine ⟨fun hclosed => ?_, hs.not_failed⟩
      exact absurd (hopen.symm.trans hclosed) (by decide)
  | close hopen hall => exact ⟨fun _ => hall, hs.not_failed⟩
  | read hread hmsg =>
      obtain ⟨_, _, _, hstatus⟩ := r.reads hread
      refine ⟨hs.of_closed, fun hfailed => ?_⟩
      cases hstatus.symm.trans hfailed
  | finish hempty hclosed hstop =>
      obtain ⟨_, _, _, hstatus⟩ := r.stops hstop
      refine ⟨hs.of_closed, fun hfailed => ?_⟩
      cases hstatus.symm.trans hfailed

theorem unbroken_runs (hs : Unbroken w r s)
    (h : Relation.ReflTransGen (Step w r room) s s') : Unbroken w r s' := by
  induction h with
  | refl => exact hs
  | tail _ hstep ih => exact unbroken_step ih hstep

/-- If nothing breaks, the sink has all of it in the end. -/
theorem Unbroken.got_eq (hunbroken : Unbroken w r s) (hs : Carries w r x s)
    (hended : r.status s.sink = .ended) : r.got s.sink = x := by
  have hgot := hs.got_append_left hended
  rwa [hunbroken.of_closed (hs.of_ended hended).2, List.append_nil] at hgot

/-- As long as the sink reads, one of the two can go on. -/
theorem exists_step (hroom : 0 < room) (hreading : r.status s.sink = .reading) :
    ∃ s', Step w r room s s' := by
  obtain ⟨hreads, r', hstops⟩ := r.goes_on s.sink hreading
  cases hpending : s.pending with
  | cons b rest =>
      obtain ⟨r', hread⟩ := hreads b
      exact ⟨_, .read hread hpending⟩
  | nil =>
      cases hclosed : s.closed with
      | true => exact ⟨_, .finish hpending hclosed hstops⟩
      | false =>
          by_cases hleft : w.left s.source = []
          · exact ⟨_, .close hclosed hleft⟩
          · obtain ⟨b, s', hwrite⟩ := w.goes_on s.source hleft
            refine ⟨_, .write hclosed hwrite ?_⟩
            rw [hpending]
            exact hroom

variable (w r) in
/-- What is still to be done: each entry is written and read, the channel is closed,
and the sink stops. -/
def ahead (s : Flow σ ρ β) : Nat :=
  2 * (w.left s.source).length + s.pending.length + (if s.closed then 0 else 1) +
    if r.status s.sink = .reading then 1 else 0

theorem ahead_lt (h : AnyStep w r room s s') : ahead w r s' < ahead w r s := by
  rcases h with h | h
  · cases h with
    | @write msg s' hopen hwrite hroom =>
        have hpos := List.length_pos_iff.mpr (w.ne_nil hwrite)
        simp only [ahead, w.left_eq hwrite, List.length_append]
        omega
    | close hopen hall => simp [ahead, hopen]
    | @read msg rest r' hread hmsg =>
        obtain ⟨hne, _, hstatus, hstatus'⟩ := r.reads hread
        have hpos := List.length_pos_iff.mpr hne
        simp only [ahead, hmsg, hstatus, hstatus', List.length_append]
        omega
    | finish hempty hclosed hstop =>
        obtain ⟨_, _, hstatus, hstatus'⟩ := r.stops hstop
        simp [ahead, hstatus, hstatus']
  · cases h with
    | cut hopen => simp [ahead, hopen]
    | fail hstop =>
        obtain ⟨_, _, hstatus, hstatus'⟩ := r.stops hstop
        simp [ahead, hstatus, hstatus']

/-- No run goes on for ever. -/
theorem run_bounded (run : Nat → Flow σ ρ β) :
    ∀ n, (∀ i < n, AnyStep w r room (run i) (run (i + 1))) →
      n + ahead w r (run n) ≤ ahead w r (run 0) := by
  intro n
  induction n with
  | zero => simp
  | succ n ih =>
      intro hsteps
      have hbefore := ih fun i hi => hsteps i (by omega)
      have hlt := ahead_lt (hsteps n (by omega))
      omega

/-- Every run can be continued until the sink has stopped. -/
theorem exists_stopped (hroom : 0 < room) (hunbroken : Unbroken w r s) :
    ∃ s', Relation.ReflTransGen (Step w r room) s s' ∧ r.status s'.sink = .ended := by
  induction hn : ahead w r s using Nat.strong_induction_on generalizing s with
  | _ n ih =>
      cases hstatus : r.status s.sink with
      | reading =>
          obtain ⟨s₁, hstep⟩ := exists_step hroom hstatus
          have hlt := ahead_lt (.inl hstep)
          obtain ⟨s', hruns, hended⟩ :=
            ih _ (hn ▸ hlt) (unbroken_step hunbroken hstep) rfl
          exact ⟨s', hruns.head hstep, hended⟩
      | ended => exact ⟨s, .refl, hstatus⟩
      | failed => exact absurd hstatus hunbroken.not_failed

end Runs

end Conduit
