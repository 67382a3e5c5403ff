/-
Parties that act in turn on cells they share, and when none of them notices the
others.
-/
import EcFtp.Frame
import Mathlib.Data.Set.Function
import Mathlib.Data.Set.Lattice
import Mathlib.Logic.Relation

namespace Activities

variable {ι β α γ ε κ : Type}

/-- What one party does: an act changes the cells, and what it finds there decides
what the party does next. -/
inductive Activity (ι β α : Type) where
  | ended (result : α)
  | act (update : (ι → β) → ι → β) (next : (ι → β) → Activity ι β α)

namespace Activity

/-- The party on its own. -/
def run : Activity ι β α → (ι → β) → α × (ι → β)
  | ended result, s => (result, s)
  | act update next, s => (next s).run (update s)

def bind : Activity ι β α → (α → Activity ι β γ) → Activity ι β γ
  | ended result, f => f result
  | act update next, f => act update fun s => (next s).bind f

theorem run_bind (t : Activity ι β α) (f : α → Activity ι β γ) (s : ι → β) :
    (t.bind f).run s = (f (t.run s).1).run (t.run s).2 := by
  induction t generalizing s with
  | ended result => rfl
  | act update next ih => exact ih s (update s)

/-- Every act looks at the cells of `reads` only, and changes those of `writes` only. -/
def Within (reads writes : Set ι) : Activity ι β α → Prop
  | ended _ => True
  | act update next =>
      (∀ s s', Set.EqOn s s' reads →
        Set.EqOn (update s) (update s') reads ∧ next s = next s') ∧
        (∀ s i, i ∉ writes → update s i = s i) ∧ ∀ s, (next s).Within reads writes

/-- Every result the activity may have. -/
def Gives (P : α → Prop) : Activity ι β α → Prop
  | ended result => P result
  | act _ next => ∀ s, (next s).Gives P

section Within

variable {P : α → Prop} {Q : γ → Prop} {reads writes reads' writes' : Set ι}
  {t : Activity ι β α}
  {f : α → Activity ι β γ}

theorem gives_of (h : ∀ a, P a) (t : Activity ι β α) : t.Gives P := by
  induction t with
  | ended result => exact h result
  | act update next ih => exact ih

theorem Gives.bind (ht : t.Gives P) (hf : ∀ a, P a → (f a).Gives Q) :
    (t.bind f).Gives Q := by
  induction t with
  | ended result => exact hf result ht
  | act update next ih => exact fun s => ih s (ht s)

theorem Within.bind (ht : t.Within reads writes) (hgives : t.Gives P)
    (hf : ∀ a, P a → (f a).Within reads writes) : (t.bind f).Within reads writes := by
  induction t with
  | ended result => exact hf result hgives
  | act update next ih =>
      obtain ⟨hreads, hwrites, hnext⟩ := ht
      refine ⟨fun s s' h => ?_, hwrites, fun s => ih s (hnext s) (hgives s)⟩
      obtain ⟨hupdate, hsame⟩ := hreads s s' h
      exact ⟨hupdate, congrArg (fun t => t.bind f) hsame⟩

/-- Cells outside `reads` are neither looked at nor needed by what is written. -/
theorem Within.run_congr (ht : t.Within reads writes) {s s' : ι → β}
    (h : Set.EqOn s s' reads) :
    (t.run s).1 = (t.run s').1 ∧ Set.EqOn (t.run s).2 (t.run s').2 reads := by
  induction t generalizing s s' with
  | ended result => exact ⟨rfl, h⟩
  | act update next ih =>
      obtain ⟨hreads, _, hnext⟩ := ht
      obtain ⟨hupdate, hsame⟩ := hreads s s' h
      unfold run
      rw [← hsame]
      exact ih s (hnext s) hupdate

/-- The cells after each number of acts, which is where a party that is stopped leaves
them. -/
def trace : Activity ι β α → (ι → β) → List (ι → β)
  | ended _, s => [s]
  | act update next, s => s :: (next s).trace (update s)

theorem run_mem_trace (t : Activity ι β α) (s : ι → β) : (t.run s).2 ∈ t.trace s := by
  induction t generalizing s with
  | ended result => exact List.mem_cons_self
  | act update next ih => exact List.mem_cons_of_mem _ (ih s (update s))

theorem mem_trace_bind {t : Activity ι β α} {f : α → Activity ι β γ} {s s' : ι → β} :
    s' ∈ (t.bind f).trace s → s' ∈ t.trace s ∨
      s' ∈ (f (t.run s).1).trace (t.run s).2 := by
  induction t generalizing s with
  | ended result => exact .inr
  | act update next ih =>
      intro h
      rcases List.mem_cons.mp h with rfl | hlater
      · exact .inl List.mem_cons_self
      · apply (ih s hlater).imp_left
        exact List.mem_cons_of_mem _

theorem Within.trace_frame (ht : t.Within reads writes) {s s' : ι → β}
    (hs' : s' ∈ t.trace s)
    {i : ι} (hi : i ∉ writes) : s' i = s i := by
  induction t generalizing s with
  | ended result =>
      rw [List.mem_singleton.mp hs']
  | act update next ih =>
      obtain ⟨_, hwrites, hnext⟩ := ht
      rcases List.mem_cons.mp hs' with rfl | hlater
      · rfl
      · exact (ih s (hnext s) hlater).trans (hwrites s i hi)

/-- More cells may be looked at and changed. -/
theorem Within.mono (ht : t.Within reads writes) (hr : reads ⊆ reads')
    (hw : writes ⊆ writes')
    (hsub : writes ⊆ reads) : t.Within reads' writes' := by
  induction t with
  | ended result => exact True.intro
  | act update next ih =>
      obtain ⟨hreads, hwrites, hnext⟩ := ht
      refine ⟨fun s s' h => ?_, fun s i hi => hwrites s i fun hin => hi (hw hin),
        fun s => ih s (hnext s)⟩
      obtain ⟨hupdate, hsame⟩ := hreads s s' (h.mono hr)
      refine ⟨fun i hi => ?_, hsame⟩
      by_cases hin : i ∈ reads
      · exact hupdate hin
      · rw [hwrites s i fun hin' => hin (hsub hin'),
          hwrites s' i fun hin' => hin (hsub hin')]
        exact h hi

end Within

end Activity

section Programs

open Exec

/-- What a call returns, or how it ends. -/
def outcome {σ : Type} : EStateM.Result ε σ α → Except ε α
  | .ok a _ => .ok a
  | .error e _ => .error e

/-- An activity whose acts may fail. -/
def Program (ε ι β α : Type) : Type := Activity ι β (Except ε α)

namespace Program

/-- A call of one act. -/
def call (p : EStateM ε (ι → β) α) : Program ε ι β α :=
  .act (fun s => endState (p s)) fun s => .ended (outcome (p s))

def follow (f : α → Program ε ι β γ) : Except ε α → Activity ι β (Except ε γ)
  | .ok a => f a
  | .error e => .ended (.error e)

instance : Monad (Program ε ι β) where
  pure a := Activity.ended (.ok a)
  bind p f := Activity.bind p (follow f)

def activity (p : Program ε ι β α) : Activity ι β (Except ε α) := p

/-- The program on its own, as one call. -/
def alone (p : Program ε ι β α) : EStateM ε (ι → β) α := fun s =>
  match p.activity.run s with
  | (.ok a, s') => .ok a s'
  | (.error e, s') => .error e s'

variable {p : Program ε ι β α} {f : α → Program ε ι β γ}

theorem run_eq (p : Program ε ι β α) (s : ι → β) :
    p.activity.run s = (outcome (p.alone s), endState (p.alone s)) := by
  unfold alone
  rcases p.activity.run s with ⟨a | e, s'⟩
  · rfl
  · rfl

theorem alone_pure (a : α) : (pure a : Program ε ι β α).alone = pure a := rfl

theorem alone_call (q : EStateM ε (ι → β) α) : (call q : Program ε ι β α).alone = q := by
  funext s
  have hrun : (call q).activity.run s = (outcome (q s), endState (q s)) := rfl
  unfold alone
  rw [hrun]
  cases q s with
  | ok a s' => rfl
  | error e s' => rfl

theorem alone_bind (p : Program ε ι β α) (f : α → Program ε ι β γ) :
    (p >>= f).alone = p.alone >>= fun a => (f a).alone := by
  funext s
  have hrun : (p >>= f).activity.run s =
      (follow f (p.activity.run s).1).run (p.activity.run s).2 :=
    p.activity.run_bind (follow f) s
  have hfirst := run_eq p s
  cases hp : p.alone s with
  | ok a s' =>
      rw [hp] at hfirst
      rw [bind_of_ok hp]
      rw [hfirst] at hrun
      unfold alone
      rw [hrun]
      rfl
  | error e s' =>
      rw [hp] at hfirst
      rw [bind_of_error hp]
      rw [hfirst] at hrun
      unfold alone
      rw [hrun]
      rfl

theorem trace_call {q : EStateM ε (ι → β) α} {s s' : ι → β}
    (h : s' ∈ (call q).activity.trace s) : s' = s ∨ s' = endState (q s) := by
  rcases List.mem_cons.mp h with hsame | hend
  · exact .inl hsame
  · exact .inr (List.mem_singleton.mp hend)

theorem endState_mem_trace (p : Program ε ι β α) (s : ι → β) :
    endState (p.alone s) ∈ p.activity.trace s := by
  have hmem := p.activity.run_mem_trace s
  rwa [run_eq] at hmem

/-- A program is stopped in its first part, or behind it in the second. -/
theorem trace_bind {s s' : ι → β} (h : s' ∈ (p >>= f).activity.trace s) :
    s' ∈ p.activity.trace s ∨
      ∃ a s₁, p.alone s = .ok a s₁ ∧ s' ∈ (f a).activity.trace s₁ := by
  have hparts : s' ∈ p.activity.trace s ∨
      s' ∈ (follow f (p.activity.run s).1).trace (p.activity.run s).2 :=
        Activity.mem_trace_bind h
  rcases hparts with hfirst | hsecond
  · exact .inl hfirst
  · rw [run_eq] at hsecond
    cases hp : p.alone s with
    | ok a s₁ =>
        rw [hp] at hsecond
        exact .inr ⟨a, s₁, rfl, hsecond⟩
    | error e s₁ =>
        rw [hp] at hsecond
        have hend := endState_mem_trace p s
        rw [hp] at hend
        rw [List.mem_singleton.mp hsecond]
        exact .inl hend

variable {reads writes : Set ι}

/-- A call looks at the cells of `reads` only, and changes those of `writes` only. -/
structure Calls (reads writes : Set ι) (q : EStateM ε (ι → β) α) : Prop where
  outcome_eq : ∀ s s', Set.EqOn s s' reads → outcome (q s) = outcome (q s')
  agrees : ∀ s s', Set.EqOn s s' reads → Set.EqOn (endState (q s)) (endState (q s')) reads
  frame : ∀ s i, i ∉ writes → endState (q s) i = s i

theorem Calls.modify {h : (ι → β) → ι → β}
    (hreads : ∀ s s', Set.EqOn s s' reads → Set.EqOn (h s) (h s') reads)
    (hwrites : ∀ s i, i ∉ writes → h s i = s i) :
    Calls reads writes (modify h : EStateM ε (ι → β) PUnit) :=
  ⟨fun _ _ _ => rfl, hreads, hwrites⟩

/-- A call that looks at cells and changes none. -/
theorem Calls.look {f : (ι → β) → α} (h : ∀ s s', Set.EqOn s s' reads → f s = f s') :
    Calls reads writes (f <$> get : EStateM ε (ι → β) α) :=
  ⟨fun s s' heq => congrArg Except.ok (h s s' heq), fun _ _ heq => heq, fun _ _ _ => rfl⟩

theorem Calls.throw (e : ε) : Calls reads writes (throw e : EStateM ε (ι → β) α) :=
  ⟨fun _ _ _ => rfl, fun _ _ heq => heq, fun _ _ _ => rfl⟩

theorem Calls.exitIf (c : Bool) (e : ε) :
    Calls reads writes (exitIf c e : EStateM ε (ι → β) PUnit) := by
  cases c with
  | true => exact .throw e
  | false => exact ⟨fun _ _ _ => rfl, fun _ _ heq => heq, fun _ _ _ => rfl⟩

theorem within_pure (a : α) : (pure a : Program ε ι β α).activity.Within reads writes :=
  True.intro

theorem within_call {q : EStateM ε (ι → β) α} (h : Calls reads writes q) :
    (call q).activity.Within reads writes := by
  refine ⟨fun s s' heq => ⟨h.agrees s s' heq, ?_⟩, h.frame, fun s => True.intro⟩
  exact congrArg Activity.ended (h.outcome_eq s s' heq)

/-- What the program returns, when it does not fail. -/
def Yields (P : α → Prop) (p : Program ε ι β α) : Prop :=
  p.activity.Gives fun r => ∀ a, r = .ok a → P a

variable {P : α → Prop} {Q : γ → Prop}

theorem yields_pure {a : α} (h : P a) : (pure a : Program ε ι β α).Yields P := by
  intro b hb
  cases hb
  exact h

theorem yields_call {q : EStateM ε (ι → β) α} (h : ∀ s a s', q s = .ok a s' → P a) :
    (call q).Yields P := by
  intro s a ha
  cases hrun : q s with
  | ok b s' =>
      rw [hrun] at ha
      cases ha
      exact h s a s' hrun
  | error e s' =>
      rw [hrun] at ha
      cases ha

theorem yields_bind (hp : p.Yields P) (hf : ∀ a, P a → (f a).Yields Q) :
    (p >>= f).Yields Q := by
  refine Activity.Gives.bind hp fun r hr => ?_
  cases r with
  | ok a => exact hf a (hr a rfl)
  | error e =>
      intro b hb
      cases hb

theorem yields_any (p : Program ε ι β α) : p.Yields fun _ => True :=
  Activity.gives_of (fun _ _ _ => True.intro) p.activity

/-- What follows is asked only for what the program returns. -/
theorem within_bind_of (hp : p.activity.Within reads writes) (hyields : p.Yields P)
    (hf : ∀ a, P a → (f a).activity.Within reads writes) :
    (p >>= f).activity.Within reads writes := by
  refine Activity.Within.bind hp hyields fun r hr => ?_
  cases r with
  | ok a => exact hf a (hr a rfl)
  | error e => exact True.intro

theorem within_bind (hp : p.activity.Within reads writes)
    (hf : ∀ a, (f a).activity.Within reads writes) :
    (p >>= f).activity.Within reads writes :=
  within_bind_of hp (yields_any p) fun a _ => hf a

end Program

end Programs

/-- What is left of a party, `t`, goes on `cells` as the party `t₀` goes on `cells₀`. -/
structure Going (reads writes : Set ι) (t₀ : Activity ι β α) (cells₀ : ι → β)
    (t : Activity ι β α) (cells : ι → β) : Prop where
  within : t.Within reads writes
  result : (t.run cells).1 = (t₀.run cells₀).1
  agrees : Set.EqOn (t.run cells).2 (t₀.run cells₀).2 reads

section Going

variable {reads writes : Set ι} {t₀ t : Activity ι β α} {cells₀ cells cells' : ι → β}

theorem Going.start (h : t.Within reads writes) (cells : ι → β) :
    Going reads writes t cells t cells :=
  ⟨h, rfl, fun _ _ => rfl⟩

/-- The party takes its next act. -/
theorem Going.own {update next}
    (h : Going reads writes t₀ cells₀ (.act update next) cells) :
    Going reads writes t₀ cells₀ (next cells) (update cells) := by
  obtain ⟨_, _, hnext⟩ := h.within
  exact ⟨hnext cells, h.result, h.agrees⟩

/-- Another one changes cells the party does not look at. -/
theorem Going.other (h : Going reads writes t₀ cells₀ t cells)
    (hsame : Set.EqOn cells' cells reads) : Going reads writes t₀ cells₀ t cells' := by
  obtain ⟨hresult, hagrees⟩ := h.within.run_congr hsame
  exact ⟨h.within, hresult.trans h.result, hagrees.trans h.agrees⟩

theorem Going.ended {result : α}
    (h : Going reads writes t₀ cells₀ (.ended result) cells) :
    result = (t₀.run cells₀).1 ∧ Set.EqOn cells (t₀.run cells₀).2 reads :=
  ⟨h.result, h.agrees⟩

end Going

/-- The parties, as far as each has come, and the cells. -/
structure Config (κ ι β α : Type) where
  parties : κ → Activity ι β α
  cells : ι → β

/-- The parties of a list, each from where the one before it has ended. -/
def oneByOne (parties : κ → Activity ι β α) (order : List κ) (cells : ι → β) : ι → β :=
  order.foldl (fun cells k => ((parties k).run cells).2) cells

/-- No party changes a cell that another one looks at. -/
structure Apart (reads writes : κ → Set ι) (parties : κ → Activity ι β α) : Prop where
  within : ∀ k, (parties k).Within (reads k) (writes k)
  disjoint : ∀ j k, j ≠ k → ∀ i ∈ writes j, i ∉ reads k

/-- Every party is on the way it takes on its own from the cells `cells₀`, and what
nobody writes is as it was. -/
structure OnTheirWay (reads writes : κ → Set ι) (parties₀ : κ → Activity ι β α)
    (cells₀ : ι → β)
    (c : Config κ ι β α) : Prop where
  going : ∀ k, Going (reads k) (writes k) (parties₀ k) cells₀ (c.parties k) c.cells
  frame : ∀ i, (∀ k, i ∉ writes k) → c.cells i = cells₀ i

section Orders

variable {reads writes : κ → Set ι} {parties : κ → Activity ι β α} {cells : ι → β}
  {c c' : Config κ ι β α}

theorem Apart.start (h : Apart reads writes parties) (cells : ι → β) :
    OnTheirWay reads writes parties cells ⟨parties, cells⟩ :=
  ⟨fun k => .start (h.within k) cells, fun _ _ => rfl⟩

/-- A party that has ended has done what it does on its own. -/
theorem OnTheirWay.ended (h : OnTheirWay reads writes parties cells c) {k : κ}
    {result : α}
    (hk : c.parties k = .ended result) :
    result = ((parties k).run cells).1 ∧
      Set.EqOn c.cells ((parties k).run cells).2 (reads k) := by
  have hgoing := h.going k
  rw [hk] at hgoing
  exact hgoing.ended

/-- Where all have ended, nothing is left of the order in which they took their acts. -/
theorem OnTheirWay.cells_unique (hsub : ∀ k, writes k ⊆ reads k)
    (h : OnTheirWay reads writes parties cells c)
    (h' : OnTheirWay reads writes parties cells c')
    (hend : ∀ k, ∃ result, c.parties k = .ended result)
    (hend' : ∀ k, ∃ result, c'.parties k = .ended result) : c.cells = c'.cells := by
  funext i
  by_cases hi : ∃ k, i ∈ writes k
  · obtain ⟨k, hk⟩ := hi
    obtain ⟨_, hresult⟩ := hend k
    obtain ⟨_, hresult'⟩ := hend' k
    exact ((h.ended hresult).2 (hsub k hk)).trans ((h'.ended hresult').2 (hsub k hk)).symm
  · have hnone : ∀ k, i ∉ writes k := fun k hk => hi ⟨k, hk⟩
    rw [h.frame i hnone, h'.frame i hnone]

theorem oneByOne_congr {parties' : κ → Activity ι β α} {order : List κ}
    (h : ∀ k ∈ order, parties' k = parties k) (cells : ι → β) :
    oneByOne parties' order cells = oneByOne parties order cells := by
  induction order generalizing cells with
  | nil => rfl
  | cons k order ih =>
      have hrest :=
        ih (fun j hj => h j (List.mem_cons_of_mem k hj)) ((parties' k).run cells).2
      have hk : parties' k = parties k := h k List.mem_cons_self
      rw [hk] at hrest
      exact (congrArg (fun t => oneByOne parties' order (t.run cells).2) hk).trans hrest

end Orders

section Interleaving

variable [DecidableEq κ]

/-- Some party takes its next act. -/
inductive Act : Config κ ι β α → Config κ ι β α → Prop
  | turn {parties : κ → Activity ι β α} {cells : ι → β} {update next} (k : κ)
      (h : parties k = .act update next) :
      Act ⟨parties, cells⟩ ⟨Function.update parties k (next cells), update cells⟩

/-- Any number of acts, in any order of the parties. -/
abbrev Acts : Config κ ι β α → Config κ ι β α → Prop := Relation.ReflTransGen Act

variable {reads writes : κ → Set ι} {parties : κ → Activity ι β α} {cells : ι → β}
  {c c' : Config κ ι β α}

/-- The act of one party is not noticed by the others. -/
theorem OnTheirWay.act (hdisjoint : ∀ j k, j ≠ k → ∀ i ∈ writes j, i ∉ reads k)
    (h : OnTheirWay reads writes parties cells c) (hact : Act c c') :
    OnTheirWay reads writes parties cells c' := by
  cases hact with
  | @turn now cells' update next k hk =>
      have hmine := h.going k
      change Going _ _ _ _ (now k) _ at hmine
      rw [hk] at hmine
      obtain ⟨_, hwrites, _⟩ := hmine.within
      refine ⟨fun j => ?_, fun i hi => (hwrites cells' i (hi k)).trans (h.frame i hi)⟩
      change Going _ _ _ _ (Function.update now k (next cells') j) _
      by_cases hj : j = k
      · rw [hj, Function.update_self]
        exact hmine.own
      · rw [Function.update_of_ne hj]
        refine (h.going j).other fun i hi => hwrites cells' i fun hin => ?_
        exact hdisjoint k j (Ne.symm hj) i hin hi

theorem Apart.acts (h : Apart reads writes parties) (hacts : Acts ⟨parties, cells⟩ c) :
    OnTheirWay reads writes parties cells c := by
  induction hacts with
  | refl => exact h.start cells
  | tail _ hact ih => exact ih.act h.disjoint hact

/-- One party alone is one of the orders. -/
theorem acts_alone (parties : κ → Activity ι β α) (cells : ι → β) (k : κ) :
    Acts ⟨parties, cells⟩
      ⟨Function.update parties k (.ended ((parties k).run cells).1),
        ((parties k).run cells).2⟩ := by
  generalize hk : parties k = t
  induction t generalizing parties cells with
  | ended result =>
      have hsame : Function.update parties k (.ended result) = parties := by
        rw [← hk, Function.update_eq_self]
      unfold Activity.run
      rw [hsame]
  | act update next ih =>
      have hrest := ih cells (Function.update parties k (next cells)) (update cells)
        (Function.update_self ..)
      rw [Function.update_idem] at hrest
      exact Relation.ReflTransGen.head (.turn k hk) hrest

/-- One after the other is one of the orders, too. -/
theorem acts_oneByOne {order : List κ} (hnodup : order.Nodup)
    (parties : κ → Activity ι β α) (cells : ι → β) :
    ∃ c, Acts ⟨parties, cells⟩ c ∧ c.cells = oneByOne parties order cells ∧
      (∀ k ∈ order, ∃ result, c.parties k = .ended result) ∧
      ∀ k, k ∉ order → c.parties k = parties k := by
  induction order generalizing parties cells with
  | nil =>
      refine ⟨_, .refl, rfl, fun k hk => ?_, fun _ _ => rfl⟩
      cases hk
  | cons k order ih =>
      obtain ⟨hk, hrest⟩ := List.nodup_cons.mp hnodup
      obtain ⟨c, hacts, hcells, hended, hother⟩ := ih hrest
        (Function.update parties k (.ended ((parties k).run cells).1))
        ((parties k).run cells).2
      have hsame : ∀ j ∈ order,
          Function.update parties k (.ended ((parties k).run cells).1) j = parties j := by
        intro j hj
        refine Function.update_of_ne ?_ ..
        intro heq
        exact hk (heq ▸ hj)
      refine ⟨c, (acts_alone parties cells k).trans hacts,
        hcells.trans (oneByOne_congr hsame _), fun j hj => ?_, fun j hj => ?_⟩
      · rcases List.mem_cons.mp hj with rfl | hin
        · exact ⟨_, (hother j hk).trans (Function.update_self ..)⟩
        · exact hended j hin
      · have hne : j ≠ k := fun heq => hj (heq ▸ List.mem_cons_self)
        rw [hother j fun hin => hj (List.mem_cons_of_mem k hin),
          Function.update_of_ne hne]

/-- Whatever the order of the acts, the cells are in the end as they are when the parties
come one after the other. -/
theorem Apart.serializable (h : Apart reads writes parties)
    (hsub : ∀ k, writes k ⊆ reads k)
    {order : List κ} (hnodup : order.Nodup) (hall : ∀ k, k ∈ order)
    (hacts : Acts ⟨parties, cells⟩ c)
    (hend : ∀ k, ∃ result, c.parties k = .ended result) :
    c.cells = oneByOne parties order cells := by
  obtain ⟨c', hacts', hcells, hended, _⟩ := acts_oneByOne hnodup parties cells
  rw [← hcells]
  exact (h.acts hacts).cells_unique hsub (h.acts hacts') hend fun k => hended k (hall k)

end Interleaving

end Activities
