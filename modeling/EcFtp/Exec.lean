/-
Rules of pre- and postconditions for programs that carry a state and may leave
early.  A triple has two postconditions, one for falling through and one for
leaving, so that a bound loop or a chain of checks is verified by one invariant
and the reason of an early exit is never lost.
-/
import Mathlib

namespace Exec

variable {ε σ α β : Type}

/-- Started in a state satisfying `P`, the program falls through with a value
and state satisfying `Q`, or leaves with a reason and state satisfying `E`. -/
structure Triple (P : σ → Prop) (x : EStateM ε σ α) (Q : α → σ → Prop)
    (E : ε → σ → Prop) : Prop where
  run : ∀ s, P s →
    match x s with
    | .ok a s' => Q a s'
    | .error e s' => E e s'

variable {P P' : σ → Prop} {Q Q' : α → σ → Prop} {R : β → σ → Prop}
  {E E' : ε → σ → Prop}

theorem Triple.conseq {x : EStateM ε σ α} (h : Triple P' x Q' E')
    (hpre : ∀ s, P s → P' s) (hpost : ∀ a s, Q' a s → Q a s)
    (hexit : ∀ e s, E' e s → E e s) : Triple P x Q E := by
  constructor
  intro s hs
  have hx := h.run s (hpre s hs)
  cases hrun : x s with
  | ok a s' =>
      rw [hrun] at hx
      exact hpost a s' hx
  | error e s' =>
      rw [hrun] at hx
      exact hexit e s' hx

theorem Triple.pre {x : EStateM ε σ α} (h : Triple P' x Q E)
    (hpre : ∀ s, P s → P' s) : Triple P x Q E :=
  h.conseq hpre (fun _ _ hq => hq) (fun _ _ he => he)

theorem Triple.post {x : EStateM ε σ α} (h : Triple P x Q' E)
    (hpost : ∀ a s, Q' a s → Q a s) : Triple P x Q E :=
  h.conseq (fun _ hp => hp) hpost (fun _ _ he => he)

/-- A fact about the start state may be taken out of the precondition. -/
theorem Triple.assume {p : Prop} {x : EStateM ε σ α}
    (h : p → Triple P x Q E) : Triple (fun s => p ∧ P s) x Q E :=
  ⟨fun s hs => (h hs.1).run s hs.2⟩

theorem Triple.exists {ι : Type} {A : ι → σ → Prop} {x : EStateM ε σ α}
    (h : ∀ i, Triple (A i) x Q E) : Triple (fun s => ∃ i, A i s) x Q E :=
  ⟨fun s ⟨i, hs⟩ => (h i).run s hs⟩

theorem Triple.of_pre {x : EStateM ε σ α}
    (h : ∀ s, P s → Triple (fun s' => s' = s) x Q E) : Triple P x Q E :=
  ⟨fun s hs => (h s hs).run s rfl⟩

theorem Triple.pure {a : α} (h : ∀ s, P s → Q a s) :
    Triple P (pure a : EStateM ε σ α) Q E :=
  ⟨fun s hs => h s hs⟩

theorem Triple.throw {e : ε} (h : ∀ s, P s → E e s) :
    Triple P (throw e : EStateM ε σ α) Q E :=
  ⟨fun s hs => h s hs⟩

theorem Triple.modify {f : σ → σ} {Q : PUnit → σ → Prop}
    (h : ∀ s, P s → Q ⟨⟩ (f s)) :
    Triple P (modify f : EStateM ε σ PUnit) Q E :=
  ⟨fun s hs => h s hs⟩

theorem bind_of_ok {x : EStateM ε σ α} {f : α → EStateM ε σ β} {s s' : σ}
    {a : α} (h : x s = .ok a s') : (x >>= f) s = f a s' := by
  simp only [bind, EStateM.bind, h]

theorem bind_of_error {x : EStateM ε σ α} {f : α → EStateM ε σ β} {s s' : σ}
    {e : ε} (h : x s = .error e s') : (x >>= f) s = .error e s' := by
  simp only [bind, EStateM.bind, h]

/-- A sequence that falls through does so after its first part. -/
theorem ok_of_bind {x : EStateM ε σ α} {f : α → EStateM ε σ β} {s s' : σ} {b : β}
    (h : (x >>= f) s = .ok b s') :
    ∃ a s₁, x s = .ok a s₁ ∧ f a s₁ = .ok b s' := by
  cases hrun : x s with
  | ok a s₁ =>
      rw [bind_of_ok hrun] at h
      exact ⟨a, s₁, rfl, h⟩
  | error e s₁ =>
      rw [bind_of_error hrun] at h
      cases h

/-- A sequence that leaves does so in its first part or behind it. -/
theorem error_of_bind {x : EStateM ε σ α} {f : α → EStateM ε σ β} {s s' : σ} {e : ε}
    (h : (x >>= f) s = .error e s') :
    x s = .error e s' ∨ ∃ a s₁, x s = .ok a s₁ ∧ f a s₁ = .error e s' := by
  cases hrun : x s with
  | ok a s₁ =>
      rw [bind_of_ok hrun] at h
      exact .inr ⟨a, s₁, rfl, h⟩
  | error e₁ s₁ =>
      rw [bind_of_error hrun] at h
      cases h
      exact .inl rfl

theorem Triple.bind {x : EStateM ε σ β} {f : β → EStateM ε σ α}
    (hx : Triple P x R E) (hf : ∀ b, Triple (R b) (f b) Q E) :
    Triple P (x >>= f) Q E := by
  constructor
  intro s hs
  have hfirst := hx.run s hs
  cases hrun : x s with
  | ok b s' =>
      rw [hrun] at hfirst
      rw [bind_of_ok hrun]
      exact (hf b).run s' hfirst
  | error e s' =>
      rw [hrun] at hfirst
      rw [bind_of_error hrun]
      exact hfirst

/-- What follows a program that does not fall through does not matter. -/
theorem Triple.bind_stop {x : EStateM ε σ β} {f : β → EStateM ε σ α}
    (hx : Triple P x (fun _ _ => False) E) : Triple P (x >>= f) Q E :=
  Triple.bind hx fun _ => ⟨fun _ hs => hs.elim⟩

theorem Triple.ite {c : Prop} [Decidable c] {x y : EStateM ε σ α}
    (hthen : c → Triple P x Q E) (helse : ¬ c → Triple P y Q E) :
    Triple P (if c then x else y) Q E := by
  by_cases hc : c
  · simpa [hc] using hthen hc
  · simpa [hc] using helse hc

/-- Leave with `e` when `c` holds. -/
def exitIf (c : Bool) (e : ε) : EStateM ε σ PUnit :=
  if c then throw e else pure ⟨⟩

theorem Triple.exitIf {c : Bool} {e : ε} {Q : PUnit → σ → Prop}
    (hexit : c = true → ∀ s, P s → E e s)
    (hfall : c = false → ∀ s, P s → Q ⟨⟩ s) :
    Triple P (exitIf c e : EStateM ε σ PUnit) Q E := by
  unfold Exec.exitIf
  cases c with
  | true => exact Triple.throw (hexit rfl)
  | false => exact Triple.pure (hfall rfl)

theorem forM_append (f : α → EStateM ε σ PUnit) (xs ys : List α) :
    (xs ++ ys).forM f = (xs.forM f >>= fun _ => ys.forM f) := by
  induction xs with
  | nil => rfl
  | cons x xs ih =>
      funext s
      change (f x >>= fun _ => (xs ++ ys).forM f) s =
        ((f x >>= fun _ => xs.forM f) >>= fun _ => ys.forM f) s
      rw [ih, bind_assoc]

/-- A counted loop: `I k` holds when the body is entered with index `k`. -/
theorem Triple.forM_range {n : Nat} {f : Nat → EStateM ε σ PUnit}
    (I : Nat → σ → Prop)
    (hbody : ∀ k < n, Triple (I k) (f k) (fun _ => I (k + 1)) E) :
    Triple (I 0) ((List.range n).forM f) (fun _ => I n) E := by
  induction n with
  | zero => exact Triple.pure (fun _ hs => hs)
  | succ n ih =>
      rw [List.range_succ, forM_append]
      refine Triple.bind (ih fun k hk => hbody k (by omega)) fun _ => ?_
      refine Triple.bind (hbody n (by omega)) fun _ => ?_
      exact Triple.pure (fun _ hs => hs)

/-- A counted loop whose last iteration is of a different kind. -/
theorem Triple.forM_range_succ {n : Nat} {f : Nat → EStateM ε σ PUnit}
    {Q : PUnit → σ → Prop} (I : Nat → σ → Prop)
    (hbody : ∀ k < n, Triple (I k) (f k) (fun _ => I (k + 1)) E)
    (hlast : Triple (I n) (f n) Q E) :
    Triple (I 0) ((List.range (n + 1)).forM f) Q E := by
  rw [List.range_succ, forM_append]
  refine Triple.bind (Triple.forM_range I hbody) fun _ => ?_
  exact Triple.bind hlast fun _ => Triple.pure (fun _ hs => hs)

theorem mapM_range_succ (f : Nat → EStateM ε σ α) (n : Nat) :
    (List.range (n + 1)).mapM f =
      ((List.range n).mapM f >>= fun l => f n >>= fun a => pure (l ++ [a])) := by
  rw [List.range_succ, List.mapM_append]
  simp

/-- A counted loop that collects one value from each iteration. -/
theorem Triple.mapM_range {n : Nat} {f : Nat → EStateM ε σ α} {g : Nat → α}
    (hbody : ∀ k < n, Triple P (f k) (fun a s => a = g k ∧ P s) E) :
    Triple P ((List.range n).mapM f)
      (fun l s => l = (List.range n).map g ∧ P s) E := by
  induction n with
  | zero => exact Triple.pure (fun _ hs => ⟨rfl, hs⟩)
  | succ n ih =>
      rw [mapM_range_succ]
      refine Triple.bind (ih fun k hk => hbody k (by omega)) fun l => ?_
      refine Triple.assume fun hl => ?_
      refine Triple.bind (hbody n (by omega)) fun a => ?_
      refine Triple.assume fun ha => Triple.pure fun s hs => ⟨?_, hs⟩
      rw [hl, ha, List.range_succ, List.map_append, List.map_singleton]

/-- A counted loop with an iteration that does not fall through. -/
theorem Triple.mapM_range_stop {n m : Nat} {f : Nat → EStateM ε σ α}
    (hm : m < n) (hbody : ∀ k < m, Triple P (f k) (fun _ => P) E)
    (hstop : Triple P (f m) (fun _ _ => False) E) {Q : List α → σ → Prop} :
    Triple P ((List.range n).mapM f) Q E := by
  have hbefore : ∀ k ≤ m, Triple P ((List.range k).mapM f) (fun _ => P) E := by
    intro k
    induction k with
    | zero => exact fun _ => Triple.pure fun _ hs => hs
    | succ k ih =>
        intro hk
        rw [mapM_range_succ]
        refine Triple.bind (ih (by omega)) fun l => ?_
        refine Triple.bind (hbody k (by omega)) fun a => ?_
        exact Triple.pure fun _ hs => hs
  obtain ⟨rest, hrest⟩ : ∃ rest, List.range n = List.range m ++ m :: rest := by
    refine ⟨(List.range n).drop (m + 1), ?_⟩
    apply List.ext_getElem
    · simp
      omega
    · intro i hi _
      rcases Nat.lt_trichotomy i m with hlt | rfl | hgt
      · simp [hlt]
      · simp
      · obtain ⟨j, rfl⟩ : ∃ j, i = m + (j + 1) := ⟨i - m - 1, by omega⟩
        simp
        omega
  rw [hrest, List.mapM_append, List.mapM_cons]
  refine Triple.bind (hbefore m (Nat.le_refl m)) fun l => ?_
  exact Triple.bind_stop (Triple.bind_stop hstop)

end Exec
