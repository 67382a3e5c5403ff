/-
What a program leaves as it was, however it ends.
-/
import EcFtp.Exec

namespace Exec

variable {ε σ τ α β : Type}

/-- The state in which a run ends, however it ends. -/
def endState : EStateM.Result ε σ α → σ
  | .ok _ s => s
  | .error _ s => s

/-- The program does not change what `f` sees of the state. -/
def Preserves (f : σ → τ) (x : EStateM ε σ α) : Prop := ∀ s, f (endState (x s)) = f s

namespace Preserves

variable {f : σ → τ} {x : EStateM ε σ α} {g : α → EStateM ε σ β}

theorem pure (a : α) : Preserves f (pure a : EStateM ε σ α) := fun _ => rfl

theorem throw (e : ε) : Preserves f (throw e : EStateM ε σ α) := fun _ => rfl

theorem modify {h : σ → σ} (hh : ∀ s, f (h s) = f s) :
    Preserves f (modify h : EStateM ε σ PUnit) := hh

theorem bind (hx : Preserves f x) (hg : ∀ a, Preserves f (g a)) :
    Preserves f (x >>= g) := by
  intro s
  have hfirst := hx s
  cases hrun : x s with
  | ok a s₁ =>
      rw [hrun] at hfirst
      rw [bind_of_ok hrun]
      exact (hg a s₁).trans hfirst
  | error e s₁ =>
      rw [hrun] at hfirst
      rw [bind_of_error hrun]
      exact hfirst

theorem ite {c : Prop} [Decidable c] {y : EStateM ε σ α} (hx : Preserves f x)
    (hy : Preserves f y) :
    Preserves f (if c then x else y) := by
  split
  · exact hx
  · exact hy

theorem exitIf (c : Bool) (e : ε) : Preserves f (Exec.exitIf c e : EStateM ε σ PUnit) :=
  ite (throw e) (pure PUnit.unit)

theorem forM {ι : Type} {g : ι → EStateM ε σ PUnit}
    (h : ∀ i, Preserves f (g i)) (l : List ι) :
    Preserves f (l.forM g) := by
  induction l with
  | nil => exact pure PUnit.unit
  | cons i l ih => exact bind (h i) fun _ => ih

theorem error {s s' : σ} {e : ε} (hx : Preserves f x) (h : x s = .error e s') :
    f s' = f s := by
  have hkept := hx s
  rw [h] at hkept
  exact hkept

end Preserves

/-- What holds where a program leaves may be shown apart from what it does when it falls
through. -/
theorem Triple.of_error {P : σ → Prop} {Q : α → σ → Prop} {E : ε → σ → Prop}
    {x : EStateM ε σ α} (h : Triple P x Q fun _ _ => True)
    (herror : ∀ s e s', P s → x s = .error e s' → E e s') : Triple P x Q E := by
  constructor
  intro s hs
  have hrun := h.run s hs
  cases hres : x s with
  | ok a s' =>
      rw [hres] at hrun
      exact hrun
  | error e s' => exact herror s e s' hs hres

/-- What holds at the end, however the program ends. -/
theorem Triple.endState {P R : σ → Prop} {x : EStateM ε σ α} {s : σ}
    (h : Triple P x (fun _ => R) fun _ => R) (hs : P s) : R (endState (x s)) := by
  have hrun := h.run s hs
  cases hres : x s with
  | ok a s' =>
      rw [hres] at hrun
      exact hrun
  | error e s' =>
      rw [hres] at hrun
      exact hrun

end Exec
