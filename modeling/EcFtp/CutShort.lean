/-
Programs cut short.  One program stands for a run in which something may fail, the
other for the run in which nothing does.  The first does what the second does, up to a
point at which it may leave; the states are ordered by what has been done so far.
-/
import EcFtp.Frame

namespace Exec

variable {ε σ α β : Type}

variable [Preorder σ]

/-- `q` undoes nothing, and `p` goes like `q` or leaves for a reason of `E`, with no
more done than `q` has done in the end. -/
def CutShort (E : ε → Prop) (p q : EStateM ε σ α) : Prop :=
  ∀ s, s ≤ endState (q s) ∧
    (p s = q s ∨ ∃ e s', p s = .error e s' ∧ E e ∧ s' ≤ endState (q s))

namespace CutShort

variable {E : ε → Prop} {p q : EStateM ε σ α} {f g : α → EStateM ε σ β}

theorem pure (a : α) : CutShort E (pure a : EStateM ε σ α) (pure a) :=
  fun _ => ⟨le_rfl, .inl rfl⟩

theorem throw (e : ε) : CutShort E (throw e : EStateM ε σ α) (throw e) :=
  fun _ => ⟨le_rfl, .inl rfl⟩

theorem modify {h : σ → σ} (hh : ∀ s, s ≤ h s) :
    CutShort E (modify h : EStateM ε σ PUnit) (modify h) :=
  fun s => ⟨hh s, .inl rfl⟩

/-- A program that leaves at once. -/
theorem leave {e : ε} (he : E e) (h : CutShort E p q) :
    CutShort E (MonadExcept.throw e) q :=
  fun s => ⟨(h s).1, .inr ⟨e, s, rfl, he, (h s).1⟩⟩

/-- A sequence, when the values of its first part are known to be of `Q`. -/
theorem bind_of {Q : α → Prop} (hp : CutShort E p q)
    (hQ : ∀ s a s', q s = .ok a s' → Q a) (hf : ∀ a, Q a → CutShort E (f a) (g a)) :
    CutShort E (p >>= f) (q >>= g) := by
  intro s
  obtain ⟨hgrows, hcut⟩ := hp s
  cases hrun : q s with
  | ok a s₁ =>
      rw [hrun] at hgrows hcut
      rw [bind_of_ok hrun]
      obtain ⟨hgrows', hcut'⟩ := hf a (hQ s a s₁ hrun) s₁
      refine ⟨le_trans hgrows hgrows', ?_⟩
      rcases hcut with hsame | ⟨e, s', hleft, he, hle⟩
      · rw [bind_of_ok hsame]
        exact hcut'
      · exact .inr ⟨e, s', bind_of_error hleft, he, le_trans hle hgrows'⟩
  | error e₁ s₁ =>
      rw [hrun] at hgrows hcut
      rw [bind_of_error hrun]
      refine ⟨hgrows, ?_⟩
      rcases hcut with hsame | ⟨e, s', hleft, he, hle⟩
      · exact .inl (bind_of_error hsame)
      · exact .inr ⟨e, s', bind_of_error hleft, he, hle⟩

theorem bind (hp : CutShort E p q) (hf : ∀ a, CutShort E (f a) (g a)) :
    CutShort E (p >>= f) (q >>= g) :=
  bind_of (Q := fun _ => True) hp (fun _ _ _ _ => trivial) fun a _ => hf a

theorem ite {c : Prop} [Decidable c] {p' q' : EStateM ε σ α} (hthen : CutShort E p q)
    (helse : CutShort E p' q') :
    CutShort E (if c then p else p') (if c then q else q') := by
  split
  · exact hthen
  · exact helse

/-- A check both programs make. -/
theorem exitIf (c : Bool) (e : ε) :
    CutShort E (exitIf c e : EStateM ε σ PUnit) (Exec.exitIf c e) :=
  ite (throw e) (pure PUnit.unit)

/-- A check for something that does not happen to `q`. -/
theorem exitIf_false (c : Bool) {e : ε} (he : E e) :
    CutShort E (Exec.exitIf c e : EStateM ε σ PUnit) (Exec.exitIf false e) := by
  cases c with
  | true => exact leave he (exitIf false e)
  | false => exact exitIf false e

theorem forM {ι : Type} {f g : ι → EStateM ε σ PUnit} (h : ∀ i, CutShort E (f i) (g i))
    (l : List ι) : CutShort E (l.forM f) (l.forM g) := by
  induction l with
  | nil => exact pure PUnit.unit
  | cons i l ih => exact bind (h i) fun _ => ih

theorem mapM {ι : Type} {f g : ι → EStateM ε σ α} (h : ∀ i, CutShort E (f i) (g i))
    (l : List ι) : CutShort E (l.mapM f) (l.mapM g) := by
  induction l with
  | nil => exact pure []
  | cons i l ih =>
      rw [List.mapM_cons, List.mapM_cons]
      exact bind (h i) fun a => bind ih fun as => pure (a :: as)

/-- A program that never falls through is followed by nothing. -/
theorem bind_stop (f' : α → EStateM ε σ β) (hp : ∀ s a s', p s ≠ .ok a s')
    (h : CutShort E (p >>= f') (q >>= g)) : CutShort E (p >>= f) (q >>= g) := by
  intro s
  have hsame : (p >>= f) s = (p >>= f') s := by
    cases hrun : p s with
    | ok a s₁ => exact absurd hrun (hp s a s₁)
    | error e s₁ => rw [bind_of_error hrun, bind_of_error hrun]
  rw [hsame]
  exact h s

end CutShort

end Exec
