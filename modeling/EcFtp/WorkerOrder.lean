/-
A table of slots worked on by independent workers, one slot each.  Whatever
order the workers finish in, the table ends as if they had run one after the
other, and fails exactly when one of them does.
-/
import Mathlib.Data.List.Perm.Basic
import Mathlib.Data.List.Range

namespace WorkerOrder

universe u v

variable {α : Type u}

/-- Let the workers of the listed slots finish in that order. -/
def runOrder (work : Nat → α → Option α) :
    List Nat → List α → Option (List α)
  | [], slots => some slots
  | t :: order, slots =>
      slots[t]?.bind fun a => (work t a).bind fun a' =>
        runOrder work order (slots.set t a')

/-- Two different slots are independent of each other. -/
theorem runOrder_swap (work : Nat → α → Option α) (t u : Nat)
    (order : List Nat) (slots : List α) :
    runOrder work (t :: u :: order) slots =
      runOrder work (u :: t :: order) slots := by
  by_cases htu : t = u
  · rw [htu]
  · have hut : u ≠ t := Ne.symm htu
    simp only [runOrder, List.getElem?_set_ne htu, List.getElem?_set_ne hut]
    cases slots[t]? with
    | none => cases slots[u]? <;> simp
    | some a =>
        cases slots[u]? with
        | none => simp
        | some b =>
            simp only [Option.bind_some]
            cases work t a <;> cases work u b <;>
              simp [List.set_comm _ _ htu]

theorem runOrder_perm (work : Nat → α → Option α) {order order' : List Nat}
    (h : order.Perm order') (slots : List α) :
    runOrder work order slots = runOrder work order' slots := by
  induction h generalizing slots with
  | nil => rfl
  | cons t _ ih =>
      simp only [runOrder]
      refine Option.bind_congr fun a _ => Option.bind_congr fun a' _ => ?_
      exact ih (slots.set t a')
  | swap t u order => exact runOrder_swap work u t order slots
  | trans _ _ ih₁ ih₂ => exact (ih₁ slots).trans (ih₂ slots)

theorem runOrder_range' (work : Nat → α → Option α) (slot : Nat → α) (n : Nat)
    (finished : List α) :
    runOrder work (List.range' finished.length n)
        (finished ++ (List.range' finished.length n).map slot) =
      ((List.range' finished.length n).mapM fun t => work t (slot t)).map
        (finished ++ ·) := by
  induction n generalizing finished with
  | zero => simp [runOrder]
  | succ n ih =>
      simp only [List.range'_succ, List.map_cons, runOrder,
        List.getElem?_append_right (Nat.le_refl _), Nat.sub_self,
        List.getElem?_cons_zero, Option.bind_some, List.mapM_cons]
      cases work finished.length (slot finished.length) with
      | none => rfl
      | some a' =>
          have hrest := ih (finished ++ [a'])
          rw [List.length_append, List.length_singleton] at hrest
          have hset : (finished ++ slot finished.length ::
                (List.range' (finished.length + 1) n).map slot).set
                finished.length a' =
              (finished ++ [a']) ++
                (List.range' (finished.length + 1) n).map slot := by
            simp
          simp only [Option.bind_some, hset, hrest]
          cases (List.range' (finished.length + 1) n).mapM
              fun t => work t (slot t) with
          | none => rfl
          | some rest => simp

/-- Every order in which all workers finish computes the sequential table. -/
theorem runOrder_eq_mapM (work : Nat → α → Option α) {n : Nat}
    {order : List Nat} (h : order.Perm (List.range n)) (slot : Nat → α) :
    runOrder work order ((List.range n).map slot) =
      (List.range n).mapM fun t => work t (slot t) := by
  rw [runOrder_perm work h, List.range_eq_range']
  have hrange := runOrder_range' work slot n []
  simpa using hrange

theorem mapM_eq_some_map {β : Type v} {f : β → Option α} {g : β → α}
    {l : List β} (h : ∀ b ∈ l, f b = some (g b)) : l.mapM f = some (l.map g) := by
  induction l with
  | nil => rfl
  | cons b l ih =>
      rw [List.mapM_cons, h b List.mem_cons_self,
        ih fun c hc => h c (List.mem_cons_of_mem b hc)]
      rfl

theorem mapM_eq_none {β : Type v} {f : β → Option α} {l : List β} {b : β}
    (hb : b ∈ l) (h : f b = none) : l.mapM f = none := by
  induction l with
  | nil => cases hb
  | cons c l ih =>
      rw [List.mapM_cons]
      rcases List.mem_cons.mp hb with rfl | hmem
      · rw [h]
        rfl
      · rw [ih hmem]
        cases f c <;> rfl

/-- All workers run, whatever the order. -/
theorem runOrder_eq_some {work : Nat → α → Option α} {n : Nat}
    {order : List Nat} (horder : order.Perm (List.range n))
    {slot done : Nat → α} (h : ∀ t < n, work t (slot t) = some (done t)) :
    runOrder work order ((List.range n).map slot) =
      some ((List.range n).map done) := by
  rw [runOrder_eq_mapM work horder]
  exact mapM_eq_some_map fun t ht => h t (List.mem_range.mp ht)

/-- One worker that cannot run leaves no table, whatever the order. -/
theorem runOrder_eq_none {work : Nat → α → Option α} {n t : Nat}
    {order : List Nat} (horder : order.Perm (List.range n)) {slot : Nat → α}
    (ht : t < n) (h : work t (slot t) = none) :
    runOrder work order ((List.range n).map slot) = none := by
  rw [runOrder_eq_mapM work horder]
  exact mapM_eq_none (List.mem_range.mpr ht) h

theorem mapM_range_getElem? {f : Nat → Option α} {n : Nat} {l : List α}
    (h : (List.range n).mapM f = some l) {t : Nat} (ht : t < n) : l[t]? = f t := by
  have hall : ∀ k < n, f k ≠ none := by
    intro k hk hnone
    rw [mapM_eq_none (List.mem_range.mpr hk) hnone] at h
    cases h
  obtain ⟨a, ha⟩ := Option.ne_none_iff_exists'.mp (hall t ht)
  have hsome : ∀ k ∈ List.range n, f k = some ((f k).getD a) := by
    intro k hk
    cases hfk : f k with
    | none => exact absurd hfk (hall k (List.mem_range.mp hk))
    | some c => rfl
  rw [mapM_eq_some_map hsome] at h
  obtain rfl := Option.some.inj h
  rw [List.getElem?_map, List.getElem?_range ht, ha]
  simp [ha]

theorem length_runOrder {work : Nat → α → Option α} {order : List Nat}
    {slots done : List α} (h : runOrder work order slots = some done) :
    done.length = slots.length := by
  induction order generalizing slots with
  | nil =>
      obtain rfl := Option.some.inj h
      rfl
  | cons t order ih =>
      obtain ⟨a, _, h⟩ := Option.bind_eq_some_iff.mp h
      obtain ⟨a', _, h⟩ := Option.bind_eq_some_iff.mp h
      rw [ih h, List.length_set]

/-- What each worker leaves in its slot. -/
theorem runOrder_getElem? {work : Nat → α → Option α} {order : List Nat}
    {slots done : List α} (horder : order.Perm (List.range slots.length))
    (h : runOrder work order slots = some done) {t : Nat} (ht : t < slots.length) :
    done[t]? = slots[t]?.bind (work t) := by
  have hslots : slots = (List.range slots.length).map fun k => slots.getD k slots[t] := by
    apply List.ext_getElem
    · simp
    · intro k hk _
      simp [hk]
  rw [hslots, runOrder_eq_mapM work horder] at h
  rw [mapM_range_getElem? h ht]
  simp [ht]

/-- A counted loop over a state that may have no next value. -/
theorem foldlM_range_eq_some {f : α → Nat → Option α} {inv : Nat → α} {n : Nat}
    (h : ∀ k < n, f (inv k) k = some (inv (k + 1))) :
    (List.range n).foldlM f (inv 0) = some (inv n) := by
  induction n with
  | zero => rfl
  | succ n ih =>
      rw [List.range_succ, List.foldlM_append,
        ih fun k hk => h k (Nat.lt_succ_of_lt hk)]
      simp [h n (Nat.lt_succ_self n)]

end WorkerOrder
