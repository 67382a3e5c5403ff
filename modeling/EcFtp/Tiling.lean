/-
Ranges laid end to end: where one ends the next one starts.  What they cover, they
cover once.
-/
import Mathlib

namespace Tiling

/-- The ranges lead from `start` to `stop`; each is given by its start and its
length. -/
def Tiles : Int → List (Int × Nat) → Int → Prop
  | start, [], stop => start = stop
  | start, r :: rs, stop => r.1 = start ∧ Tiles (start + r.2) rs stop

variable {start mid stop : Int} {rs ss : List (Int × Nat)} {n : Nat}

theorem Tiles.single (start : Int) (len : Nat) :
    Tiles start [(start, len)] (start + len) := ⟨rfl, rfl⟩

theorem Tiles.append (hrs : Tiles start rs mid) (hss : Tiles mid ss stop) :
    Tiles start (rs ++ ss) stop := by
  induction rs generalizing start with
  | nil =>
      obtain rfl : start = mid := hrs
      exact hss
  | cons r rs ih => exact ⟨hrs.1, ih hrs.2⟩

theorem Tiles.le (h : Tiles start rs stop) : start ≤ stop := by
  induction rs generalizing start with
  | nil => exact Int.le_of_eq h
  | cons r rs ih =>
      have hle := ih h.2
      omega

/-- One range for each index of a counted loop. -/
theorem Tiles.range (f : Nat → Int × Nat) (bound : Nat → Int)
    (hf : ∀ k < n, Tiles (bound k) [f k] (bound (k + 1))) :
    Tiles (bound 0) ((List.range n).map f) (bound n) := by
  induction n with
  | zero => exact rfl
  | succ n ih =>
      rw [List.range_succ, List.map_append]
      apply (ih fun k hk => hf k (by omega)).append
      exact hf n (by omega)

end Tiling
