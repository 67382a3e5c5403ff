/-
The deviations of the block cipher show at once: whatever the key, the first
round of `encrypt` never leads where that of the standard does.  What the
rotations of rows 2 and 3 change is nothing the round key could make up for.
-/
import EcFtp.AesDeviation

namespace EcFtp

open Rijndael

section Bytes

theorem mul_xor (a x y : Byte) : mul a (x ^^^ y) = mul a x ^^^ mul a y := by
  rw [← gMul_eq_mul, gMul_xor, gMul_eq_mul, gMul_eq_mul]

theorem mul_three (x : Byte) : mul 3 x = mul 2 x ^^^ x :=
  of_decide_eq_true (@forall_byte (fun x => decide (mul 3 x = mul 2 x ^^^ x))
    (by decide +kernel) x)

theorem eq_zero_of_mul (x : Byte) :
    (mul 2 x = 0 → x = 0) ∧ (mul 3 x = 0 → x = 0) :=
  of_decide_eq_true (@forall_byte (fun x => decide
    ((mul 2 x = 0 → x = 0) ∧ (mul 3 x = 0 → x = 0))) (by decide +kernel) x)

theorem xor_cancel_left (x y : Byte) : x ^^^ (x ^^^ y) = y := by
  rw [← UInt8.xor_assoc, UInt8.xor_self, UInt8.zero_xor]

theorem xor_left_comm (x y z : Byte) : x ^^^ (y ^^^ z) = y ^^^ (x ^^^ z) := by
  rw [← UInt8.xor_assoc, UInt8.xor_comm x y, UInt8.xor_assoc]

theorem xor_move {x y z : Byte} (h : x ^^^ y = z) : y = x ^^^ z := by
  rw [← h, xor_cancel_left]

theorem eq_of_xor_eq_zero {x y : Byte} (h : x ^^^ y = 0) : y = x :=
  (xor_move h).trans UInt8.xor_zero

/-- In column `c` the rotations change rows 2 and 3 by `u c` and `v c`, and
mixing spreads that over the column.  Not all of it can be made up for. -/
theorem mixed_differences {u₀ u₁ u₂ u₃ v₀ v₁ v₂ v₃ : Byte}
    (hu : u₀ ^^^ u₁ ^^^ u₂ ^^^ u₃ = 0) (hv : v₀ ^^^ v₁ ^^^ v₂ ^^^ v₃ = 0)
    (h₀₀ : u₀ ^^^ v₀ = 0) (h₁₁ : mul 3 u₁ ^^^ v₁ = 1)
    (h₃₃ : u₃ ^^^ mul 2 v₃ = 1)
    (h₀₁ : (u₁ ^^^ v₁) ^^^ (mul 3 u₀ ^^^ v₀) = 1)
    (h₀₂ : (u₂ ^^^ v₂) ^^^ (mul 2 u₀ ^^^ mul 3 v₀) = 1)
    (h₀₃ : (u₃ ^^^ v₃) ^^^ (u₀ ^^^ mul 2 v₀) = 1) : False := by
  obtain rfl : v₀ = u₀ := eq_of_xor_eq_zero h₀₀
  obtain rfl := xor_move h₁₁
  obtain rfl := xor_move ((UInt8.xor_comm _ _).trans h₃₃)
  have h₁ : mul 2 (u₁ ^^^ v₀) = 0 := by
    rw [mul_xor]
    calc mul 2 u₁ ^^^ mul 2 v₀
        = 1 ^^^ ((u₁ ^^^ (mul 3 u₁ ^^^ 1)) ^^^ (mul 3 v₀ ^^^ v₀)) := by
          simp [mul_three, UInt8.xor_assoc, UInt8.xor_comm, xor_left_comm]
      _ = 0 := by rw [h₀₁]; rfl
  have h₃ : mul 3 (v₃ ^^^ v₀) = 0 := by
    rw [mul_xor]
    calc mul 3 v₃ ^^^ mul 3 v₀
        = 1 ^^^ ((mul 2 v₃ ^^^ 1 ^^^ v₃) ^^^ (v₀ ^^^ mul 2 v₀)) := by
          simp [mul_three, UInt8.xor_assoc, UInt8.xor_comm, xor_left_comm]
      _ = 0 := by rw [h₀₃]; rfl
  obtain rfl : v₀ = u₁ := eq_of_xor_eq_zero ((eq_zero_of_mul _).1 h₁)
  obtain rfl : v₀ = v₃ := eq_of_xor_eq_zero ((eq_zero_of_mul _).2 h₃)
  -- the two sums leave nothing for the third column
  have hnone : (u₂ ^^^ v₂) ^^^ (mul 2 v₀ ^^^ mul 3 v₀) = 0 := by
    calc (u₂ ^^^ v₂) ^^^ (mul 2 v₀ ^^^ mul 3 v₀)
        = (v₀ ^^^ v₀ ^^^ u₂ ^^^ (mul 2 v₀ ^^^ 1)) ^^^
            (v₀ ^^^ (mul 3 v₀ ^^^ 1) ^^^ v₂ ^^^ v₀) := by
          simp [mul_three, UInt8.xor_comm, xor_left_comm]
      _ = 0 := by rw [hu, hv]; rfl
  exact absurd (hnone.symm.trans h₀₂) (by decide)

end Bytes

/-- Two columns that differ in their last two bytes, and the round keys that
would make up for it. -/
theorem column_difference {e f p q p' q' : Byte} {k k' : Word}
    (h : (Word.mix ⟨e, f, p, q⟩).xor k' = (Word.mix ⟨e, f, p', q'⟩).xor k) :
    (p ^^^ p') ^^^ (q ^^^ q') = k'.b0 ^^^ k.b0 ∧
      mul 3 (p ^^^ p') ^^^ (q ^^^ q') = k'.b1 ^^^ k.b1 ∧
      mul 2 (p ^^^ p') ^^^ mul 3 (q ^^^ q') = k'.b2 ^^^ k.b2 ∧
      (p ^^^ p') ^^^ mul 2 (q ^^^ q') = k'.b3 ^^^ k.b3 := by
  have hcancel : ∀ {a b x y x' y' l l' : Byte},
      a ^^^ b ^^^ x ^^^ y ^^^ l' = a ^^^ b ^^^ x' ^^^ y' ^^^ l →
        (x ^^^ x') ^^^ (y ^^^ y') = l' ^^^ l := by
    intro a b x y x' y' l l' h
    calc (x ^^^ x') ^^^ (y ^^^ y')
        = (a ^^^ b ^^^ x ^^^ y ^^^ l') ^^^ (a ^^^ b ^^^ x' ^^^ y' ^^^ l) ^^^
            (l' ^^^ l) := by
          simp [UInt8.xor_comm, xor_left_comm]
      _ = l' ^^^ l := by rw [h, UInt8.xor_self, UInt8.zero_xor]
  have h₀ := hcancel (congrArg Word.b0 h)
  have h₁ := hcancel (congrArg Word.b1 h)
  have h₂ := hcancel (congrArg Word.b2 h)
  have h₃ := hcancel (congrArg Word.b3 h)
  rw [← mul_xor] at h₁ h₃
  rw [← mul_xor, ← mul_xor] at h₂
  exact ⟨h₀, h₁, h₂, h₃⟩

/-- Four words of the schedule from the first of them and the last three
before it. -/
def followingWords (b c d first : Word) : State :=
  ⟨first, b.xor first, c.xor (b.xor first), d.xor (c.xor (b.xor first))⟩

/-- One round from the same substituted state: the round constant in every byte
and in the first one only, the words as rows and as columns. -/
theorem mixed_ne (y : State) (b c d g : Word) :
    ((deviating true true true).shiftRows y).mixColumns.addRoundKey
        (followingWords b c d (g.xor ⟨1, 1, 1, 1⟩)).transpose ≠
      (standard.shiftRows y).mixColumns.addRoundKey
        (followingWords b c d (g.xor ⟨1, 0, 0, 0⟩)) := by
  obtain ⟨⟨e₀, f₀, p₀, q₀⟩, ⟨e₁, f₁, p₁, q₁⟩, ⟨e₂, f₂, p₂, q₂⟩, ⟨e₃, f₃, p₃, q₃⟩⟩ := y
  intro h
  obtain ⟨h₀₀, h₁₀, h₂₀, h₃₀⟩ := @column_difference e₀ f₁ p₁ q₁ p₂ q₃ _ _
    (congrArg State.c0 h)
  obtain ⟨h₀₁, h₁₁, _, _⟩ := @column_difference e₁ f₂ p₂ q₂ p₃ q₀ _ _
    (congrArg State.c1 h)
  obtain ⟨h₀₂, _, _, _⟩ := @column_difference e₂ f₃ p₃ q₃ p₀ q₁ _ _
    (congrArg State.c2 h)
  obtain ⟨h₀₃, _, _, h₃₃⟩ := @column_difference e₃ f₀ p₀ q₀ p₁ q₂ _ _
    (congrArg State.c3 h)
  simp only [followingWords, Word.xor, State.transpose, UInt8.xor_zero]
    at h₀₀ h₁₀ h₂₀ h₃₀ h₀₁ h₁₁ h₀₂ h₀₃ h₃₃
  -- a place and its mirror image meet the same two bytes of the schedule
  refine @mixed_differences (p₁ ^^^ p₂) (p₂ ^^^ p₃) (p₃ ^^^ p₀) (p₀ ^^^ p₁)
    (q₁ ^^^ q₃) (q₂ ^^^ q₀) (q₃ ^^^ q₁) (q₀ ^^^ q₂) ?_ ?_ ?_ ?_ ?_ ?_ ?_ ?_
  · simp [UInt8.xor_comm, xor_left_comm]
  · simp [UInt8.xor_comm, xor_left_comm]
  · rw [h₀₀, UInt8.xor_self]
  · rw [h₁₁]
    simp [UInt8.xor_assoc, UInt8.xor_comm, xor_left_comm]
  · rw [h₃₃]
    simp [UInt8.xor_assoc, UInt8.xor_comm, xor_left_comm]
  · rw [h₀₁, h₁₀]
    simp [UInt8.xor_assoc, UInt8.xor_comm, xor_left_comm]
  · rw [h₀₂, h₂₀]
    simp [UInt8.xor_assoc, UInt8.xor_comm, xor_left_comm]
  · rw [h₀₃, h₃₀]
    simp [UInt8.xor_assoc, UInt8.xor_comm, xor_left_comm]

/-- Whatever the key, from no text does the first round lead where that of the
standard does. -/
theorem encryptRound_deviates {sbox : Table} (hbox : ∀ b, sbox.at b = sBox b)
    (key : Key) (text : Block) :
    stateOf (encryptRound (expkey key sbox) sbox text 0) ≠
      standard.round (.ofBytes (keyBytes key)) (stateOf text) 1 := by
  rw [← round_stateOf text hbox key 0]
  exact mixed_ne ((stateOf text).map (·.map sBox)) _ _ _
    ((State.ofBytes (keyBytes key)).c0.xor
      ((State.ofBytes (keyBytes key)).c3.rotate.map sBox))

end EcFtp
