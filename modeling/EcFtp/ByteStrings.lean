/-
Strings cut into pieces: slices at an offset, maps over blocks of a fixed
length, and little-endian numbers of a fixed width.
-/
import Mathlib

namespace ByteStrings

universe u v

variable {α : Type u} {β : Type v}

/-- The `len` entries of `xs` from offset `off` on, fewer at the end. -/
def slice (xs : List α) (off len : Nat) : List α := (xs.drop off).take len

@[simp] theorem length_slice (xs : List α) (off len : Nat) :
    (slice xs off len).length = min len (xs.length - off) := by
  simp [slice]

theorem length_slice_of_le {xs : List α} {off len : Nat}
    (h : off + len ≤ xs.length) : (slice xs off len).length = len := by
  rw [length_slice]
  omega

theorem take_append_slice (xs : List α) (off len : Nat) :
    xs.take off ++ slice xs off len = xs.take (off + len) := by
  rw [slice, List.take_add]

theorem slice_append_left {xs : List α} {off len : Nat}
    (h : off + len ≤ xs.length) (ys : List α) :
    slice (xs ++ ys) off len = slice xs off len := by
  rw [slice, slice, List.drop_append_of_le_length (by omega),
    List.take_append_of_le_length (by simp; omega)]

theorem slice_append_right (xs ys : List α) (off len : Nat) :
    slice (xs ++ ys) (xs.length + off) len = slice ys off len := by
  rw [slice, slice, List.drop_append, List.drop_eq_nil_of_le (by omega),
    List.nil_append, Nat.add_sub_cancel_left]

/-- The part between two others. -/
theorem slice_middle (xs ys zs : List α) {off len : Nat} (hoff : xs.length = off)
    (hlen : ys.length = len) : slice (xs ++ (ys ++ zs)) off len = ys := by
  subst hoff
  subst hlen
  rw [slice, List.drop_left, List.take_left]

theorem slice_zero_eq_take (xs : List α) (len : Nat) :
    slice xs 0 len = xs.take len := rfl

theorem slice_slice (xs : List α) (off len off' len' : Nat)
    (h : off' + len' ≤ len) :
    slice (slice xs off len) off' len' = slice xs (off + off') len' := by
  simp only [slice, List.drop_take, List.drop_drop, List.take_take]
  rw [Nat.min_eq_left (by omega)]

/-- Apply `f` to the consecutive blocks of `n` entries; an incomplete last
block is dropped. -/
def mapBlocks (n : Nat) (f : List α → List β) (xs : List α) : List β :=
  (List.range (xs.length / n)).flatMap fun k => f (slice xs (n * k) n)

@[simp] theorem mapBlocks_nil (n : Nat) (f : List α → List β) :
    mapBlocks n f [] = [] := by
  simp [mapBlocks]

theorem length_flatMap_const {m : Nat} (l : List Nat) (g : Nat → List β)
    (h : ∀ k ∈ l, (g k).length = m) : (l.flatMap g).length = m * l.length := by
  induction l with
  | nil => simp
  | cons k l ih =>
      rw [List.flatMap_cons, List.length_append, h k List.mem_cons_self,
        ih fun j hj => h j (List.mem_cons_of_mem k hj), List.length_cons,
        Nat.mul_add]
      omega

theorem block_le {n k len : Nat} (hk : k < len / n) : n * k + n ≤ len := by
  have hle : n * (k + 1) ≤ n * (len / n) := Nat.mul_le_mul_left n hk
  have hdiv := Nat.mul_div_le len n
  rw [Nat.mul_add] at hle
  omega

theorem length_mapBlocks {n : Nat} {f : List α → List β}
    (hf : ∀ b : List α, b.length = n → (f b).length = n) (xs : List α) :
    (mapBlocks n f xs).length = n * (xs.length / n) := by
  rw [mapBlocks, length_flatMap_const (m := n), List.length_range]
  intro k hk
  exact hf _ (length_slice_of_le (block_le (List.mem_range.mp hk)))

theorem mapBlocks_append {n : Nat} (hn : 0 < n) (f : List α → List β)
    {xs : List α} (hxs : n ∣ xs.length) (ys : List α) :
    mapBlocks n f (xs ++ ys) = mapBlocks n f xs ++ mapBlocks n f ys := by
  obtain ⟨q, hq⟩ := hxs
  have hlen : (xs ++ ys).length / n = q + ys.length / n := by
    rw [List.length_append, hq, Nat.mul_add_div hn]
  have hx : xs.length / n = q := by rw [hq, Nat.mul_div_cancel_left _ hn]
  simp only [mapBlocks]
  rw [hlen, hx, List.range_add, List.flatMap_append, List.flatMap_map]
  congr 1
  · refine List.flatMap_congr fun k hk => ?_
    have hkq : k < q := List.mem_range.mp hk
    have hfit : n * k + n ≤ n * q := by
      calc n * k + n = n * (k + 1) := by rw [Nat.mul_add, Nat.mul_one]
        _ ≤ n * q := Nat.mul_le_mul_left n hkq
    rw [slice_append_left (by omega)]
  · refine List.flatMap_congr fun k _ => ?_
    rw [Nat.mul_add, ← hq, slice_append_right]

theorem mapBlocks_block {n : Nat} (hn : 0 < n) (f : List α → List β)
    {b : List α} (hb : b.length = n) : mapBlocks n f b = f b := by
  have hone : b.length / n = 1 := by rw [hb, Nat.div_self hn]
  simp only [mapBlocks, hone, List.range_one, List.flatMap_cons,
    List.flatMap_nil, List.append_nil, Nat.mul_zero, slice_zero_eq_take]
  rw [List.take_of_length_le (by omega)]

/-- The blocks mapped so far, one more block. -/
theorem mapBlocks_take_succ {n : Nat} (hn : 0 < n) (f : List α → List β)
    {xs : List α} {k : Nat} (hk : n * k + n ≤ xs.length) :
    mapBlocks n f (xs.take (n * (k + 1))) =
      mapBlocks n f (xs.take (n * k)) ++ f (slice xs (n * k) n) := by
  have hlen : (xs.take (n * k)).length = n * k := by
    rw [List.length_take]
    omega
  rw [Nat.mul_add, Nat.mul_one, ← take_append_slice,
    mapBlocks_append hn f ⟨k, hlen⟩,
    mapBlocks_block hn f (length_slice_of_le hk)]

/-- Only the complete blocks matter to a block map. -/
theorem mapBlocks_take_whole {n : Nat} (hn : 0 < n) (f : List α → List β)
    (xs : List α) :
    mapBlocks n f (xs.take (n * (xs.length / n))) = mapBlocks n f xs := by
  have hmul := Nat.mul_div_le xs.length n
  have hlen : (xs.take (n * (xs.length / n))).length / n =
      xs.length / n := by
    rw [List.length_take, Nat.min_eq_left hmul, Nat.mul_div_cancel_left _ hn]
  simp only [mapBlocks]
  rw [hlen]
  refine List.flatMap_congr fun k hk => ?_
  have hin : n * k + n ≤ n * (xs.length / n) := by
    have hsucc := Nat.mul_le_mul_left n (List.mem_range.mp hk)
    rwa [Nat.mul_succ] at hsucc
  rw [← slice_zero_eq_take, slice_slice _ _ _ _ _ hin, Nat.zero_add]

/-- A block map is undone by a block map that undoes it on each block. -/
theorem mapBlocks_mapBlocks {γ : Type u} {n : Nat} (hn : 0 < n)
    {f : List α → List β} {g : List β → List γ} {h : List α → List γ}
    (hf : ∀ b : List α, b.length = n → (f b).length = n)
    (hgf : ∀ b : List α, b.length = n → g (f b) = h b) (xs : List α) :
    mapBlocks n g (mapBlocks n f xs) = mapBlocks n h xs := by
  have hprefix : ∀ k, n * k ≤ xs.length →
      mapBlocks n g (mapBlocks n f (xs.take (n * k))) =
        mapBlocks n h (xs.take (n * k)) := by
    intro k
    induction k with
    | zero => simp
    | succ k ih =>
        intro hk
        rw [Nat.mul_add, Nat.mul_one] at hk
        have hblock := length_slice_of_le hk
        have hdvd : n ∣ (mapBlocks n f (xs.take (n * k))).length := by
          rw [length_mapBlocks hf]
          exact Nat.dvd_mul_right n _
        rw [mapBlocks_take_succ hn f hk, mapBlocks_take_succ hn h hk,
          mapBlocks_append hn g hdvd, ih (by omega),
          mapBlocks_block hn g (hf _ hblock), hgf _ hblock]
  have hwhole := hprefix (xs.length / n) (Nat.mul_div_le _ _)
  rwa [mapBlocks_take_whole hn f, mapBlocks_take_whole hn h] at hwhole

theorem mapBlocks_id {n : Nat} (hn : 0 < n) {xs : List α}
    (hxs : n ∣ xs.length) : mapBlocks n (fun b => b) xs = xs := by
  obtain ⟨q, hq⟩ := hxs
  have hprefix : ∀ k, n * k ≤ xs.length →
      mapBlocks n (fun b => b) (xs.take (n * k)) = xs.take (n * k) := by
    intro k
    induction k with
    | zero => simp
    | succ k ih =>
        intro hk
        rw [Nat.mul_add, Nat.mul_one] at hk
        rw [mapBlocks_take_succ hn _ hk, ih (by omega), take_append_slice,
          Nat.mul_add, Nat.mul_one]
  have := hprefix q (by omega)
  rwa [← hq, List.take_length] at this

/-- Little endian, `width` bytes, higher digits dropped. -/
def le : Nat → Nat → List UInt8
  | 0, _ => []
  | width + 1, n => UInt8.ofNat n :: le width (n / 256)

/-- The number a little-endian byte string spells. -/
def ofLe : List UInt8 → Nat
  | [] => 0
  | b :: bs => b.toNat + 256 * ofLe bs

@[simp] theorem length_le (width n : Nat) : (le width n).length = width := by
  induction width generalizing n with
  | zero => rfl
  | succ width ih => simp [le, ih]

theorem ofLe_le {width n : Nat} (h : n < 256 ^ width) :
    ofLe (le width n) = n := by
  induction width generalizing n with
  | zero =>
      have : n = 0 := by simpa using h
      simp [this, le, ofLe]
  | succ width ih =>
      have hdiv : n / 256 < 256 ^ width := by
        rw [Nat.div_lt_iff_lt_mul (by decide)]
        simpa [Nat.pow_succ] using h
      simp only [le, ofLe, UInt8.toNat_ofNat', ih hdiv]
      omega

theorem ofLe_lt (bs : List UInt8) : ofLe bs < 256 ^ bs.length := by
  induction bs with
  | nil => simp [ofLe]
  | cons b bs ih =>
      have hb := b.toNat_lt
      simp only [ofLe, List.length_cons, Nat.pow_succ]
      omega

theorem le_ofLe (bs : List UInt8) : le bs.length (ofLe bs) = bs := by
  induction bs with
  | nil => rfl
  | cons b bs ih =>
      have hb := b.toNat_lt
      have hdiv : (b.toNat + 256 * ofLe bs) / 256 = ofLe bs := by omega
      have hlow : UInt8.ofNat (b.toNat + 256 * ofLe bs) = b := by
        apply UInt8.toNat_inj.mp
        rw [UInt8.toNat_ofNat']
        omega
      simp only [List.length_cons, le, ofLe, hdiv, hlow, ih]

/-- The number a byte string spells with a one behind it: no two strings spell
the same. -/
def rank (bs : List UInt8) : Nat := ofLe (bs ++ [1])

theorem ofLe_append (bs cs : List UInt8) :
    ofLe (bs ++ cs) = ofLe bs + 256 ^ bs.length * ofLe cs := by
  induction bs with
  | nil => simp [ofLe]
  | cons b bs ih =>
      rw [List.cons_append, ofLe, ih, ofLe, List.length_cons, Nat.pow_succ]
      ring

theorem rank_eq (bs : List UInt8) : rank bs = ofLe bs + 256 ^ bs.length := by
  have hone : ofLe [1] = 1 := rfl
  rw [rank, ofLe_append, hone, Nat.mul_one]

theorem rank_lt {bs : List UInt8} {m : Nat} (h : bs.length < m) :
    rank bs < 256 ^ m := by
  have hle : 256 ^ (bs ++ [1]).length ≤ 256 ^ m :=
    Nat.pow_le_pow_right (by decide) (by rw [List.length_append]; exact h)
  exact Nat.lt_of_lt_of_le (ofLe_lt _) hle

theorem rank_pos (bs : List UInt8) : 0 < rank bs := by
  rw [rank_eq]
  exact Nat.add_pos_right _ (Nat.pow_pos (by decide))

theorem rank_lt_of_length_lt {bs cs : List UInt8} (h : bs.length < cs.length) :
    rank bs < rank cs := by
  have hlt := rank_lt h
  rw [rank_eq cs]
  omega

theorem rank_injective {bs cs : List UInt8} (h : rank bs = rank cs) : bs = cs := by
  have hlen : bs.length = cs.length := by
    rcases Nat.lt_trichotomy bs.length cs.length with hlt | heq | hgt
    · exact absurd h (Nat.ne_of_lt (rank_lt_of_length_lt hlt))
    · exact heq
    · exact absurd h (Nat.ne_of_gt (rank_lt_of_length_lt hgt))
  have hof : ofLe bs = ofLe cs := by
    rw [rank_eq, rank_eq, hlen] at h
    omega
  calc bs = le bs.length (ofLe bs) := (le_ofLe bs).symm
    _ = le cs.length (ofLe cs) := by rw [hlen, hof]
    _ = cs := le_ofLe cs

/-- What tells all strings of one length apart does not shorten all of them:
there are more of them than shorter strings. -/
theorem exists_length_le {m : Nat} (f : List UInt8 → List UInt8)
    (hinj : ∀ bs cs, bs.length = m → cs.length = m → f bs = f cs → bs = cs) :
    ∃ bs, bs.length = m ∧ m ≤ (f bs).length := by
  by_contra hshort
  push Not at hshort
  have hmaps : Set.MapsTo (fun n => rank (f (le m n))) (Finset.range (256 ^ m))
      (Finset.Ico 1 (256 ^ m)) := by
    intro n _
    exact Finset.mem_coe.mpr (Finset.mem_Ico.mpr
      ⟨rank_pos _, rank_lt (hshort _ (length_le m n))⟩)
  have hcard : (Finset.Ico 1 (256 ^ m)).card < (Finset.range (256 ^ m)).card := by
    have hpos : 0 < 256 ^ m := Nat.pow_pos (by decide)
    rw [Nat.card_Ico, Finset.card_range]
    omega
  obtain ⟨n, hn, k, hk, hne, hsame⟩ :=
    Finset.exists_ne_map_eq_of_card_lt_of_maps_to hcard hmaps
  rw [Finset.mem_range] at hn hk
  have hle := hinj _ _ (length_le m n) (length_le m k) (rank_injective hsame)
  apply hne
  rw [← ofLe_le hn, hle, ofLe_le hk]

end ByteStrings
