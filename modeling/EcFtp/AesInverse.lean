/-
Decryption of a block undoes its encryption.  The table loop is followed once
to a list of entries without repetitions; the column maps are inverse because
multiplication in the field is additive; rows, round keys and rounds are undone
one by one.
-/
import EcFtp.Aes

namespace EcFtp

/-- The entries `(p, xform q)` the table loop stores, in order. -/
def sboxOrbit : Nat → Byte → Byte → Option (List (Byte × Byte))
  | 0, _, _ => none
  | fuel + 1, p, q =>
      let p := timesThree p
      let q := divThree q
      if p = 1 then some [(p, xform q)]
      else (sboxOrbit fuel p q).map ((p, xform q) :: ·)

/-- Store the entries in both tables. -/
def putEntries (tables : Table × Table) (entries : List (Byte × Byte)) :
    Table × Table :=
  entries.foldl (fun tables e =>
    (tables.1.put e.1 e.2, tables.2.put e.2 e.1)) tables

theorem sboxLoop_eq_orbit (fuel : Nat) (p q : Byte) (tables : Table × Table) :
    sboxLoop fuel p q tables =
      (sboxOrbit fuel p q).map (putEntries tables) := by
  induction fuel generalizing p q tables with
  | zero => rfl
  | succ fuel ih =>
      simp only [sboxLoop, sboxOrbit]
      split
      · rfl
      · rw [ih, Option.map_map]
        rfl

def noDup : List Nat → Bool
  | [] => true
  | n :: ns => !ns.any (Nat.beq n) && noDup ns

theorem nodup_of_noDup {ns : List Nat} (h : noDup ns = true) : ns.Nodup := by
  induction ns with
  | nil => exact List.nodup_nil
  | cons n ns ih =>
      simp only [noDup, Bool.and_eq_true, Bool.not_eq_true',
        List.any_eq_false] at h
      refine List.nodup_cons.mpr ⟨fun hmem => ?_, ih h.2⟩
      exact h.1 n hmem (Nat.beq_refl n)

/-- Every byte is a key, no key and no value occurs twice. -/
def completeTable (entries : List (Byte × Byte)) : Bool :=
  noDup (entries.map fun e => e.1.toNat) &&
    noDup (entries.map fun e => e.2.toNat) &&
    (List.range 256).all fun n => entries.any fun e => Nat.beq n e.1.toNat

/-- The loop stores an entry for every nonzero byte, the line after it the
entry of zero. -/
theorem sboxOrbit_complete :
    (sboxOrbit 256 1 1).elim false
      (fun entries => completeTable (entries ++ [(0, 0x63)])) = true := by
  decide +kernel

theorem exists_sboxOrbit :
    ∃ orbit, sboxOrbit 256 1 1 = some orbit ∧
      (∀ sbox invsbox, initializeAesSbox sbox invsbox =
        some (putEntries (sbox, invsbox) (orbit ++ [(0, 0x63)]))) ∧
      completeTable (orbit ++ [(0, 0x63)]) = true := by
  have hcomplete := sboxOrbit_complete
  cases horbit : sboxOrbit 256 1 1 with
  | none =>
      rw [horbit] at hcomplete
      cases hcomplete
  | some orbit =>
      rw [horbit] at hcomplete
      refine ⟨orbit, rfl, fun sbox invsbox => ?_, hcomplete⟩
      rw [initializeAesSbox, sboxLoop_eq_orbit, horbit, putEntries,
        List.foldl_append]
      rfl

theorem Table.at_put_self (table : Table) (i b : Byte) :
    (table.put i b).at i = b := by
  simp [Table.put, Table.at]

theorem Table.at_put_of_ne (table : Table) {i j : Byte} (b : Byte)
    (h : i ≠ j) : (table.put i b).at j = table.at j := by
  have hne : i.toNat ≠ j.toNat := fun heq => h (UInt8.toNat_inj.mp heq)
  simp [Table.put, Table.at, Vector.getElem_set_ne _ _ hne]

theorem putEntries_at_of_not_mem (entries : List (Byte × Byte))
    (tables : Table × Table) {b : Byte} :
    (b ∉ entries.map Prod.fst → (putEntries tables entries).1.at b =
      tables.1.at b) ∧
    (b ∉ entries.map Prod.snd → (putEntries tables entries).2.at b =
      tables.2.at b) := by
  induction entries generalizing tables with
  | nil => exact ⟨fun _ => rfl, fun _ => rfl⟩
  | cons e entries ih =>
      simp only [List.map_cons, List.mem_cons, not_or]
      obtain ⟨hfst, hsnd⟩ := ih (tables.1.put e.1 e.2, tables.2.put e.2 e.1)
      constructor
      · rintro ⟨hne, hmem⟩
        exact (hfst hmem).trans (Table.at_put_of_ne _ _ (Ne.symm hne))
      · rintro ⟨hne, hmem⟩
        exact (hsnd hmem).trans (Table.at_put_of_ne _ _ (Ne.symm hne))

theorem putEntries_at_of_mem {entries : List (Byte × Byte)}
    (hfst : (entries.map Prod.fst).Nodup)
    (hsnd : (entries.map Prod.snd).Nodup) (tables : Table × Table)
    {e : Byte × Byte} (he : e ∈ entries) :
    (putEntries tables entries).1.at e.1 = e.2 ∧
      (putEntries tables entries).2.at e.2 = e.1 := by
  induction entries generalizing tables with
  | nil => cases he
  | cons head entries ih =>
      rw [List.map_cons, List.nodup_cons] at hfst hsnd
      rcases List.mem_cons.mp he with rfl | hmem
      · obtain ⟨hkeep, hkeep'⟩ := putEntries_at_of_not_mem entries
          (tables.1.put e.1 e.2, tables.2.put e.2 e.1) (b := e.1)
        have hkeepInv := (putEntries_at_of_not_mem entries
          (tables.1.put e.1 e.2, tables.2.put e.2 e.1) (b := e.2)).2
        exact ⟨(hkeep hfst.1).trans (Table.at_put_self _ _ _),
          (hkeepInv hsnd.1).trans (Table.at_put_self _ _ _)⟩
      · exact ih hfst.2 hsnd.2 _ hmem

theorem putEntries_of_complete {entries : List (Byte × Byte)}
    (hcomplete : completeTable entries = true) (tables : Table × Table)
    (b : Byte) :
    (b, (putEntries tables entries).1.at b) ∈ entries ∧
      (putEntries tables entries).2.at ((putEntries tables entries).1.at b) =
        b := by
  simp only [completeTable, Bool.and_eq_true] at hcomplete
  obtain ⟨⟨hfst, hsnd⟩, hall⟩ := hcomplete
  have hnodupFst : (entries.map Prod.fst).Nodup := by
    have := nodup_of_noDup hfst
    rw [← Function.comp_def UInt8.toNat Prod.fst, ← List.map_map] at this
    exact this.of_map _
  have hnodupSnd : (entries.map Prod.snd).Nodup := by
    have := nodup_of_noDup hsnd
    rw [← Function.comp_def UInt8.toNat Prod.snd, ← List.map_map] at this
    exact this.of_map _
  have hkey := List.all_eq_true.mp hall b.toNat
    (List.mem_range.mpr b.toNat_lt)
  obtain ⟨e, he, hbeq⟩ := List.any_eq_true.mp hkey
  have hb : b = e.1 := UInt8.toNat_inj.mp (Nat.eq_of_beq_eq_true hbeq)
  obtain ⟨hat, hinv⟩ := putEntries_at_of_mem hnodupFst hnodupSnd tables he
  rw [hb, hat]
  exact ⟨he, hinv⟩

/-- Whatever the memory held, the two tables are built from the entries of the
loop and the one of zero. -/
theorem initializeAesSbox_entries (sbox invsbox : Table) :
    ∃ orbit sbox' invsbox', sboxOrbit 256 1 1 = some orbit ∧
      initializeAesSbox sbox invsbox = some (sbox', invsbox') ∧
      ∀ b, (b, sbox'.at b) ∈ orbit ++ [(0, 0x63)] ∧
        invsbox'.at (sbox'.at b) = b := by
  obtain ⟨orbit, horbit, hinit, hcomplete⟩ := exists_sboxOrbit
  exact ⟨orbit, _, _, horbit, hinit sbox invsbox,
    putEntries_of_complete hcomplete (sbox, invsbox)⟩

/-- The second table undoes the first. -/
theorem initializeAesSbox_inverse (sbox invsbox : Table) :
    ∃ sbox' invsbox', initializeAesSbox sbox invsbox = some (sbox', invsbox') ∧
      ∀ b, invsbox'.at (sbox'.at b) = b := by
  obtain ⟨_, sbox', invsbox', _, hinit, hall⟩ :=
    initializeAesSbox_entries sbox invsbox
  exact ⟨sbox', invsbox', hinit, fun b => (hall b).2⟩

theorem forall_byte {f : Byte → Bool}
    (h : (List.range 256).all (fun n => f (UInt8.ofNat n)) = true) (b : Byte) :
    f b = true := by
  have hb := List.all_eq_true.mp h b.toNat (List.mem_range.mpr b.toNat_lt)
  rwa [UInt8.ofNat_toNat] at hb

theorem xor_and_one (x y : Byte) :
    (x ^^^ y) &&& 1 = (x &&& 1) ^^^ (y &&& 1) := by
  apply UInt8.toBitVec_inj.mp
  simp only [UInt8.toBitVec_and, UInt8.toBitVec_xor]
  ext i hi
  simp only [BitVec.getElem_and, BitVec.getElem_xor]
  cases x.toBitVec[i] <;> cases y.toBitVec[i] <;> simp

theorem and_one_cases (x : Byte) : x &&& 1 = 0 ∨ x &&& 1 = 1 := by
  have hmod : (x &&& 1).toNat = x.toNat % 2 := by
    rw [UInt8.toNat_and]
    exact Nat.and_one_is_mod _
  rcases Nat.mod_two_eq_zero_or_one x.toNat with h | h
  · exact Or.inl (UInt8.toNat_inj.mp (hmod.trans h))
  · exact Or.inr (UInt8.toNat_inj.mp (hmod.trans h))

/-- Multiplication is additive in the multiplied byte.  The accumulator is
split along, so that the induction goes through the loop as it is. -/
theorem gMulLoop_xor (counter : Nat) (a x y p q : Byte) :
    gMulLoop counter a (x ^^^ y) (p ^^^ q) =
      gMulLoop counter a x p ^^^ gMulLoop counter a y q := by
  induction counter generalizing a x y p q with
  | zero => rfl
  | succ counter ih =>
      have hcancel : p ^^^ q = (p ^^^ a) ^^^ (q ^^^ a) := by
        calc p ^^^ q = (p ^^^ q) ^^^ (a ^^^ a) := by simp
          _ = (p ^^^ a) ^^^ (q ^^^ a) := by ac_rfl
      have hacc : (if (x ^^^ y) &&& 1 ≠ 0 then (p ^^^ q) ^^^ a else p ^^^ q) =
          (if x &&& 1 ≠ 0 then p ^^^ a else p) ^^^
            (if y &&& 1 ≠ 0 then q ^^^ a else q) := by
        rw [xor_and_one]
        rcases and_one_cases x with hx | hx
        · rcases and_one_cases y with hy | hy
          · simp [hx, hy]
          · simp [hx, hy, UInt8.xor_assoc]
        · rcases and_one_cases y with hy | hy
          · have hmove : (p ^^^ q) ^^^ a = (p ^^^ a) ^^^ q := by ac_rfl
            simpa [hx, hy] using hmove
          · simpa [hx, hy] using hcancel
      simp only [gMulLoop]
      rw [UInt8.shiftRight_xor, hacc, ih]

theorem gMul_xor (a x y : Byte) :
    gMul a (x ^^^ y) = gMul a x ^^^ gMul a y := by
  have hloop := gMulLoop_xor 8 a x y 0 0
  rwa [UInt8.xor_self] at hloop

/-- The first row of the product of the two mixing matrices; the other rows
are its rotations. -/
theorem gMul_mix_inv (x : Byte) :
    gMul 0x0e (gMul 0x02 x) ^^^ gMul 0x0b x ^^^ gMul 0x0d x ^^^
        gMul 0x09 (gMul 0x03 x) = x ∧
      gMul 0x0e (gMul 0x03 x) ^^^ gMul 0x0b (gMul 0x02 x) ^^^ gMul 0x0d x ^^^
        gMul 0x09 x = 0 ∧
      gMul 0x0e x ^^^ gMul 0x0b (gMul 0x03 x) ^^^ gMul 0x0d (gMul 0x02 x) ^^^
        gMul 0x09 x = 0 ∧
      gMul 0x0e x ^^^ gMul 0x0b x ^^^ gMul 0x0d (gMul 0x03 x) ^^^
        gMul 0x09 (gMul 0x02 x) = 0 := by
  have hall := forall_byte (f := fun x => decide (
    gMul 0x0e (gMul 0x02 x) ^^^ gMul 0x0b x ^^^ gMul 0x0d x ^^^
        gMul 0x09 (gMul 0x03 x) = x ∧
      gMul 0x0e (gMul 0x03 x) ^^^ gMul 0x0b (gMul 0x02 x) ^^^ gMul 0x0d x ^^^
        gMul 0x09 x = 0 ∧
      gMul 0x0e x ^^^ gMul 0x0b (gMul 0x03 x) ^^^ gMul 0x0d (gMul 0x02 x) ^^^
        gMul 0x09 x = 0 ∧
      gMul 0x0e x ^^^ gMul 0x0b x ^^^ gMul 0x0d (gMul 0x03 x) ^^^
        gMul 0x09 (gMul 0x02 x) = 0)) (by decide +kernel) x
  exact of_decide_eq_true hall

theorem Block.exists_eq (text : Block) :
    ∃ a b c d e f g h i j k l m n o p : Byte,
      text = #v[a, b, c, d, e, f, g, h, i, j, k, l, m, n, o, p] := by
  refine ⟨text[0], text[1], text[2], text[3], text[4], text[5], text[6],
    text[7], text[8], text[9], text[10], text[11], text[12], text[13],
    text[14], text[15], Vector.ext fun i hi => ?_⟩
  interval_cases i <;> rfl

theorem Column.exists_eq (column : Column) :
    ∃ a b c d : Byte, column = #v[a, b, c, d] := by
  refine ⟨column[0], column[1], column[2], column[3],
    Vector.ext fun i hi => ?_⟩
  interval_cases i <;> rfl

/-- One byte of a column mixed and mixed back. -/
theorem gmixColumnInv_row (a b c d : Byte) :
    gMul 0x0e (gMul 0x02 a ^^^ gMul 0x03 b ^^^ c ^^^ d) ^^^
        gMul 0x0b (a ^^^ gMul 0x02 b ^^^ gMul 0x03 c ^^^ d) ^^^
        gMul 0x0d (a ^^^ b ^^^ gMul 0x02 c ^^^ gMul 0x03 d) ^^^
        gMul 0x09 (gMul 0x03 a ^^^ b ^^^ c ^^^ gMul 0x02 d) = a := by
  simp only [gMul_xor]
  calc
    _ = (gMul 0x0e (gMul 0x02 a) ^^^ gMul 0x0b a ^^^ gMul 0x0d a ^^^
          gMul 0x09 (gMul 0x03 a)) ^^^
        (gMul 0x0e (gMul 0x03 b) ^^^ gMul 0x0b (gMul 0x02 b) ^^^ gMul 0x0d b ^^^
          gMul 0x09 b) ^^^
        (gMul 0x0e c ^^^ gMul 0x0b (gMul 0x03 c) ^^^ gMul 0x0d (gMul 0x02 c) ^^^
          gMul 0x09 c) ^^^
        (gMul 0x0e d ^^^ gMul 0x0b d ^^^ gMul 0x0d (gMul 0x03 d) ^^^
          gMul 0x09 (gMul 0x02 d)) := by ac_rfl
    _ = a ^^^ 0 ^^^ 0 ^^^ 0 := by
      rw [(gMul_mix_inv a).1, (gMul_mix_inv b).2.1, (gMul_mix_inv c).2.2.1,
        (gMul_mix_inv d).2.2.2]
    _ = a := by simp

theorem gmixColumnInv_gmixColumn (column : Column) :
    gmixColumnInv (gmixColumn column) = column := by
  obtain ⟨a, b, c, d, rfl⟩ := column.exists_eq
  have ha := gmixColumnInv_row a b c d
  have hb := gmixColumnInv_row b c d a
  have hc := gmixColumnInv_row c d a b
  have hd := gmixColumnInv_row d a b c
  simp only [gMul_xor] at ha hb hc hd
  simp only [gmixColumnInv, gmixColumn, Vector.getElem_mk,
    List.getElem_toArray, List.getElem_cons_zero, List.getElem_cons_succ,
    gMul_xor]
  have hext : ∀ w x y z : Byte, w = a → x = b → y = c → z = d →
      #v[w, x, y, z] = #v[a, b, c, d] := by
    rintro w x y z rfl rfl rfl rfl
    rfl
  refine hext _ _ _ _ ha ?_ ?_ ?_
  · exact Eq.trans (by ac_rfl) hb
  · exact Eq.trans (by ac_rfl) hc
  · exact Eq.trans (by ac_rfl) hd

section Literals

variable (a b c d e f g h i j k l m n o p : Byte)

theorem finRange_three : List.finRange 3 = [0, 1, 2] := rfl

theorem finRange_four : List.finRange 4 = [0, 1, 2, 3] := rfl

theorem ofFn_four {α : Type} (u : Fin 4 → α) :
    Vector.ofFn u = #v[u 0, u 1, u 2, u 3] := rfl

/-- Rows 1, 2 and 3 are all rotated by one. -/
theorem shiftRows_literal :
    shiftRows #v[a, b, c, d, e, f, g, h, i, j, k, l, m, n, o, p] =
      #v[a, b, c, d, f, g, h, e, j, k, l, i, n, o, p, m] := by
  simp [shiftRows, shiftRow, finRange_three]

theorem shiftRowsInv_literal :
    shiftRowsInv #v[a, b, c, d, e, f, g, h, i, j, k, l, m, n, o, p] =
      #v[a, b, c, d, h, e, f, g, l, i, j, k, p, m, n, o] := by
  simp [shiftRowsInv, shiftRowInv]

theorem toColumnOrder_literal :
    toColumnOrder #v[a, b, c, d, e, f, g, h, i, j, k, l, m, n, o, p] =
      #v[a, e, i, m, b, f, j, n, c, g, k, o, d, h, l, p] := by
  simp [toColumnOrder, finRange_four]

theorem toRowOrder_literal :
    toRowOrder #v[a, b, c, d, e, f, g, h, i, j, k, l, m, n, o, p] =
      #v[a, e, i, m, b, f, j, n, c, g, k, o, d, h, l, p] := by
  simp [toRowOrder, finRange_four]

/-- The four columns are rewritten independently of each other. -/
theorem onColumn_literal {F : Column → Column}
    {a' b' c' d' e' f' g' h' i' j' k' l' m' n' o' p' : Byte}
    (h₀ : F #v[a, e, i, m] = #v[a', e', i', m'])
    (h₁ : F #v[b, f, j, n] = #v[b', f', j', n'])
    (h₂ : F #v[c, g, k, o] = #v[c', g', k', o'])
    (h₃ : F #v[d, h, l, p] = #v[d', h', l', p']) :
    (List.finRange 4).foldl (onColumn F)
        #v[a, b, c, d, e, f, g, h, i, j, k, l, m, n, o, p] =
      #v[a', b', c', d', e', f', g', h', i', j', k', l', m', n', o', p'] := by
  simp [onColumn, finRange_four, ofFn_four, h₀, h₁, h₂, h₃]

end Literals

theorem shiftRowsInv_shiftRows (text : Block) :
    shiftRowsInv (shiftRows text) = text := by
  obtain ⟨a, b, c, d, e, f, g, h, i, j, k, l, m, n, o, p, rfl⟩ := text.exists_eq
  rw [shiftRows_literal, shiftRowsInv_literal]

/-- The two transpositions are one and the same, and their own inverse. -/
theorem toRowOrder_toColumnOrder (text : Block) :
    toRowOrder (toColumnOrder text) = text := by
  obtain ⟨a, b, c, d, e, f, g, h, i, j, k, l, m, n, o, p, rfl⟩ := text.exists_eq
  rw [toColumnOrder_literal, toRowOrder_literal]

theorem toColumnOrder_toRowOrder (text : Block) :
    toColumnOrder (toRowOrder text) = text := by
  obtain ⟨a, b, c, d, e, f, g, h, i, j, k, l, m, n, o, p, rfl⟩ := text.exists_eq
  rw [toRowOrder_literal, toColumnOrder_literal]

theorem onColumn_inverse {F G : Column → Column} (hinv : ∀ c, G (F c) = c)
    (text : Block) :
    (List.finRange 4).foldl (onColumn G)
      ((List.finRange 4).foldl (onColumn F) text) = text := by
  obtain ⟨a, b, c, d, e, f, g, h, i, j, k, l, m, n, o, p, rfl⟩ := text.exists_eq
  obtain ⟨a', e', i', m', h₀⟩ := Column.exists_eq (F #v[a, e, i, m])
  obtain ⟨b', f', j', n', h₁⟩ := Column.exists_eq (F #v[b, f, j, n])
  obtain ⟨c', g', k', o', h₂⟩ := Column.exists_eq (F #v[c, g, k, o])
  obtain ⟨d', h', l', p', h₃⟩ := Column.exists_eq (F #v[d, h, l, p])
  rw [onColumn_literal _ _ _ _ _ _ _ _ _ _ _ _ _ _ _ _ h₀ h₁ h₂ h₃]
  exact onColumn_literal _ _ _ _ _ _ _ _ _ _ _ _ _ _ _ _ (h₀ ▸ hinv _)
    (h₁ ▸ hinv _) (h₂ ▸ hinv _) (h₃ ▸ hinv _)

theorem mixColumnsInv_mixColumns (text : Block) :
    mixColumnsInv (mixColumns text) = text :=
  onColumn_inverse gmixColumnInv_gmixColumn text

theorem addRoundKey_addRoundKey (text key : Block) :
    addRoundKey (addRoundKey text key) key = text := by
  apply Vector.ext
  intro i hi
  simp [addRoundKey]

theorem subText_subText {sbox invsbox : Table}
    (hinv : ∀ b, invsbox.at (sbox.at b) = b) (text : Block) :
    subText (subText text sbox) invsbox = text := by
  apply Vector.ext
  intro i hi
  simp [subText, hinv]

section Rounds

variable (rkeys : RoundKeys) {sbox invsbox : Table}

/-- The decryption round that uses the same round key as encryption round
`i`. -/
def mirrorRound (i : Fin 9) : Fin 9 := ⟨8 - i.val, by omega⟩

theorem decryptRound_encryptRound
    (hinv : ∀ b, invsbox.at (sbox.at b) = b) (text : Block) (i : Fin 9) :
    decryptRound rkeys invsbox
        (shiftRows (subText (encryptRound rkeys sbox text i) sbox))
        (mirrorRound i) =
      shiftRows (subText text sbox) := by
  have hkey : 10 - (mirrorRound i).val - 1 = i.val + 1 := by
    simp only [mirrorRound]
    omega
  rw [decryptRound, shiftRowsInv_shiftRows, subText_subText hinv]
  simp only [encryptRound, hkey]
  rw [addRoundKey_addRoundKey, mixColumnsInv_mixColumns]

/-- The rounds are undone from the last one back; the induction keeps the
text between the row shift and the round key, where both loops cut it. -/
theorem decryptRounds_encryptRounds
    (hinv : ∀ b, invsbox.at (sbox.at b) = b) (rounds : List (Fin 9))
    (text : Block) :
    (rounds.reverse.map mirrorRound).foldl (decryptRound rkeys invsbox)
        (shiftRows (subText (rounds.foldl (encryptRound rkeys sbox) text) sbox)) =
      shiftRows (subText text sbox) := by
  induction rounds generalizing text with
  | nil => rfl
  | cons i rounds ih =>
      rw [List.reverse_cons, List.map_append, List.foldl_append,
        List.foldl_cons, ih, List.map_singleton, List.foldl_cons,
        decryptRound_encryptRound rkeys hinv, List.foldl_nil]

theorem mirrorRounds :
    (List.finRange 9).reverse.map mirrorRound = List.finRange 9 := by
  decide

/-- Decryption with the inverse table undoes encryption under any round keys. -/
theorem decrypt_encrypt (hinv : ∀ b, invsbox.at (sbox.at b) = b)
    (text : Block) :
    decrypt (encrypt text rkeys sbox) rkeys invsbox = text := by
  have hrounds := decryptRounds_encryptRounds rkeys hinv (List.finRange 9)
    (addRoundKey text rkeys[0])
  rw [mirrorRounds] at hrounds
  simp only [decrypt, encrypt]
  rw [addRoundKey_addRoundKey, hrounds, shiftRowsInv_shiftRows,
    subText_subText hinv, addRoundKey_addRoundKey]

end Rounds

/-- The tables and round keys of a call are built for every key, and their
decryption undoes their encryption. -/
theorem encAesVars_inverse (key : Key) :
    ∃ avars, encAesVars key = some avars ∧
      ∀ text, decrypt (encrypt text avars.rkeys avars.sbox) avars.rkeys
        avars.sboxinv = text := by
  obtain ⟨sbox, sboxinv, hinit, hinv⟩ := initializeAesSbox_inverse
    (Vector.replicate 256 0) (Vector.replicate 256 0)
  refine ⟨⟨sbox, sboxinv, expkey key sbox⟩, ?_, decrypt_encrypt _ hinv⟩
  rw [encAesVars, hinit]
  rfl

instance : Finite Block :=
  Finite.of_injective Vector.get fun _ _ h =>
    Vector.ext fun i hi => congrFun h ⟨i, hi⟩

section Permutation

variable (rkeys : RoundKeys) {sbox invsbox : Table}

/-- There are as many texts as ciphertexts, so each of them is one. -/
theorem encrypt_decrypt (hinv : ∀ b, invsbox.at (sbox.at b) = b) (text : Block) :
    encrypt (decrypt text rkeys invsbox) rkeys sbox = text := by
  have hleft : Function.LeftInverse (decrypt · rkeys invsbox)
      (encrypt · rkeys sbox) := decrypt_encrypt rkeys hinv
  obtain ⟨plain, rfl⟩ := Finite.surjective_of_injective hleft.injective text
  exact congrArg (encrypt · rkeys sbox) (decrypt_encrypt rkeys hinv plain)

theorem encrypt_toColumnOrder_bijective
    (hinv : ∀ b, invsbox.at (sbox.at b) = b) :
    Function.Bijective fun b => encrypt (toColumnOrder b) rkeys sbox := by
  refine Function.bijective_iff_has_inverse.mpr
    ⟨fun c => toRowOrder (decrypt c rkeys invsbox), fun b => ?_, fun c => ?_⟩
  · simp only [decrypt_encrypt rkeys hinv, toRowOrder_toColumnOrder]
  · simp only [toColumnOrder_toRowOrder, encrypt_decrypt rkeys hinv]

end Permutation

/-- Whatever the tables held before, they are built, and under every key the
blocks are permuted: decryption and the two transpositions undo encryption, and
encryption undoes them. -/
theorem blockCipher_permutation (key : Key) (sbox₀ invsbox₀ : Table) :
    ∃ sbox invsbox, initializeAesSbox sbox₀ invsbox₀ = some (sbox, invsbox) ∧
      (∀ b, toRowOrder (decrypt
        (encrypt (toColumnOrder b) (expkey key sbox) sbox)
        (expkey key sbox) invsbox) = b) ∧
      (∀ c, encrypt
        (toColumnOrder (toRowOrder (decrypt c (expkey key sbox) invsbox)))
        (expkey key sbox) sbox = c) ∧
      Function.Bijective fun b =>
        encrypt (toColumnOrder b) (expkey key sbox) sbox := by
  obtain ⟨sbox, invsbox, hinit, hinv⟩ := initializeAesSbox_inverse sbox₀ invsbox₀
  refine ⟨sbox, invsbox, hinit, fun b => ?_, fun c => ?_,
    encrypt_toColumnOrder_bijective _ hinv⟩
  · rw [decrypt_encrypt _ hinv, toRowOrder_toColumnOrder]
  · rw [toColumnOrder_toRowOrder, encrypt_decrypt _ hinv]

end EcFtp
