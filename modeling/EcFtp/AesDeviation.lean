/-
The block cipher against the standard.  Its tables hold the S-box, its products
are those of the field and its columns are mixed as they should be; it is
Rijndael with three deviations.  They lie in the rotation of the rows, in the
round constants and in the layout of the round keys.
-/
import EcFtp.AesInverse
import EcFtp.Rijndael

namespace EcFtp

open Rijndael

/-- The standard with some of three deviations: rows 2 and 3 are rotated by one
as well, the round constant goes into every byte of its word, a row of the state
meets a word of the round key. -/
def deviating (rows constants keys : Bool) : Variant where
  box := sBox
  shift row := if rows && row != 0 then 1 else row
  rcon b := if constants then ⟨b, b, b, b⟩ else ⟨b, 0, 0, 0⟩
  layout words := if keys then words.transpose else words

theorem deviating_none : deviating false false false = standard := rfl

/-- The bytes of a key in the order in which `expkey` takes them. -/
def keyBytes (key : Key) : Block := (key.map splitWord).flatten

/-- A row-ordered text as the state of the standard. -/
def stateOf (text : Block) : State := (State.ofBytes text).transpose

section Field

theorem timesTwo_toNat (a : Byte) :
    (if a &&& 0x80 ≠ 0 then (a <<< 1) ^^^ 0x1B else a <<< 1).toNat =
      xtime a.toNat := by
  have hall := @forall_byte (fun a => decide (
    (if a &&& 0x80 ≠ 0 then (a <<< 1) ^^^ 0x1B else a <<< 1).toNat =
      xtime a.toNat)) (by decide +kernel) a
  exact of_decide_eq_true hall

/-- The loop adds the product to what it has summed up. -/
theorem gMulLoop_eq_mulBits (counter : Nat) (a b p : Byte) :
    gMulLoop counter a b p =
      p ^^^ UInt8.ofNat (mulBits counter a.toNat b.toNat) := by
  induction counter generalizing a b p with
  | zero => simp [gMulLoop, mulBits]
  | succ counter ih =>
      have hhalf : (b >>> 1).toNat = b.toNat / 2 := by
        rw [UInt8.toNat_shiftRight]
        rfl
      have hbit : (b &&& 1).toNat = b.toNat % 2 := by
        rw [UInt8.toNat_and]
        exact Nat.and_one_is_mod _
      have hlow : (if b &&& 1 ≠ 0 then p ^^^ a else p) =
          p ^^^ UInt8.ofNat (b.toNat % 2 * a.toNat) := by
        rw [← hbit]
        rcases and_one_cases b with h | h
        · simp [h]
        · simp [h]
      simp only [gMulLoop, mulBits]
      rw [ih, timesTwo_toNat, hhalf, hlow, UInt8.ofNat_xor, UInt8.xor_assoc]

theorem gMul_eq_mul (a b : Byte) : gMul a b = mul a b := by
  rw [gMul, gMulLoop_eq_mulBits, UInt8.zero_xor]
  rfl

theorem exists_word (column : Column) : ∃ w : Word, column = w.bytes := by
  obtain ⟨a, b, c, d, rfl⟩ := column.exists_eq
  exact ⟨⟨a, b, c, d⟩, rfl⟩

theorem gmixColumn_bytes (w : Word) : gmixColumn w.bytes = w.mix.bytes := by
  simp [gmixColumn, Word.bytes, Word.mix, gMul_eq_mul]

end Field

theorem sboxOrbit_sBox :
    (sboxOrbit 256 1 1).elim false (fun orbit => (orbit ++ [(0, 0x63)]).all
      fun e => e.2.toNat.beq (sBox e.1).toNat) = true := by
  decide +kernel

theorem initializeAesSbox_sBox (sbox₀ invsbox₀ : Table) :
    ∃ sbox invsbox, initializeAesSbox sbox₀ invsbox₀ = some (sbox, invsbox) ∧
      ∀ b, sbox.at b = sBox b := by
  obtain ⟨orbit, sbox, invsbox, horbit, hinit, hentry⟩ :=
    initializeAesSbox_entries sbox₀ invsbox₀
  refine ⟨sbox, invsbox, hinit, fun b => ?_⟩
  have hall := sboxOrbit_sBox
  rw [horbit] at hall
  have hb := List.all_eq_true.mp hall _ (hentry b).1
  exact UInt8.toNat_inj.mp (Nat.eq_of_beq_eq_true hb)

section Schedule

theorem foldl_finRange_invariant {β : Type} {n : Nat} (f : β → Fin n → β)
    (P : Nat → β → Prop) {b : β} (hzero : P 0 b)
    (hstep : ∀ (i : Fin n) (b : β), P i.val b → P (i.val + 1) (f b i)) :
    P n ((List.finRange n).foldl f b) := by
  rw [← Fin.foldl_eq_foldl_finRange]
  induction n with
  | zero => exact hzero
  | succ n ih =>
      rw [Fin.foldl_succ_last]
      exact hstep (Fin.last n) _ (ih _ fun i b h => hstep i.castSucc b h)

theorem rc_eq_power (j : Fin 10) : rc[j.val] = power j.val := by
  fin_cases j <;> rfl

variable (key : Key) {sbox : Table} (hbox : ∀ b, sbox.at b = sBox b)
  (rows keys : Bool)

include hbox in
/-- The round constant goes into every byte. -/
theorem nextWord_bytes (i : Fin 44) (prev prevN : Word) :
    nextWord sbox i prev.bytes prevN.bytes =
      ((deviating rows true keys).nextWord i.val prev prevN).bytes := by
  have hrc := rc_eq_power ⟨i.val / 4 - 1, by omega⟩
  unfold nextWord Variant.nextWord
  split
  · simp [rotWord, finRange_three, ofFn_four, deviating, Word.xor, Word.bytes,
      Word.rotate, Word.map, hbox, hrc]
  · simp [ofFn_four, Word.xor, Word.bytes]

theorem exists_keyWords : ∃ words : State,
    State.ofBytes (keyBytes key) = words ∧
      key.map splitWord =
        #v[words.c0.bytes, words.c1.bytes, words.c2.bytes, words.c3.bytes] := by
  obtain ⟨w₀, h₀⟩ := exists_word (splitWord key[0])
  obtain ⟨w₁, h₁⟩ := exists_word (splitWord key[1])
  obtain ⟨w₂, h₂⟩ := exists_word (splitWord key[2])
  obtain ⟨w₃, h₃⟩ := exists_word (splitWord key[3])
  have hwords : key.map splitWord = #v[w₀.bytes, w₁.bytes, w₂.bytes, w₃.bytes] := by
    rw [← h₀, ← h₁, ← h₂, ← h₃]
    ext i hi j hj
    interval_cases i <;> simp
  refine ⟨⟨w₀, w₁, w₂, w₃⟩, ?_, hwords⟩
  rw [keyBytes, hwords]
  simp [Vector.flatten, State.ofBytes, Word.bytes]

/-- The first word the schedule holds at `i`. -/
theorem words_ofKey (i : Nat) (hi : i < 4) :
    splitWord key[i] =
      ((deviating rows true keys).words (.ofBytes (keyBytes key)) i).c0.bytes := by
  obtain ⟨words, hkey, hsplit⟩ := exists_keyWords key
  have hmap : splitWord key[i] = (key.map splitWord)[i] := by simp
  simp only [hkey, hmap, hsplit]
  interval_cases i <;> rfl

include hbox in
/-- The words are those of the key schedule. -/
theorem expandWords_bytes (i : Nat) (hi : i < 44) :
    (expandWords key sbox)[i] =
      ((deviating rows true keys).words (.ofBytes (keyBytes key)) i).c0.bytes := by
  have hwords := foldl_finRange_invariant
    (fun (words : Vector Column 44) (i : Fin 40) =>
      words.set (i.val + 4)
        (nextWord sbox ⟨i.val + 4, by omega⟩ words[i.val + 3] words[i.val]))
    (fun k words => ∀ i (hi : i < 44), i < k + 4 → words[i] =
      ((deviating rows true keys).words (.ofBytes (keyBytes key)) i).c0.bytes)
    (b := (List.finRange 4).foldl
      (fun (words : Vector Column 44) (i : Fin 4) =>
        words.set i.val (splitWord key[i.val]))
      (Vector.replicate 44 (Vector.replicate 4 0)))
    ?_ ?_
  · exact hwords i hi (by omega)
  · intro i hi hlt
    rw [← words_ofKey key rows keys i (by omega)]
    interval_cases i <;> rfl
  · intro k words hk i hi hlt
    rcases Nat.lt_or_eq_of_le (Nat.le_of_lt_succ hlt) with hlow | rfl
    · rw [Vector.getElem_set_ne _ _ (by omega)]
      exact hk i hi (by omega)
    · rw [Vector.getElem_set_self, hk _ _ (by omega), hk _ _ (by omega),
        nextWord_bytes hbox rows keys]
      rfl

include hbox in
/-- The schedule is cut into round keys of four words each. -/
theorem expkey_toBytes (i : Fin 11) :
    (expkey key sbox)[i] = ((deviating rows true keys).words
      (.ofBytes (keyBytes key)) (4 * i.val)).toBytes := by
  ext j hj
  have hword := expandWords_bytes key hbox rows keys (4 * i.val + j / 4) (by omega)
  simp only [expkey, Fin.getElem_fin, Vector.getElem_ofFn, hword]
  interval_cases j <;> rfl

end Schedule

section Rounds

variable (text : Block) {sbox : Table} (hbox : ∀ b, sbox.at b = sBox b)
  (rows constants keys : Bool)

theorem stateOf_literal (a b c d e f g h i j k l m n o p : Byte) :
    stateOf #v[a, b, c, d, e, f, g, h, i, j, k, l, m, n, o, p] =
      ⟨⟨a, e, i, m⟩, ⟨b, f, j, n⟩, ⟨c, g, k, o⟩, ⟨d, h, l, p⟩⟩ := rfl

theorem stateOf_addRoundKey_toBytes (words : State) :
    stateOf (addRoundKey text words.toBytes) =
      (stateOf text).addRoundKey words.transpose := by
  obtain ⟨a, b, c, d, e, f, g, h, i, j, k, l, m, n, o, p, rfl⟩ := text.exists_eq
  simp [addRoundKey, State.toBytes, stateOf_literal, State.addRoundKey,
    State.transpose, Word.xor]

include hbox in
/-- A row of the state meets a word of its round key. -/
theorem stateOf_addRoundKey (key : Key) (i : Fin 11) :
    stateOf (addRoundKey text (expkey key sbox)[i]) =
      (stateOf text).addRoundKey
        ((deviating rows true true).roundKey (.ofBytes (keyBytes key)) i.val) := by
  rw [expkey_toBytes key hbox rows true, stateOf_addRoundKey_toBytes]
  rfl

include hbox in
theorem stateOf_subText :
    stateOf (subText text sbox) =
      (deviating rows constants keys).subBytes (stateOf text) := by
  obtain ⟨a, b, c, d, e, f, g, h, i, j, k, l, m, n, o, p, rfl⟩ := text.exists_eq
  simp [subText, stateOf_literal, Variant.subBytes, State.map, Word.map,
    deviating, hbox]

/-- Rows 1, 2 and 3 are rotated by one. -/
theorem stateOf_shiftRows :
    stateOf (shiftRows text) =
      (deviating true constants keys).shiftRows (stateOf text) := by
  obtain ⟨a, b, c, d, e, f, g, h, i, j, k, l, m, n, o, p, rfl⟩ := text.exists_eq
  rw [shiftRows_literal, stateOf_literal, stateOf_literal]
  rfl

theorem stateOf_mixColumns :
    stateOf (mixColumns text) = (stateOf text).mixColumns := by
  obtain ⟨a, b, c, d, e, f, g, h, i, j, k, l, m, n, o, p, rfl⟩ := text.exists_eq
  rw [mixColumns, onColumn_literal _ _ _ _ _ _ _ _ _ _ _ _ _ _ _ _
    (gmixColumn_bytes ⟨a, e, i, m⟩) (gmixColumn_bytes ⟨b, f, j, n⟩)
    (gmixColumn_bytes ⟨c, g, k, o⟩) (gmixColumn_bytes ⟨d, h, l, p⟩),
    stateOf_literal, stateOf_literal]
  rfl

theorem ofBytes_eq_stateOf : State.ofBytes text = stateOf (toColumnOrder text) := by
  obtain ⟨a, b, c, d, e, f, g, h, i, j, k, l, m, n, o, p, rfl⟩ := text.exists_eq
  rw [toColumnOrder_literal]
  rfl

theorem toBytes_stateOf : (stateOf text).toBytes = toRowOrder text := by
  obtain ⟨a, b, c, d, e, f, g, h, i, j, k, l, m, n, o, p, rfl⟩ := text.exists_eq
  rw [toRowOrder_literal]
  rfl

include hbox in
/-- One round of `encrypt`. -/
theorem round_stateOf (key : Key) (i : Fin 9) :
    (deviating true true true).round (.ofBytes (keyBytes key)) (stateOf text)
        (i.val + 1) =
      stateOf (encryptRound (expkey key sbox) sbox text i) := by
  have hkey := stateOf_addRoundKey (mixColumns (shiftRows (subText text sbox)))
    hbox true key ⟨i.val + 1, by omega⟩
  rw [stateOf_mixColumns, stateOf_shiftRows _ true true,
    stateOf_subText _ hbox true true true] at hkey
  exact hkey.symm

include hbox in
/-- Encryption of a row-ordered text. -/
theorem stateOf_encrypt (key : Key) :
    stateOf (encrypt text (expkey key sbox) sbox) =
      (deviating true true true).cipher (.ofBytes (keyBytes key))
        (stateOf text) := by
  have hrounds : ∀ (start : Block) (l : List (Fin 9)),
      l.foldl (fun s i => (deviating true true true).round
          (.ofBytes (keyBytes key)) s (i.val + 1)) (stateOf start) =
        stateOf (l.foldl (encryptRound (expkey key sbox) sbox) start) :=
    fun start l => List.foldl_hom stateOf fun text i =>
      round_stateOf text hbox key i
  have hfirst := stateOf_addRoundKey text hbox true key 0
  have hlast := stateOf_addRoundKey (shiftRows (subText
    ((List.finRange 9).foldl (encryptRound (expkey key sbox) sbox)
      (addRoundKey text (expkey key sbox)[(0 : Fin 11)])) sbox)) hbox true key 10
  rw [stateOf_shiftRows _ true true, stateOf_subText _ hbox true true true,
    ← hrounds, hfirst] at hlast
  have hrange : List.range 9 = (List.finRange 9).map Fin.val := rfl
  rw [Variant.cipher, hrange, List.foldl_map]
  exact hlast

end Rounds

/-- What becomes of a block, in the order of its bytes. -/
theorem toRowOrder_encrypt {sbox : Table} (hbox : ∀ b, sbox.at b = sBox b)
    (key : Key) (block : Block) :
    toRowOrder (encrypt (toColumnOrder block) (expkey key sbox) sbox) =
      (deviating true true true).encrypt (keyBytes key) block := by
  rw [Variant.encrypt, ofBytes_eq_stateOf block, ← stateOf_encrypt _ hbox,
    toBytes_stateOf]

/-- Whatever the tables held before, under every key each block is encrypted as
by the standard with the three deviations. -/
theorem blockCipher_deviates (key : Key) (sbox₀ invsbox₀ : Table) :
    ∃ sbox invsbox, initializeAesSbox sbox₀ invsbox₀ = some (sbox, invsbox) ∧
      ∀ b, toRowOrder (encrypt (toColumnOrder b) (expkey key sbox) sbox) =
        (deviating true true true).encrypt (keyBytes key) b := by
  obtain ⟨sbox, invsbox, hinit, hbox⟩ := initializeAesSbox_sBox sbox₀ invsbox₀
  exact ⟨sbox, invsbox, hinit, toRowOrder_encrypt hbox key⟩

/-- Key and block of the example of the standard. -/
def exampleKey : Key := #v[0x03020100, 0x07060504, 0x0b0a0908, 0x0f0e0d0c]

def exampleBlock : Block :=
  #v[0x00, 0x11, 0x22, 0x33, 0x44, 0x55, 0x66, 0x77,
    0x88, 0x99, 0xaa, 0xbb, 0xcc, 0xdd, 0xee, 0xff]

/-- None of the three deviations is without effect. -/
theorem deviations_needed (rows constants keys : Bool)
    (h : ∀ (key : Key) (block : Block),
      (deviating rows constants keys).encrypt (keyBytes key) block =
        (deviating true true true).encrypt (keyBytes key) block) :
    rows = true ∧ constants = true ∧ keys = true := by
  have hcode : (deviating true true true).encrypt (keyBytes exampleKey)
      exampleBlock =
      #v[0x96, 0xd2, 0x7f, 0x35, 0x89, 0x17, 0xf5, 0xdc,
        0x2c, 0x6e, 0x80, 0xbd, 0xdf, 0xa2, 0x53, 0xa0] := by
    decide +kernel
  have hsame := (h exampleKey exampleBlock).trans hcode
  clear h hcode
  -- the seven ciphers with fewer deviations, on the same input
  cases rows <;> cases constants <;> cases keys <;>
    first
    | exact ⟨rfl, rfl, rfl⟩
    | exact absurd hsame (by decide +kernel)

/-- The standard itself is another cipher. -/
theorem blockCipher_not_standard :
    ¬ ∀ (key : Key) (sbox₀ invsbox₀ : Table),
      ∃ sbox invsbox, initializeAesSbox sbox₀ invsbox₀ = some (sbox, invsbox) ∧
        ∀ b, toRowOrder (encrypt (toColumnOrder b) (expkey key sbox) sbox) =
          standard.encrypt (keyBytes key) b := by
  intro h
  obtain ⟨sbox, invsbox, hinit, hbox⟩ := initializeAesSbox_sBox
    (Vector.replicate 256 0) (Vector.replicate 256 0)
  have hsame : ∀ (key : Key) (block : Block),
      (deviating false false false).encrypt (keyBytes key) block =
        (deviating true true true).encrypt (keyBytes key) block := by
    intro key block
    obtain ⟨sbox', invsbox', hinit', hstandard⟩ :=
      h key (Vector.replicate 256 0) (Vector.replicate 256 0)
    rw [hinit] at hinit'
    cases hinit'
    rw [deviating_none, ← hstandard block, toRowOrder_encrypt hbox key block]
  exact Bool.false_ne_true (deviations_needed false false false hsame).1

end EcFtp
