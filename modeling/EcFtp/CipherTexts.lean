/-
What `dec_file` does with files that `enc_file` did not write: the blocks of a
ciphertext in another order, some of them left out or repeated; and what the blocks of
ciphertexts tell about those of the files.
-/
import EcFtp.FailedTransfers

namespace EcFtp

open ByteStrings

/-- A block of a block map. -/
theorem slice_mapBlocks {α β : Type} {n : Nat} (hn : 0 < n) {f : List α → List β}
    (hf : ∀ b, (f b).length = n) {xs : List α} {k : Nat} (hk : n * k + n ≤ xs.length) :
    slice (mapBlocks n f xs) (n * k) n = f (slice xs (n * k) n) := by
  have hlen : (xs.take (n * k)).length = n * k := by
    rw [List.length_take]
    omega
  have hblock : (slice xs (n * k) n).length = n := length_slice_of_le hk
  have hsplit : xs = xs.take (n * k) ++ (slice xs (n * k) n ++ xs.drop (n * k + n)) := by
    rw [← List.append_assoc, take_append_slice, List.take_append_drop]
  have hdvd : n ∣ (xs.take (n * k)).length := ⟨k, hlen⟩
  have hfirst : (mapBlocks n f (xs.take (n * k))).length = n * k := by
    rw [length_mapBlocks fun _ _ => hf _, hlen, Nat.mul_div_cancel_left k hn]
  rw [hsplit, mapBlocks_append hn f hdvd, mapBlocks_append hn f ⟨1, by omega⟩,
    mapBlocks_block hn f hblock, ← hsplit]
  exact slice_middle _ _ _ hfirst (hf _)

/-- Some of the blocks of `c`, in some order. -/
def pickBlocks (c : Bytes) (picks : List Nat) : Bytes :=
  picks.flatMap fun i => slice c (16 * i) 16

section Picks

variable {key : Key} {avars : EncAesVars} {x c : Bytes} {picks : List Nat}

theorem length_pickBlocks (h : ∀ i ∈ picks, 16 * i + 16 ≤ c.length) :
    (pickBlocks c picks).length = 16 * picks.length := by
  induction picks with
  | nil => rfl
  | cons i picks ih =>
      have hrest := ih fun j hj => h j (List.mem_cons_of_mem i hj)
      have hblock := length_slice_of_le (h i List.mem_cons_self)
      unfold pickBlocks at hrest ⊢
      rw [List.flatMap_cons, List.length_append, List.length_cons, hrest, hblock]
      omega

theorem slice_decryptBlocks {i : Nat} (hi : 16 * i + 16 ≤ c.length) :
    slice (decryptBlocks avars c) (16 * i) 16 =
      decryptBytes avars (slice c (16 * i) 16) :=
  slice_mapBlocks (by decide) (length_decryptBytes avars) hi

theorem slice_encryptBlocks {i : Nat} (hi : 16 * i + 16 ≤ x.length) :
    slice (encryptBlocks avars x) (16 * i) 16 =
      encryptBytes avars (slice x (16 * i) 16) :=
  slice_mapBlocks (by decide) (length_encryptBytes avars) hi

/-- Every block is decrypted by itself. -/
theorem decryptBlocks_pickBlocks (h : ∀ i ∈ picks, 16 * i + 16 ≤ c.length) :
    decryptBlocks avars (pickBlocks c picks) =
      pickBlocks (decryptBlocks avars c) picks := by
  induction picks with
  | nil => exact mapBlocks_nil 16 _
  | cons i picks ih =>
      have hi := h i List.mem_cons_self
      have hblock := length_slice_of_le hi
      have hrest := ih fun j hj => h j (List.mem_cons_of_mem i hj)
      unfold pickBlocks at hrest ⊢
      have hone : decryptBlocks avars (slice c (16 * i) 16) =
          decryptBytes avars (slice c (16 * i) 16) :=
        mapBlocks_block (by decide) _ hblock
      rw [List.flatMap_cons, List.flatMap_cons, decryptBlocks_append ⟨1, hblock⟩, hrest,
        slice_decryptBlocks hi, hone]

theorem lastPadByte_append {b b' : Bytes} (hb : b'.length = 16) :
    lastPadByte avars (b ++ b') = ((decryptBytes avars b').getLastD 0).toNat := by
  have hlen : (b ++ b').length - 16 = b.length := by
    rw [List.length_append]
    omega
  rw [lastPadByte, hlen, List.drop_left]

theorem pickBlocks_append {y : Bytes} (h : ∀ i ∈ picks, 16 * i + 16 ≤ x.length) :
    pickBlocks (x ++ y) picks = pickBlocks x picks := by
  unfold pickBlocks
  refine List.flatMap_congr fun i hi => ?_
  exact slice_append_left (h i hi) y

end Picks

section Files

variable {env : Env} {key : Key} {avars : EncAesVars} {x y y' : FileData}
  {picks : List Nat}

/-- A ciphertext made of whole blocks of another one, whose last block comes last. -/
structure Rearranges (y y' : FileData) (picks : List Nat) : Prop where
  within : ∀ i ∈ picks, 16 * i + 32 ≤ y.size
  bytes_eq : y'.bytes = pickBlocks y.bytes picks ++ slice y.bytes (y.size - 16) 16

theorem Rearranges.size_eq (h : Rearranges y y' picks)
    (hcipher : some y.bytes = cipherText key x.bytes) :
    y'.size = 16 * (picks.length + 1) := by
  have hlen : y.size = 16 * (x.size / 16 + 1) := length_cipherText hcipher
  have hpicks := @length_pickBlocks y.bytes picks fun i hi => by
    have hin := h.within i hi
    rw [FileData.size] at hin
    omega
  have hlast : (slice y.bytes (y.size - 16) 16).length = 16 :=
    length_slice_of_le (by rw [FileData.size] at hlen ⊢; omega)
  rw [FileData.size, h.bytes_eq, List.length_append, hpicks, hlast]
  omega

/-- The padding is where it was. -/
theorem Rearranges.decrypted (h : Rearranges y y' picks)
    (havars : encAesVars key = some avars)
    (hcipher : some y.bytes = cipherText key x.bytes) :
    decryptBlocks avars y'.bytes =
        pickBlocks x.bytes picks ++ x.bytes.drop (16 * (x.size / 16)) ++ padding x.size ∧
      lastPadByte avars y'.bytes = 16 - x.size % 16 := by
  have hlen : y.size = 16 * (x.size / 16 + 1) := length_cipherText hcipher
  have hin : ∀ i ∈ picks, 16 * i + 16 ≤ y.bytes.length := by
    intro i hi
    have hwithin := h.within i hi
    rw [FileData.size] at hwithin
    omega
  have hplain := decryptBlocks_cipherText havars hcipher
  have hpos : y.size - 16 = 16 * (x.size / 16) := by omega
  have hroom : 16 * (x.size / 16) + 16 ≤ y.bytes.length := by
    rw [FileData.size] at hlen
    omega
  have hlast : (slice y.bytes (y.size - 16) 16).length = 16 := by
    rw [hpos]
    exact length_slice_of_le hroom
  have hend : slice (x.bytes ++ padding x.size) (16 * (x.size / 16)) 16 =
      x.bytes.drop (16 * (x.size / 16)) ++ padding x.size := by
    have hdrop : (x.bytes ++ padding x.size).drop (16 * (x.size / 16)) =
        x.bytes.drop (16 * (x.size / 16)) ++ padding x.size :=
      List.drop_append_of_le_length (Nat.mul_div_le x.size 16)
    rw [slice, hdrop, List.take_of_length_le]
    rw [List.length_append, List.length_drop, padding,
      List.length_replicate, ← FileData.size]
    omega
  have hblock : decryptBytes avars (slice y.bytes (y.size - 16) 16) =
      x.bytes.drop (16 * (x.size / 16)) ++ padding x.size := by
    rw [hpos, ← slice_decryptBlocks hroom, hplain]
    exact hend
  have hdvd : 16 ∣ (pickBlocks y.bytes picks).length :=
    ⟨picks.length, length_pickBlocks hin⟩
  have hone : decryptBlocks avars (slice y.bytes (y.size - 16) 16) =
      decryptBytes avars (slice y.bytes (y.size - 16) 16) :=
    mapBlocks_block (by decide) _ hlast
  constructor
  · rw [h.bytes_eq, decryptBlocks_append hdvd,
      decryptBlocks_pickBlocks hin, hone, hblock, hplain,
      pickBlocks_append fun i hi => ?_, List.append_assoc]
    have hwithin := h.within i hi
    change 16 * i + 16 ≤ x.size
    omega
  · rw [h.bytes_eq, lastPadByte_append hlast, hblock, getLastD_append (padding_ne_nil _),
      getLastD_padding]

end Files

/-- `dec_file` takes every rearrangement of what `enc_file` has written for another
ciphertext, unless its length leaves nothing to the last thread or does not go into the
batches, and makes the same rearrangement of the file. -/
theorem decFile_rearranged (key : Key) (env : Env) (x y y' : FileData) (picks : List Nat)
    (hcode : exitCode (encFileOf env x key) = some 0)
    (hy : y.bytes = (finalState (encFileOf env x key)).out) (h : Rearranges y y' picks)
    (hnb : (y'.size / 16777216 + 1) % 2 ^ 32 ≠ 0) :
    (∀ env', exitCode (decFileOf env' y' key) = some 0 →
      (finalState (decFileOf env' y' key)).out =
        pickBlocks x.bytes picks ++ x.bytes.drop (16 * (x.size / 16))) ∧
    ∀ env' : ReliableEnv, exitCode (decFileOf env'.toEnv y' key) = some 0 ↔
      16 - x.size % 16 < y'.size % 4194304 ∧ y'.size / 16777216 + 1 < 2 ^ 32 := by
  obtain ⟨avars, havars, _⟩ := encAesVars_inverse key
  rcases encFileOf_zero hcode with ⟨_, _, hout⟩ | ⟨_, hnil⟩
  · rw [← hy] at hout
    obtain ⟨hplain, hpad⟩ := h.decrypted havars hout
    have hsize := h.size_eq hout
    refine ⟨fun env' hdec => ?_,
      fun env' => ⟨fun hdec => ?_, fun ⟨hroom, hbatches⟩ => ?_⟩⟩
    · rcases decFileOf_zero havars hdec with ⟨_, hres⟩ | ⟨hnone, _⟩
      · have hlen := congrArg List.length hplain
        rw [length_decryptBlocks, List.length_append, padding, List.length_replicate,
          ← FileData.size] at hlen
        rw [hres, hplain, hpad]
        exact List.take_left' (by omega)
      · exact absurd hnone hnb
    · rcases decFileOf_zero havars hdec with ⟨⟨hbatches, _, hroom⟩, _⟩ | ⟨hnone, _⟩
      · rw [hpad] at hroom
        exact ⟨hroom, hbatches⟩
      · exact absurd hnone hnb
    · rw [← hpad] at hroom
      exact (decFileOf_reliable env' havars hbatches (by omega) hroom).1
  · -- nothing was written, and there is nothing to rearrange
    have hempty : y.bytes = [] := hy.trans hnil
    have hsize : y.size = 0 := by rw [FileData.size, hempty, List.length_nil]
    have hpicks : picks = [] := by
      refine List.eq_nil_iff_forall_not_mem.mpr fun i hi => ?_
      have hwithin := h.within i hi
      omega
    have hempty' : y'.bytes = [] := by
      rw [h.bytes_eq, hempty, hpicks, hsize]
      rfl
    have hsize' : y'.size = 0 := by rw [FileData.size, hempty', List.length_nil]
    refine ⟨fun env' hdec => absurd hdec (decFileOf_empty hempty'), fun env' => ?_⟩
    refine iff_of_false (decFileOf_empty hempty') fun hcond => ?_
    rw [hsize'] at hcond
    omega

/-- Two whole blocks and a byte. -/
def threeBlocks : FileData where
  bytes := List.replicate 16 1 ++ (List.replicate 16 2 ++ [3])
  length_lt := by decide

/-- What `enc_file` makes of a small file. -/
theorem exists_encrypted {x : FileData} (hpos : 0 < x.size) (hsmall : x.size < 4096)
    (key : Key) :
    exitCode (encFileOf inOrderEnv.toEnv x key) = some 0 ∧
      ∃ y : FileData, y.bytes = (finalState (encFileOf inOrderEnv.toEnv x key)).out ∧
        y.size = 16 * (x.size / 16 + 1) := by
  obtain ⟨hcode, hout⟩ := @encFileOf_reliable inOrderEnv x key (by omega) (by omega)
  have hlen : (finalState (encFileOf inOrderEnv.toEnv x key)).out.length =
      16 * (x.size / 16 + 1) := length_cipherText hout
  obtain ⟨y, hy⟩ :=
    @exists_fileData (finalState (encFileOf inOrderEnv.toEnv x key)).out (by omega)
  refine ⟨hcode, y, hy, ?_⟩
  rw [FileData.size, hy, hlen]

/-- Its whole blocks change places. -/
theorem decFile_rearranged_three : ∃ y y' : FileData,
    y.bytes =
      (finalState (encFileOf inOrderEnv.toEnv threeBlocks (Vector.replicate 4 0))).out ∧
      Rearranges y y' [1, 0] ∧
      exitCode (decFileOf inOrderEnv.toEnv y' (Vector.replicate 4 0)) = some 0 ∧
      (finalState (decFileOf inOrderEnv.toEnv y' (Vector.replicate 4 0))).out =
        List.replicate 16 2 ++ (List.replicate 16 1 ++ [3]) := by
  obtain ⟨hcode, y, hy, hsize⟩ :=
    @exists_encrypted threeBlocks (by decide) (by decide) (Vector.replicate 4 0)
  have hthree : threeBlocks.size = 33 := by decide
  rw [hthree] at hsize
  have hin : ∀ i ∈ [1, 0], 16 * i + 32 ≤ y.size := by
    intro i hi
    simp only [List.mem_cons, List.not_mem_nil, or_false] at hi
    omega
  have hlen :
      (pickBlocks y.bytes [1, 0] ++ slice y.bytes (y.size - 16) 16).length = 48 := by
    have hpicks := @length_pickBlocks y.bytes [1, 0] fun i hi => by
      have hwithin := hin i hi
      rw [FileData.size] at hwithin
      omega
    have hlast : (slice y.bytes (y.size - 16) 16).length = 16 :=
      length_slice_of_le (by rw [FileData.size] at hsize ⊢; omega)
    rw [List.length_append, hpicks, hlast]
    rfl
  obtain ⟨y', hy'⟩ := @exists_fileData
    (pickBlocks y.bytes [1, 0] ++ slice y.bytes (y.size - 16) 16) (by omega)
  have hrearranges : Rearranges y y' [1, 0] := ⟨hin, hy'⟩
  have hsize' : y'.size = 48 := by rw [FileData.size, hy', hlen]
  obtain ⟨hall, hiff⟩ :=
    decFile_rearranged _ _ _ y y' [1, 0] hcode hy hrearranges (by omega)
  have hdec := (hiff inOrderEnv).mpr (by omega)
  refine ⟨y, y', hy, hrearranges, hdec, (hall inOrderEnv.toEnv hdec).trans ?_⟩
  decide

section Blocks

variable {env : Env} {key : Key} {avars : EncAesVars} {x y : FileData}

/-- A block `enc_file` has written is the block of the padded file, encrypted. -/
theorem slice_encFile (havars : encAesVars key = some avars)
    (hcode : exitCode (encFileOf env x key) = some 0)
    (hy : y.bytes = (finalState (encFileOf env x key)).out) {i : Nat}
    (hi : 16 * i + 16 ≤ y.size) :
    slice y.bytes (16 * i) 16 =
        encryptBytes avars (slice (x.bytes ++ padding x.size) (16 * i) 16) ∧
      (slice (x.bytes ++ padding x.size) (16 * i) 16).length = 16 := by
  rcases encFileOf_zero hcode with ⟨_, _, hout⟩ | ⟨_, hnil⟩
  · rw [← hy] at hout
    have hlen : y.size = 16 * (x.size / 16 + 1) := length_cipherText hout
    have hpadded : (x.bytes ++ padding x.size).length = 16 * (x.size / 16 + 1) := by
      rw [List.length_append, padding, List.length_replicate, ← FileData.size]
      omega
    rw [cipherText, havars] at hout
    have hin : 16 * i + 16 ≤ (x.bytes ++ padding x.size).length := by omega
    refine ⟨?_, length_slice_of_le hin⟩
    rw [Option.some.inj hout]
    exact slice_encryptBlocks hin
  · rw [← hy] at hnil
    rw [FileData.size, hnil, List.length_nil] at hi
    omega

end Blocks

/-- Of two files that `enc_file` has encrypted with one key, however the work was split,
two blocks are encrypted alike just when they are alike. -/
theorem encFile_blocks_eq_iff (key : Key) (env env' : Env) (x x' y y' : FileData)
    (hcode : exitCode (encFileOf env x key) = some 0)
    (hy : y.bytes = (finalState (encFileOf env x key)).out)
    (hcode' : exitCode (encFileOf env' x' key) = some 0)
    (hy' : y'.bytes = (finalState (encFileOf env' x' key)).out) (i j : Nat)
    (hi : 16 * i + 16 ≤ y.size) (hj : 16 * j + 16 ≤ y'.size) :
    slice y.bytes (16 * i) 16 = slice y'.bytes (16 * j) 16 ↔
      slice (x.bytes ++ padding x.size) (16 * i) 16 =
        slice (x'.bytes ++ padding x'.size) (16 * j) 16 := by
  obtain ⟨avars, havars, _⟩ := encAesVars_inverse key
  obtain ⟨hblock, hlen⟩ := slice_encFile havars hcode hy hi
  obtain ⟨hblock', hlen'⟩ := slice_encFile havars hcode' hy' hj
  rw [hblock, hblock']
  constructor
  · intro heq
    have hplain := congrArg (decryptBytes avars) heq
    rwa [decryptBytes_encryptBytes havars hlen,
      decryptBytes_encryptBytes havars hlen'] at hplain
  · intro heq
    rw [heq]

/-- The blocks of a file of zeroes. -/
theorem encFile_blocks_eq_zeros : ∃ y : FileData,
    y.bytes = (finalState (encFileOf inOrderEnv.toEnv (.zeros 40 (by decide))
      (Vector.replicate 4 0))).out ∧ slice y.bytes 0 16 = slice y.bytes 16 16 := by
  obtain ⟨hcode, y, hy, hsize⟩ :=
    @exists_encrypted (.zeros 40 (by decide)) (by decide) (by decide)
      (Vector.replicate 4 0)
  have hforty : (FileData.zeros 40 (by decide)).size = 40 := by decide
  rw [hforty] at hsize
  refine ⟨y, hy, ?_⟩
  exact (encFile_blocks_eq_iff (Vector.replicate 4 0) inOrderEnv.toEnv inOrderEnv.toEnv
    (.zeros 40 (by decide)) (.zeros 40 (by decide)) y y hcode hy hcode hy 0 1 (by omega)
    (by omega)).mpr (by decide)

end EcFtp
