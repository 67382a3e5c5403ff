/-
`enc_file` against a definition that knows no batches and no threads: the
padded plain text is cut into blocks, and each of them is encrypted once, in
the order of the file.
-/
import EcFtp.EncFile

namespace EcFtp

open ByteStrings Exec

/-- The blocks of a byte string of whole blocks. -/
def blocksOf (x : Bytes) : List Block :=
  (List.range (x.length / 16)).map fun k => toBlock (slice x (16 * k) 16)

/-- `blocks` written one behind the other. -/
def blockBytes (blocks : List Block) : Bytes := blocks.flatMap Vector.toList

/-- The plain text padded as PKCS#7 has it. -/
def pkcs7 (x : Bytes) : Bytes := x ++ padding x.length

/-- One pass over the padded plain text. -/
def sequentialCipher (key : Key) (x : Bytes) : Option Bytes :=
  (encAesVars key).map fun avars =>
    (blocksOf (pkcs7 x)).flatMap fun text =>
      (encrypt (toColumnOrder text) avars.rkeys avars.sbox).toList

theorem length_pkcs7 (x : Bytes) :
    (pkcs7 x).length = 16 * (x.length / 16 + 1) := by
  simp [pkcs7, padding]
  omega

/-- The blocks of the padded plain text are all of it, in order. -/
theorem blockBytes_blocksOf {x : Bytes} (h : 16 ∣ x.length) :
    blockBytes (blocksOf x) = x := by
  have hid : mapBlocks 16 (fun b : Bytes => b) x = x := mapBlocks_id (by decide) h
  rw [blockBytes, blocksOf, List.flatMap_map]
  refine Eq.trans (List.flatMap_congr fun k hk => ?_) hid
  exact toList_toBlock
    (length_slice_of_le (block_le (List.mem_range.mp hk)))

/-- A list of blocks can be told from its bytes. -/
theorem blockBytes_injective : Function.Injective blockBytes := by
  intro blocks
  induction blocks with
  | nil =>
      intro others h
      cases others with
      | nil => rfl
      | cons text others =>
          have hlen := congrArg List.length h
          simp [blockBytes] at hlen
          omega
  | cons text blocks ih =>
      intro others h
      cases others with
      | nil =>
          have hlen := congrArg List.length h
          simp [blockBytes] at hlen
      | cons text' others =>
          have hsplit : text.toList ++ blockBytes blocks =
              text'.toList ++ blockBytes others := h
          obtain ⟨htext, hrest⟩ := List.append_inj hsplit (by simp)
          rw [Vector.toList_inj.mp htext, ih hrest]

theorem cipherText_eq_sequential (key : Key) (x : Bytes) :
    cipherText key x = sequentialCipher key x := by
  unfold cipherText sequentialCipher encryptBlocks mapBlocks blocksOf
  simp only [List.flatMap_map]
  rfl

theorem sequentialCipher_ne_nil {key : Key} {x c : Bytes}
    (h : some c = sequentialCipher key x) : c ≠ [] := by
  rw [← cipherText_eq_sequential] at h
  have hlen := length_cipherText h
  apply List.length_pos_iff.mp
  omega

/-- What `enc_file` leaves with return code zero is the sequential encryption,
for whatever macros cut the file into whole blocks, exactly when the number of
batches is not narrowed to zero. -/
theorem encFile_sequential_iff (p : BlockPlan) (x : FileData) (key : Key) :
    (∀ env : Env,
      exitCode (encFileWith p.toThreadPlan env x.size (some x.bytes) key
        .empty) = some 0 →
      some (finalState (encFileWith p.toThreadPlan env x.size (some x.bytes) key
        .empty)).out = sequentialCipher key x.bytes) ↔
      (x.size / p.maxBytesPerBatch + 1) % 2 ^ 32 ≠ 0 := by
  constructor
  · intro hall hnb
    obtain ⟨hcode, hnil⟩ := @encFileWith_none p x key inOrderEnv hnb
    have hout := hall inOrderEnv.toEnv hcode
    exact sequentialCipher_ne_nil hout hnil
  · intro hnb env hcode
    rcases encFileWith_zero hcode with ⟨_, _, hout⟩ | ⟨hzero, _⟩
    · rw [hout, cipherText_eq_sequential]
    · exact absurd hzero hnb

/-- A file of zeros whose number of batches is narrowed to zero. -/
theorem encFile_emptied_zeros :
    exitCode (encFileWith encPlan.toThreadPlan inOrderEnv.toEnv
        (FileData.zeros (16777216 * (2 ^ 32 - 1)) (by decide)).size
        (some (FileData.zeros (16777216 * (2 ^ 32 - 1)) (by decide)).bytes)
        (Vector.replicate 4 0) .empty) = some 0 ∧
      some (finalState (encFileWith encPlan.toThreadPlan inOrderEnv.toEnv
        (FileData.zeros (16777216 * (2 ^ 32 - 1)) (by decide)).size
        (some (FileData.zeros (16777216 * (2 ^ 32 - 1)) (by decide)).bytes)
        (Vector.replicate 4 0) .empty)).out ≠
      sequentialCipher (Vector.replicate 4 0)
        (FileData.zeros (16777216 * (2 ^ 32 - 1)) (by decide)).bytes := by
  have hnb : ((FileData.zeros (16777216 * (2 ^ 32 - 1)) (by decide)).size /
      encPlan.maxBytesPerBatch + 1) % 2 ^ 32 = 0 := by
    rw [FileData.size, FileData.length_zeros]
    decide
  obtain ⟨hcode, hnil⟩ := @encFileWith_none encPlan
    (.zeros (16777216 * (2 ^ 32 - 1)) (by decide)) (Vector.replicate 4 0)
    inOrderEnv hnb
  refine ⟨hcode, fun hout => ?_⟩
  exact sequentialCipher_ne_nil hout hnil

end EcFtp
