/-
What `dec_file` makes of the output of `enc_file`.  Padding changes the length
of the file, so the two functions cut it differently; the differences show
where the padded length meets a chunk boundary, and where it narrows the number
of batches to zero.
-/
import EcFtp.DecFile

namespace EcFtp

section CipherText

variable {key : Key} {avars : EncAesVars} {x c : Bytes}

theorem padding_ne_nil (n : Nat) : padding n ≠ [] := by
  apply List.length_pos_iff.mp
  rw [padding, List.length_replicate]
  omega

/-- Every byte of the padding is the number of its bytes. -/
theorem getLastD_padding (n : Nat) :
    ((padding n).getLastD 0).toNat = 16 - n % 16 := by
  obtain ⟨k, hk⟩ : ∃ k, 16 - n % 16 = k + 1 := ⟨15 - n % 16, by omega⟩
  rw [padding, hk, List.replicate_succ', List.getLastD_concat]
  exact Nat.mod_eq_of_lt (by omega)

/-- Decryption gives the padded plain text back. -/
theorem decryptBlocks_cipherText (havars : encAesVars key = some avars)
    (h : some c = cipherText key x) :
    decryptBlocks avars c = x ++ padding x.length := by
  have hdvd : 16 ∣ (x ++ padding x.length).length := by
    rw [List.length_append, padding, List.length_replicate]
    omega
  rw [cipherText, havars] at h
  rw [Option.some.inj h]
  exact decryptBlocks_encryptBlocks havars hdvd

theorem lastPadByte_cipherText (havars : encAesVars key = some avars)
    (h : some c = cipherText key x) :
    lastPadByte avars c = 16 - x.length % 16 := by
  have hlen := length_cipherText h
  have hne : c ≠ [] := List.length_pos_iff.mp (by omega)
  rw [← numPadBytes_eq (by omega) hne, numPadBytes,
    decryptBlocks_cipherText havars h, getLastD_append (padding_ne_nil _),
    getLastD_padding]

/-- The padding that is stripped is the padding that was added. -/
theorem take_decryptBlocks_cipherText (havars : encAesVars key = some avars)
    (h : some c = cipherText key x) :
    (decryptBlocks avars c).take (c.length - lastPadByte avars c) = x := by
  have hlen := length_cipherText h
  have hcut : c.length - lastPadByte avars c = x.length := by
    rw [lastPadByte_cipherText havars h]
    omega
  rw [decryptBlocks_cipherText havars h, hcut, List.take_left]

end CipherText

section RoundTrip

variable {env : Env} {key : Key} {x y : FileData}

/-- Zero from `dec_file` on a ciphertext comes with the plain text, or with
nothing when the number of batches was narrowed to zero. -/
theorem decFileOf_cipherText (h : some y.bytes = cipherText key x.bytes)
    (hcode : exitCode (decFileOf env y key) = some 0) :
    (finalState (decFileOf env y key)).out = x.bytes ∨
      (y.size / 16777216 + 1) % 2 ^ 32 = 0 ∧
        (finalState (decFileOf env y key)).out = [] := by
  obtain ⟨avars, havars, _⟩ := encAesVars_inverse key
  rcases decFileOf_zero havars hcode with ⟨_, hout⟩ | hnone
  · left
    rw [hout]
    exact take_decryptBlocks_cipherText havars h
  · exact .inr hnone

/-- An empty file is not decrypted. -/
theorem decFileOf_empty (h : y.bytes = []) :
    exitCode (decFileOf env y key) ≠ some 0 := by
  obtain ⟨avars, havars, _⟩ := encAesVars_inverse key
  have hsize : y.size = 0 := by rw [FileData.size, h, List.length_nil]
  refine decFileOf_fails havars ?_ ?_
  · rw [hsize]
    decide
  · rw [hsize]
    omega

/-- The lengths that padding takes to the first length without a batch. -/
def PadsToNoBatch (n : Nat) : Prop :=
  2 ^ 56 - 2 ^ 24 - 16 ≤ n ∧ n < 2 ^ 56 - 2 ^ 24

theorem padsToNoBatch_iff {n : Nat} (hfit : n / 16777216 + 1 < 2 ^ 32) :
    PadsToNoBatch n ↔
      (16 * (n / 16 + 1) / 16777216 + 1) % 2 ^ 32 = 0 := by
  unfold PadsToNoBatch
  omega

/-- At these lengths both functions return zero and the file is lost. -/
theorem encFileOf_decFileOf_lost (env : ReliableEnv)
    (h : PadsToNoBatch x.size) :
    exitCode (encFileOf env.toEnv x key) = some 0 ∧
      ∃ y : FileData,
        y.bytes = (finalState (encFileOf env.toEnv x key)).out ∧
        exitCode (decFileOf env.toEnv y key) = some 0 ∧
        (finalState (decFileOf env.toEnv y key)).out = [] := by
  have hrange := h
  unfold PadsToNoBatch at hrange
  have hfit : x.size / 16777216 + 1 < 2 ^ 32 := by omega
  obtain ⟨hcode, hout⟩ := encFileOf_reliable env key (x := x) (by omega) hfit
  have hlen := length_cipherText hout
  have hsmall : (finalState (encFileOf env.toEnv x key)).out.length < 2 ^ 63 := by
    rw [hlen]
    change 16 * (x.size / 16 + 1) < 2 ^ 63
    omega
  refine ⟨hcode, ⟨_, hsmall⟩, rfl, ?_⟩
  apply decFileOf_none env
  change ((finalState (encFileOf env.toEnv x key)).out.length / 16777216 + 1) %
    2 ^ 32 = 0
  rw [hlen]
  exact (padsToNoBatch_iff hfit).mp h

/-- At all other lengths a file that both functions return zero on is kept. -/
theorem encFileOf_decFileOf_kept {env' : Env} (hkept : ¬ PadsToNoBatch x.size)
    (hcode : exitCode (encFileOf env x key) = some 0)
    (hy : y.bytes = (finalState (encFileOf env x key)).out)
    (hdec : exitCode (decFileOf env' y key) = some 0) :
    (finalState (decFileOf env' y key)).out = x.bytes := by
  rcases encFileOf_zero hcode with ⟨_, hfit, hout⟩ | ⟨_, hnil⟩
  · rw [← hy] at hout
    have hlen := length_cipherText hout
    rcases decFileOf_cipherText hout hdec with hplain | ⟨hnone, _⟩
    · exact hplain
    · refine absurd ((padsToNoBatch_iff hfit).mpr ?_) hkept
      rw [← hlen]
      exact hnone
  · exact absurd hdec (decFileOf_empty (hy.trans hnil))

/-- What `dec_file` writes with return code zero is the file `enc_file` was
given, exactly when padding does not take the length to one without a batch. -/
theorem encFile_decFile_iff (x : FileData) (key : Key) :
    (∀ (env env' : Env) (y : FileData),
      exitCode (encFileOf env x key) = some 0 →
      y.bytes = (finalState (encFileOf env x key)).out →
      exitCode (decFileOf env' y key) = some 0 →
      (finalState (decFileOf env' y key)).out = x.bytes) ↔
      ¬ PadsToNoBatch x.size := by
  constructor
  · intro hall hlost
    obtain ⟨hcode, y, hy, hdec, hnil⟩ :=
      @encFileOf_decFileOf_lost key x inOrderEnv hlost
    have hsame := hall _ inOrderEnv.toEnv y hcode hy hdec
    have hsize : x.size = 0 := by rw [FileData.size, ← hsame, hnil, List.length_nil]
    unfold PadsToNoBatch at hlost
    omega
  · intro hkept env env' y hcode hy hdec
    exact encFileOf_decFileOf_kept hkept hcode hy hdec

/-- A file of zeros that both functions accept and that comes back empty. -/
theorem encFile_decFile_lost_zeros :
    ∃ y : FileData,
      exitCode (encFileOf inOrderEnv.toEnv
        (.zeros (2 ^ 56 - 2 ^ 24 - 1) (by decide)) (Vector.replicate 4 0)) =
          some 0 ∧
      y.bytes = (finalState (encFileOf inOrderEnv.toEnv
        (.zeros (2 ^ 56 - 2 ^ 24 - 1) (by decide)) (Vector.replicate 4 0))).out ∧
      exitCode (decFileOf inOrderEnv.toEnv y (Vector.replicate 4 0)) = some 0 ∧
      (finalState (decFileOf inOrderEnv.toEnv y (Vector.replicate 4 0))).out ≠
        (FileData.zeros (2 ^ 56 - 2 ^ 24 - 1) (by decide)).bytes := by
  obtain ⟨hcode, y, hy, hdec, hnil⟩ :=
    @encFileOf_decFileOf_lost (Vector.replicate 4 0)
      (.zeros (2 ^ 56 - 2 ^ 24 - 1) (by decide)) inOrderEnv (by
        rw [PadsToNoBatch, FileData.size, FileData.length_zeros]
        omega)
  refine ⟨y, hcode, hy, hdec, ?_⟩
  rw [hnil]
  intro heq
  have hlen := congrArg List.length heq
  rw [FileData.length_zeros, List.length_nil] at hlen
  omega

/-- A ciphertext whose last chunk holds more than the padding is decrypted. -/
theorem decFileOf_cipherText_accepts (env : ReliableEnv)
    (h : some y.bytes = cipherText key x.bytes)
    (hfit : x.size / 16777216 + 1 < 2 ^ 32) (hpos : x.size % 4194304 ≠ 0)
    (hroom : x.size % 4194304 < 4194304 - 16) :
    exitCode (decFileOf env.toEnv y key) = some 0 := by
  obtain ⟨avars, havars, _⟩ := encAesVars_inverse key
  have hlen : y.size = 16 * (x.size / 16 + 1) := length_cipherText h
  have hbyte : lastPadByte avars y.bytes = 16 - x.size % 16 :=
    lastPadByte_cipherText havars h
  have hdec := @decFileOf_reliable key avars y env havars (by omega) (by omega)
    (by omega)
  exact hdec.1

/-- A ciphertext that ends on a chunk boundary is refused. -/
theorem decFileOf_cipherText_rejects
    (h : some y.bytes = cipherText key x.bytes)
    (hfull : 4194304 - 16 ≤ x.size % 4194304)
    (hsmall : x.size < 2 ^ 56 - 2 ^ 24 - 16) :
    exitCode (decFileOf env y key) ≠ some 0 := by
  obtain ⟨avars, havars, _⟩ := encAesVars_inverse key
  have hlen : y.size = 16 * (x.size / 16 + 1) := length_cipherText h
  exact decFileOf_fails havars (by omega) (by omega)

/-- The lengths whose encryption `dec_file` accepts, or that `enc_file`
refuses. -/
def Accepted (n : Nat) : Prop :=
  (n % 4194304 < 4194304 - 16 ∨ 2 ^ 56 - 2 ^ 24 - 16 ≤ n) ∧
    (n / 16777216 + 1) % 2 ^ 32 ≠ 0

theorem accepted_of (h : Accepted x.size) (env env' : ReliableEnv)
    (hcode : exitCode (encFileOf env.toEnv x key) = some 0)
    (hy : y.bytes = (finalState (encFileOf env.toEnv x key)).out) :
    exitCode (decFileOf env'.toEnv y key) = some 0 := by
  obtain ⟨hroom, hnb⟩ := h
  rcases encFileOf_zero hcode with ⟨hpos, hfit, hout⟩ | ⟨hnone, _⟩
  · rw [← hy] at hout
    by_cases hshort : x.size % 4194304 < 4194304 - 16
    · exact decFileOf_cipherText_accepts env' hout hfit hpos hshort
    · have hlen : y.size = 16 * (x.size / 16 + 1) := length_cipherText hout
      have hrange : PadsToNoBatch x.size := by
        unfold PadsToNoBatch
        omega
      have hnone := (padsToNoBatch_iff hfit).mp hrange
      rw [← hlen] at hnone
      exact (decFileOf_none env' hnone).1
  · exact absurd hnone hnb

/-- Outside of these lengths there is an encryption `dec_file` refuses. -/
theorem rejected_of (h : ¬ Accepted x.size) (env : ReliableEnv) (env' : Env) :
    exitCode (encFileOf env.toEnv x key) = some 0 ∧
      ∃ y : FileData, y.bytes = (finalState (encFileOf env.toEnv x key)).out ∧
        exitCode (decFileOf env' y key) ≠ some 0 := by
  by_cases hnb : (x.size / 16777216 + 1) % 2 ^ 32 = 0
  · obtain ⟨hcode, hnil⟩ := encFileOf_none env key hnb
    exact ⟨hcode, ⟨[], by decide⟩, hnil.symm, decFileOf_empty rfl⟩
  · have hshape : 4194304 - 16 ≤ x.size % 4194304 ∧
        x.size < 2 ^ 56 - 2 ^ 24 - 16 := by
      unfold Accepted at h
      omega
    obtain ⟨hfull, hsmall⟩ := hshape
    obtain ⟨hcode, hout⟩ :=
      encFileOf_reliable env key (x := x) (by omega) (by omega)
    have hlen := length_cipherText hout
    have hbound : (finalState (encFileOf env.toEnv x key)).out.length <
        2 ^ 63 := by
      rw [hlen]
      change 16 * (x.size / 16 + 1) < 2 ^ 63
      omega
    exact ⟨hcode, ⟨_, hbound⟩, rfl,
      decFileOf_cipherText_rejects hout hfull hsmall⟩

/-- `dec_file` returns zero on what `enc_file` wrote with return code zero,
exactly when the padding leaves the last chunk something besides itself and the
number of batches is not narrowed to zero. -/
theorem decFile_accepts_iff (x : FileData) (key : Key) :
    (∀ (env env' : ReliableEnv) (y : FileData),
      exitCode (encFileOf env.toEnv x key) = some 0 →
      y.bytes = (finalState (encFileOf env.toEnv x key)).out →
      exitCode (decFileOf env'.toEnv y key) = some 0) ↔ Accepted x.size := by
  constructor
  · intro hall
    by_contra hbad
    obtain ⟨hcode, y, hy, hrefused⟩ :=
      @rejected_of key x hbad inOrderEnv inOrderEnv.toEnv
    exact hrefused (hall inOrderEnv inOrderEnv y hcode hy)
  · intro h env env' y hcode hy
    exact accepted_of h env env' hcode hy

/-- A file one byte short of a chunk is encrypted, and its encryption is
refused. -/
theorem decFile_refuses_zeros :
    exitCode (encFileOf inOrderEnv.toEnv (.zeros 4194303 (by decide))
        (Vector.replicate 4 0)) = some 0 ∧
      ∃ y : FileData,
        y.bytes = (finalState (encFileOf inOrderEnv.toEnv
          (.zeros 4194303 (by decide)) (Vector.replicate 4 0))).out ∧
        exitCode (decFileOf inOrderEnv.toEnv y (Vector.replicate 4 0)) ≠
          some 0 := by
  refine rejected_of ?_ inOrderEnv inOrderEnv.toEnv
  rw [Accepted, FileData.size, FileData.length_zeros]
  omega

end RoundTrip

end EcFtp
