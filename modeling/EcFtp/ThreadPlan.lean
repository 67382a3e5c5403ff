/-
How the file functions cut a file into batches and chunks: the number of
batches and threads, the seek offsets and the read lengths, with every
narrowing conversion of the source.
-/
import EcFtp.Libc

namespace EcFtp

/-- The two macros that fix how a file is cut: the bytes one thread may read,
and the most threads of a batch. -/
structure ThreadPlan where
  threadMaxMem : Nat
  maxThreads : Nat
deriving Repr, DecidableEq

namespace ThreadPlan

variable (p : ThreadPlan)

def maxBytesPerBatch : Nat := p.threadMaxMem * p.maxThreads

/-- The length of `args`, from `char num_threads = MAX_THREADS`. -/
def tableLen : Nat := (toChar p.maxThreads).toNat

/-- `unsigned int num_batches`. -/
def numBatches (stSize : Int) : Nat :=
  if p.maxBytesPerBatch < stSize then
    toUInt32 (stSize / p.maxBytesPerBatch + 1)
  else 1

/-- `uint64_t batch_len` of the last batch. -/
def batchLen (stSize : Int) (batchIndex : Nat) : Nat :=
  toSizeT (stSize - batchIndex * p.maxBytesPerBatch)

/-- `char num_threads`. -/
def numThreads (stSize : Int) (batchIndex : Nat) : Int :=
  if batchIndex ≠ p.numBatches stSize - 1 then p.tableLen
  else toChar (p.batchLen stSize batchIndex / p.threadMaxMem + 1)

/-- Whether this is the last thread in the last batch. -/
def isLast (stSize : Int) (batchIndex threadIndex : Nat) : Bool :=
  batchIndex = p.numBatches stSize - 1 ∧
    threadIndex = p.numThreads stSize batchIndex - 1

def seekOffset (batchIndex threadIndex : Nat) : Int :=
  batchIndex * p.maxBytesPerBatch + threadIndex * p.threadMaxMem

/-- `size_t ir_readlen`. -/
def irReadlen (stSize : Int) (batchIndex threadIndex : Nat) : Nat :=
  if p.isLast stSize batchIndex threadIndex then
    toSizeT (stSize - batchIndex * p.maxBytesPerBatch -
      threadIndex * p.threadMaxMem)
  else p.threadMaxMem

/-- Every batch has a thread, and no more threads than `args` has elements. -/
def InTable (stSize : Int) : Prop :=
  ∀ batchIndex < p.numBatches stSize,
    1 ≤ p.numThreads stSize batchIndex ∧
      p.numThreads stSize batchIndex ≤ p.tableLen

end ThreadPlan

/-- Macros the types of the source have room for: `char` holds one thread more
than the table, and the batch length is computed in `int`. -/
structure ValidPlan extends ThreadPlan where
  threadMaxMem_pos : 0 < threadMaxMem
  maxThreads_pos : 0 < maxThreads
  maxThreads_lt : maxThreads < 127
  maxBytesPerBatch_lt : threadMaxMem * maxThreads < 2 ^ 31

/-- `COMP_THREAD_MAX_MEM` and `COMP_MAX_THREADS`. -/
def compPlan : ValidPlan where
  threadMaxMem := 8000000
  maxThreads := 8
  threadMaxMem_pos := by decide
  maxThreads_pos := by decide
  maxThreads_lt := by decide
  maxBytesPerBatch_lt := by decide

/-- Chunks of whole cipher blocks: the header's "`/MUST/` be a multiple of
16". -/
structure BlockPlan extends ValidPlan where
  block_dvd : 16 ∣ threadMaxMem

/-- `ENC_THREAD_MAX_MEM` and `ENC_MAX_THREADS`. -/
def encPlan : BlockPlan where
  threadMaxMem := 4194304
  maxThreads := 4
  threadMaxMem_pos := by decide
  maxThreads_pos := Nat.succ_pos _
  maxThreads_lt := by decide
  maxBytesPerBatch_lt := by decide
  block_dvd := by decide

namespace ValidPlan

variable (p : ValidPlan) {n batchIndex threadIndex : Nat}

theorem maxBytesPerBatch_pos : 0 < p.maxBytesPerBatch :=
  Nat.mul_pos p.threadMaxMem_pos p.maxThreads_pos

@[simp] theorem tableLen_eq : p.tableLen = p.maxThreads := by
  have hlt := p.maxThreads_lt
  rw [ThreadPlan.tableLen, toChar_of_nat (by omega), Int.toNat_natCast]

/-- The threads of the last batch of a file of `n` bytes. -/
def lastThreads (n : Nat) : Nat := n % p.maxBytesPerBatch / p.threadMaxMem + 1

/-- The bytes of the batches that are lost when the number of batches is
narrowed to `unsigned int`. -/
def narrowed (n : Nat) : Nat :=
  2 ^ 32 * ((n / p.maxBytesPerBatch + 1) / 2 ^ 32) * p.maxBytesPerBatch

theorem lastThreads_le (n : Nat) : p.lastThreads n ≤ p.maxThreads := by
  have hmod : n % p.maxBytesPerBatch < p.threadMaxMem * p.maxThreads :=
    Nat.mod_lt n p.maxBytesPerBatch_pos
  exact Nat.div_lt_of_lt_mul hmod

theorem narrowed_eq_zero (h : n / p.maxBytesPerBatch + 1 < 2 ^ 32) :
    p.narrowed n = 0 := by
  rw [narrowed, Nat.div_eq_of_lt h]
  simp

theorem le_narrowed (h : 2 ^ 32 ≤ n / p.maxBytesPerBatch + 1) :
    2 ^ 32 * p.maxBytesPerBatch ≤ p.narrowed n := by
  have hone : 1 ≤ (n / p.maxBytesPerBatch + 1) / 2 ^ 32 := by omega
  unfold narrowed
  gcongr
  omega

/-- Every size but the exact batch length gets one batch more than it fills,
up to the narrowing. -/
theorem numBatches_of_ne (h : n ≠ p.maxBytesPerBatch) :
    p.numBatches n = (n / p.maxBytesPerBatch + 1) % 2 ^ 32 := by
  unfold ThreadPlan.numBatches
  split
  · rw [← Int.natCast_ediv]
    exact toUInt32_of_nat (n / p.maxBytesPerBatch + 1)
  · have hlt : n < p.maxBytesPerBatch := by omega
    rw [Nat.div_eq_of_lt hlt]
    rfl

theorem numBatches_max : p.numBatches p.maxBytesPerBatch = 1 := by
  unfold ThreadPlan.numBatches
  rw [if_neg (by omega)]

theorem numThreads_full (h : batchIndex + 1 < p.numBatches n) :
    p.numThreads n batchIndex = p.maxThreads := by
  unfold ThreadPlan.numThreads
  rw [if_pos (by omega), tableLen_eq]

theorem batchLen_last (hn : n < 2 ^ 63) (h : n ≠ p.maxBytesPerBatch)
    (hb : batchIndex + 1 = p.numBatches n) :
    p.batchLen n batchIndex = n % p.maxBytesPerBatch + p.narrowed n := by
  have hnb := p.numBatches_of_ne h
  have hdiv := Nat.div_add_mod n p.maxBytesPerBatch
  have hcount := Nat.div_add_mod (n / p.maxBytesPerBatch + 1) (2 ^ 32)
  have hsplit : n / p.maxBytesPerBatch =
      2 ^ 32 * ((n / p.maxBytesPerBatch + 1) / 2 ^ 32) + batchIndex := by
    omega
  have hsum : n = n % p.maxBytesPerBatch + p.narrowed n +
      batchIndex * p.maxBytesPerBatch := by
    calc n = n / p.maxBytesPerBatch * p.maxBytesPerBatch +
          n % p.maxBytesPerBatch := by rw [Nat.mul_comm]; exact hdiv.symm
      _ = (2 ^ 32 * ((n / p.maxBytesPerBatch + 1) / 2 ^ 32) + batchIndex) *
          p.maxBytesPerBatch + n % p.maxBytesPerBatch := by rw [← hsplit]
      _ = _ := by rw [narrowed, Nat.add_mul]; omega
  unfold ThreadPlan.batchLen
  have hcast : ((batchIndex * p.maxBytesPerBatch : Nat) : Int) =
      batchIndex * p.maxBytesPerBatch := Int.natCast_mul _ _
  rw [← hcast]
  unfold toSizeT
  omega

theorem narrowed_div (n : Nat) : p.threadMaxMem * (2 ^ 32 *
    ((n / p.maxBytesPerBatch + 1) / 2 ^ 32) * p.maxThreads) =
    p.narrowed n := by
  rw [narrowed]
  simp only [ThreadPlan.maxBytesPerBatch]
  ac_rfl

theorem numThreads_last (hn : n < 2 ^ 63) (h : n ≠ p.maxBytesPerBatch)
    (hb : batchIndex + 1 = p.numBatches n) :
    p.numThreads n batchIndex = p.lastThreads n := by
  have hlen := p.batchLen_last hn h hb
  have hle := p.lastThreads_le n
  have hlt := p.maxThreads_lt
  rw [← p.narrowed_div, Nat.add_comm] at hlen
  have hdiv : p.batchLen n batchIndex / p.threadMaxMem + 1 =
      2 ^ 32 * ((n / p.maxBytesPerBatch + 1) / 2 ^ 32) * p.maxThreads +
        p.lastThreads n := by
    rw [hlen, Nat.mul_add_div p.threadMaxMem_pos]
    rfl
  have hwrap : 2 ^ 32 * ((n / p.maxBytesPerBatch + 1) / 2 ^ 32) * p.maxThreads
      = 256 * (2 ^ 24 * ((n / p.maxBytesPerBatch + 1) / 2 ^ 32) *
        p.maxThreads) := by
    rw [← Nat.mul_assoc, ← Nat.mul_assoc]
    rfl
  have hchar := toChar_add_mul (n := p.lastThreads n) (by omega)
    (2 ^ 24 * ((n / p.maxBytesPerBatch + 1) / 2 ^ 32) * p.maxThreads)
  rw [← hwrap, ← hdiv] at hchar
  unfold ThreadPlan.numThreads
  rw [if_neg (by omega)]
  exact_mod_cast hchar

/-- A file of exactly one full batch gets one thread too many. -/
theorem numThreads_max :
    p.numThreads p.maxBytesPerBatch 0 = p.maxThreads + 1 := by
  have hlt := p.maxThreads_lt
  have hB : p.maxBytesPerBatch < 2 ^ 31 := p.maxBytesPerBatch_lt
  have hlen : p.batchLen p.maxBytesPerBatch 0 = p.maxBytesPerBatch := by
    unfold ThreadPlan.batchLen toSizeT
    omega
  have hdiv : p.maxBytesPerBatch / p.threadMaxMem = p.maxThreads :=
    Nat.mul_div_cancel_left _ p.threadMaxMem_pos
  have hthreads : ((p.maxBytesPerBatch : Int) / p.threadMaxMem + 1) =
      (p.maxThreads + 1 : Nat) := by omega
  unfold ThreadPlan.numThreads
  rw [if_neg (by rw [p.numBatches_max]; omega), hlen, hthreads,
    toChar_of_nat (by omega)]
  rfl

/-- The table holds the threads of every batch, unless the file is exactly one
full batch. -/
theorem inTable_iff (hn : n < 2 ^ 63) :
    p.InTable n ↔ n ≠ p.maxBytesPerBatch := by
  have hpos := p.maxThreads_pos
  constructor
  · intro htable hmax
    subst hmax
    have hzero := htable 0 (by rw [p.numBatches_max]; omega)
    rw [p.numThreads_max, p.tableLen_eq] at hzero
    omega
  · intro h batchIndex hb
    rw [p.tableLen_eq]
    by_cases hlast : batchIndex + 1 = p.numBatches n
    · rw [p.numThreads_last hn h hlast]
      have hle := p.lastThreads_le n
      have hone : 1 ≤ p.lastThreads n := Nat.succ_pos _
      omega
    · rw [p.numThreads_full (by omega)]
      omega

/-- The bytes the last thread of the last batch is to read. -/
def lastLen (n : Nat) : Nat := n % p.threadMaxMem + p.narrowed n

/-- A thread that reads a whole chunk. -/
def Full (n batchIndex threadIndex : Nat) : Prop :=
  batchIndex + 1 < p.numBatches n ∧ threadIndex < p.maxThreads ∨
    batchIndex + 1 = p.numBatches n ∧ threadIndex + 1 < p.lastThreads n

/-- The last thread of the last batch. -/
def Last (n batchIndex threadIndex : Nat) : Prop :=
  batchIndex + 1 = p.numBatches n ∧ threadIndex + 1 = p.lastThreads n

/-- Where thread `threadIndex` of batch `batchIndex` starts to read. -/
def offset (batchIndex threadIndex : Nat) : Nat :=
  batchIndex * p.maxBytesPerBatch + threadIndex * p.threadMaxMem

theorem seekOffset_eq :
    p.seekOffset batchIndex threadIndex = p.offset batchIndex threadIndex := by
  unfold ThreadPlan.seekOffset offset
  push_cast
  rfl

theorem offset_succ_thread : p.offset batchIndex (threadIndex + 1) =
    p.offset batchIndex threadIndex + p.threadMaxMem := by
  unfold offset
  rw [Nat.add_mul, Nat.one_mul]
  omega

theorem offset_succ_batch :
    p.offset (batchIndex + 1) 0 = p.offset batchIndex p.maxThreads := by
  unfold offset ThreadPlan.maxBytesPerBatch
  rw [Nat.add_mul, Nat.zero_mul, Nat.one_mul, Nat.mul_comm p.maxThreads]
  rfl

theorem isLast_of_full (hn : n < 2 ^ 63) (h : n ≠ p.maxBytesPerBatch)
    (hfull : p.Full n batchIndex threadIndex) :
    p.isLast n batchIndex threadIndex = false := by
  unfold ThreadPlan.isLast
  apply decide_eq_false
  rcases hfull with ⟨hb, _⟩ | ⟨hb, ht⟩
  · omega
  · rw [p.numThreads_last hn h hb]
    omega

theorem isLast_of_last (hn : n < 2 ^ 63) (h : n ≠ p.maxBytesPerBatch)
    (hlast : p.Last n batchIndex threadIndex) :
    p.isLast n batchIndex threadIndex = true := by
  unfold ThreadPlan.isLast
  apply decide_eq_true
  rcases hlast with ⟨hb, ht⟩
  rw [p.numThreads_last hn h hb]
  omega

theorem irReadlen_of_full (hn : n < 2 ^ 63) (h : n ≠ p.maxBytesPerBatch)
    (hfull : p.Full n batchIndex threadIndex) :
    p.irReadlen n batchIndex threadIndex = p.threadMaxMem := by
  unfold ThreadPlan.irReadlen
  rw [if_neg (by simp [p.isLast_of_full hn h hfull])]

/-- The last thread starts where its bytes do. -/
theorem offset_of_last (h : n ≠ p.maxBytesPerBatch)
    (hlast : p.Last n batchIndex threadIndex) :
    p.offset batchIndex threadIndex + p.lastLen n = n := by
  rcases hlast with ⟨hb, ht⟩
  have hnb := p.numBatches_of_ne h
  have hmod : n % p.maxBytesPerBatch % p.threadMaxMem = n % p.threadMaxMem :=
    Nat.mod_mod_of_dvd n ⟨p.maxThreads, rfl⟩
  have hthread : threadIndex = n % p.maxBytesPerBatch / p.threadMaxMem := by
    unfold lastThreads at ht
    omega
  have hchunk := Nat.div_add_mod (n % p.maxBytesPerBatch) p.threadMaxMem
  rw [← hthread, hmod, Nat.mul_comm] at hchunk
  have hsplit : n / p.maxBytesPerBatch =
      2 ^ 32 * ((n / p.maxBytesPerBatch + 1) / 2 ^ 32) + batchIndex := by
    omega
  have hbatch := Nat.div_add_mod n p.maxBytesPerBatch
  rw [hsplit, Nat.mul_comm, Nat.add_mul] at hbatch
  unfold offset lastLen narrowed
  omega

theorem irReadlen_of_last (hn : n < 2 ^ 63) (h : n ≠ p.maxBytesPerBatch)
    (hlast : p.Last n batchIndex threadIndex) :
    p.irReadlen n batchIndex threadIndex = p.lastLen n := by
  have hoff := p.offset_of_last h hlast
  have hcast : ((p.offset batchIndex threadIndex : Nat) : Int) =
      batchIndex * p.maxBytesPerBatch + threadIndex * p.threadMaxMem := by
    unfold offset
    push_cast
    rfl
  unfold ThreadPlan.irReadlen
  rw [if_pos (p.isLast_of_last hn h hlast)]
  unfold toSizeT
  omega

/-- A whole chunk lies before the bytes of the last thread. -/
theorem offset_of_full (h : n ≠ p.maxBytesPerBatch)
    (hfull : p.Full n batchIndex threadIndex) :
    p.offset batchIndex threadIndex + p.threadMaxMem + p.lastLen n ≤ n := by
  obtain ⟨lastBatch, hlastBatch⟩ : ∃ b, b + 1 = p.numBatches n := by
    rcases hfull with ⟨hb, _⟩ | ⟨hb, _⟩
    · exact ⟨p.numBatches n - 1, by omega⟩
    · exact ⟨batchIndex, hb⟩
  have hlast : p.offset lastBatch (p.lastThreads n - 1) + p.lastLen n = n :=
    p.offset_of_last h ⟨hlastBatch, Nat.succ_pred_eq_of_pos (Nat.succ_pos _)⟩
  rw [← p.offset_succ_thread]
  rcases hfull with ⟨hb, ht⟩ | ⟨hb, ht⟩
  · have hbatch : p.offset batchIndex (threadIndex + 1) ≤
        p.offset (batchIndex + 1) 0 := by
      rw [p.offset_succ_batch]
      exact Nat.add_le_add_left (Nat.mul_le_mul_right _ ht) _
    have hrest : p.offset (batchIndex + 1) 0 ≤
        p.offset lastBatch (p.lastThreads n - 1) := by
      apply Nat.add_le_add
      · exact Nat.mul_le_mul_right _ (by omega)
      · exact Nat.mul_le_mul_right _ (Nat.zero_le _)
    omega
  · obtain rfl : batchIndex = lastBatch := by omega
    have hthread : p.offset batchIndex (threadIndex + 1) ≤
        p.offset batchIndex (p.lastThreads n - 1) := by
      exact Nat.add_le_add_left (Nat.mul_le_mul_right _ (by omega)) _
    omega

end ValidPlan

section Lengths

variable {p : ValidPlan} {n b t : Nat}

theorem irReadlen_cases (hn : n < 2 ^ 63) (hne : n ≠ p.maxBytesPerBatch)
    (hthread : p.Full n b t ∨ p.Last n b t) :
    p.offset b t + p.irReadlen n b t ≤ n ∧
      (p.irReadlen n b t = p.threadMaxMem ∨
        p.Last n b t ∧ p.irReadlen n b t = p.lastLen n) := by
  rcases hthread with hfull | hlast
  · have hle := p.offset_of_full hne hfull
    rw [p.irReadlen_of_full hn hne hfull]
    exact ⟨by omega, .inl rfl⟩
  · have hle := p.offset_of_last hne hlast
    rw [p.irReadlen_of_last hn hne hlast]
    exact ⟨by omega, .inr ⟨hlast, rfl⟩⟩

theorem threadMaxMem_lt (p : ValidPlan) : p.threadMaxMem < 2 ^ 31 := by
  have hlt := p.maxBytesPerBatch_lt
  have hle : p.threadMaxMem * 1 ≤ p.threadMaxMem * p.maxThreads :=
    Nat.mul_le_mul_left _ p.maxThreads_pos
  omega

theorem numBatches_pos (hne : n ≠ p.maxBytesPerBatch)
    (hnb : (n / p.maxBytesPerBatch + 1) % 2 ^ 32 ≠ 0) : 0 < p.numBatches n := by
  rw [p.numBatches_of_ne hne]
  exact Nat.pos_of_ne_zero hnb

theorem succ_mod_ne_zero {m : Nat} (h : m + 1 < 2 ^ 32) :
    (m + 1) % 2 ^ 32 ≠ 0 := by
  rw [Nat.mod_eq_of_lt h]
  exact Nat.succ_ne_zero m

theorem numBatches_pos_of_fits (hne : n ≠ p.maxBytesPerBatch)
    (hfit : n / p.maxBytesPerBatch + 1 < 2 ^ 32) : 0 < p.numBatches n :=
  numBatches_pos hne (succ_mod_ne_zero hfit)

theorem ne_maxBytesPerBatch (h : n % p.threadMaxMem ≠ 0) :
    n ≠ p.maxBytesPerBatch := by
  intro heq
  exact h (Nat.mod_eq_zero_of_dvd ⟨p.maxThreads, heq⟩)

theorem lastLen_of_fits (hfit : n / p.maxBytesPerBatch + 1 < 2 ^ 32) :
    p.lastLen n = n % p.threadMaxMem := by
  rw [ValidPlan.lastLen, p.narrowed_eq_zero hfit, Nat.add_zero]

theorem le_lastLen_of_not_fits (hfit : ¬ n / p.maxBytesPerBatch + 1 < 2 ^ 32) :
    2 ^ 32 ≤ p.lastLen n := by
  have hnarrow := @ValidPlan.le_narrowed p n (by omega)
  have hB := p.maxBytesPerBatch_pos
  unfold ValidPlan.lastLen
  omega

theorem numBatches_eq_zero (hnb : (n / p.maxBytesPerBatch + 1) % 2 ^ 32 = 0) :
    p.numBatches n = 0 := by
  have hne : n ≠ p.maxBytesPerBatch := by
    intro heq
    rw [heq, Nat.div_self p.maxBytesPerBatch_pos] at hnb
    cases hnb
  rw [p.numBatches_of_ne hne, hnb]

end Lengths

/-- The tables of `comp_file`, and of `enc_file` and `dec_file`, hold the
threads of every batch of every file but the one of exactly one full batch. -/
theorem threadTable_iff (x : FileData) :
    (compPlan.InTable x.size ↔ x.size ≠ 64000000) ∧
      (encPlan.InTable x.size ↔ x.size ≠ 16777216) :=
  ⟨compPlan.inTable_iff x.length_lt, encPlan.inTable_iff x.length_lt⟩

theorem threadTable_overflow :
    ¬ compPlan.InTable 64000000 ∧ ¬ encPlan.InTable 16777216 := by
  constructor
  · intro htable
    exact (compPlan.inTable_iff (by decide)).mp htable rfl
  · intro htable
    exact (encPlan.inTable_iff (by decide)).mp htable rfl

end EcFtp
