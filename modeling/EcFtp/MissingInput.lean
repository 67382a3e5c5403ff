/-
The file functions on an input that does not exist.  Nothing looks at the result of
`stat`: whatever its buffer held is taken for the size of the file, and the first `fopen`
of the input lies behind what is computed from it.
-/
import EcFtp.CompFile
import EcFtp.EncFile

namespace EcFtp

open Exec

/-- A nonzero code is returned, and no thread has been created or has run. -/
def Reported (r : EStateM.Result Exit IoState PUnit) : Prop :=
  (∃ code, exitCode r = some code ∧ code ≠ 0) ∧
    ∀ b t, .created b t ∉ (finalState r).log ∧ .ran b t ∉ (finalState r).log

/-- The sizes with which there is a batch, and a thread in the first one. -/
def HasThread (p : ThreadPlan) (stSize : Int) : Prop :=
  if 0 ≤ stSize then (stSize / p.maxBytesPerBatch + 1) % 2 ^ 32 ≠ 0
  else 1 ≤ ((2 ^ 64 + stSize) / p.threadMaxMem + 1) % 256 ∧
    ((2 ^ 64 + stSize) / p.threadMaxMem + 1) % 256 ≤ 127

section Sizes

variable {p : ValidPlan} {n : Nat} {stSize : Int}

theorem toChar_pos_iff (z : Int) : 0 < toChar z ↔ 1 ≤ z % 256 ∧ z % 256 ≤ 127 := by
  unfold toChar
  rw [Int.bmod_def]
  split
  · omega
  · omega

theorem numThreads_pos (hn : n < 2 ^ 63) (hnb : p.numBatches n ≠ 0) :
    0 < p.numThreads n 0 := by
  have hpos := p.maxThreads_pos
  by_cases hne : n = p.maxBytesPerBatch
  · rw [hne, p.numThreads_max]
    omega
  · by_cases hlast : 0 + 1 = p.numBatches n
    · rw [p.numThreads_last hn hne hlast]
      exact Int.natCast_pos.mpr (Nat.succ_pos _)
    · rw [p.numThreads_full (by omega)]
      omega

/-- A size that is negative gives one batch, with as many threads as the low byte
says. -/
theorem numThreads_neg (hneg : stSize < 0) (hmin : -2 ^ 63 ≤ stSize) :
    p.numBatches stSize = 1 ∧
      p.numThreads stSize 0 = toChar ((2 ^ 64 + stSize) / p.threadMaxMem + 1) := by
  have hnb : p.numBatches stSize = 1 := by
    rw [ThreadPlan.numBatches, if_neg (by omega)]
  refine ⟨hnb, ?_⟩
  have hlen : (p.batchLen stSize 0 : Int) = 2 ^ 64 + stSize := by
    unfold ThreadPlan.batchLen toSizeT
    omega
  rw [ThreadPlan.numThreads, hnb, if_neg (by omega), hlen]

theorem hasThread_iff (hmin : -2 ^ 63 ≤ stSize) (hmax : stSize < 2 ^ 63) :
    HasThread p.toThreadPlan stSize ↔
      p.numBatches stSize ≠ 0 ∧ 0 < p.numThreads stSize 0 := by
  unfold HasThread
  by_cases hneg : 0 ≤ stSize
  · obtain ⟨n, rfl⟩ := Int.eq_ofNat_of_zero_le hneg
    have hn : n < 2 ^ 63 := by omega
    have hcast : ((n : Int) / p.maxBytesPerBatch + 1) % 2 ^ 32 ≠ 0 ↔
        (n / p.maxBytesPerBatch + 1) % 2 ^ 32 ≠ 0 := by
      rw [← Int.natCast_ediv]
      omega
    have hnb : p.numBatches n ≠ 0 ↔ (n / p.maxBytesPerBatch + 1) % 2 ^ 32 ≠ 0 := by
      by_cases hne : n = p.maxBytesPerBatch
      · rw [hne, p.numBatches_max, Nat.div_self p.maxBytesPerBatch_pos]
        decide
      · rw [p.numBatches_of_ne hne]
    rw [if_pos hneg, hcast, ← hnb]
    exact ⟨fun h => ⟨h, numThreads_pos hn h⟩, fun h => h.1⟩
  · obtain ⟨hnb, hthreads⟩ := @numThreads_neg p stSize (by omega) hmin
    rw [if_neg hneg, hnb, hthreads, toChar_pos_iff]
    simp

end Sizes

section Runs

variable {σ : Type} {p : ValidPlan} {env : Env} {stSize : Int} {job : FileJob σ}

theorem runBatch_missing
    (hmissing : ∀ b t s, job.setArgs b t s = .error (.ret (-1)) s)
    (b : Nat) (s : IoState) :
    runBatch p.toThreadPlan env stSize job b s =
      .error (if 0 < p.numThreads stSize b then .ret (-1) else .undefined) s := by
  simp only [runBatch]
  by_cases hpos : 0 < p.numThreads stSize b
  · obtain ⟨k, hk⟩ : ∃ k, (p.numThreads stSize b).toNat = k + 1 :=
      ⟨(p.numThreads stSize b).toNat - 1, by omega⟩
    have htable : 0 < p.tableLen := by
      rw [p.tableLen_eq]
      exact p.maxThreads_pos
    have hfirst : setArg p.toThreadPlan job b 0 s = .error (.ret (-1)) s := by
      rw [setArg, if_pos htable]
      exact hmissing b 0 s
    rw [if_neg (by omega), if_pos hpos, hk, runStages,
      List.range_succ_eq_map, List.mapM_cons]
    exact bind_of_error (bind_of_error hfirst)
  · rw [if_pos (by omega), if_neg hpos]
    rfl

/-- What the batches come to when the first of them finds that there is no input. -/
theorem runBatches_missing
    (hmissing : ∀ b t s, job.setArgs b t s = .error (.ret (-1)) s) (s : IoState) :
    runBatches p.toThreadPlan env stSize job s =
      if p.numBatches stSize = 0 then .ok ⟨⟩ s
      else .error (if 0 < p.numThreads stSize 0 then .ret (-1) else .undefined) s := by
  unfold runBatches
  cases hnb : p.numBatches stSize with
  | zero => rfl
  | succ k =>
      rw [if_neg (Nat.succ_ne_zero k), List.range_succ_eq_map]
      exact bind_of_error (runBatch_missing hmissing 0 s)

theorem aroundBatches_missing
    (hmissing : ∀ b t s, job.setArgs b t s = .error (.ret (-1)) s) :
    aroundBatches p.toThreadPlan env stSize job .empty =
      if env.fails .fopenOut = true then .error (.ret (-1)) .empty
      else if p.numBatches stSize = 0 then .ok ⟨⟩ ⟨[], [], [.opened .out, .closed .out]⟩
      else .error (if 0 < p.numThreads stSize 0 then .ret (-1) else .undefined)
        ⟨[], [], [.opened .out]⟩ := by
  unfold aroundBatches
  cases env.fails .fopenOut with
  | true => rfl
  | false =>
      have hrun :=
        @runBatches_missing _ p env stSize job hmissing ⟨[], [], [.opened .out]⟩
      have hopen : (returnIf false : Prog PUnit) .empty = .ok ⟨⟩ .empty := rfl
      have hemit : emit (.opened .out) .empty = .ok ⟨⟩ ⟨[], [], [.opened .out]⟩ := rfl
      rw [bind_of_ok hopen, bind_of_ok hemit, if_neg (by decide)]
      split
      · rename_i hzero
        rw [if_pos hzero] at hrun
        rw [bind_of_ok hrun]
        rfl
      · rename_i hsome
        rw [if_neg hsome] at hrun
        rw [bind_of_error hrun]

theorem aroundBatches_reported_iff {st : BitVec 64}
    (hmissing : ∀ b t s, job.setArgs b t s = .error (.ret (-1)) s) :
    Reported (aroundBatches p.toThreadPlan env st.toInt job .empty) ↔
      env.fails .fopenOut = true ∨ HasThread p.toThreadPlan st.toInt := by
  rw [hasThread_iff st.le_toInt st.toInt_lt, aroundBatches_missing hmissing]
  by_cases hopen : env.fails .fopenOut = true
  · simp [hopen, Reported, exitCode, finalState, IoState.empty]
  · by_cases hzero : p.numBatches st.toInt = 0
    · simp [hopen, hzero, Reported, exitCode, finalState]
    · by_cases hpos : 0 < p.numThreads st.toInt 0
      · simp [hopen, hzero, hpos, Reported, exitCode, finalState]
      · simp [hopen, hzero, hpos, Reported, exitCode]

end Runs

/-- The three functions report a missing input exactly where they cannot open their
output either, or the size that `stat` left gives them a thread. -/
theorem missingInput_reported_iff (lzma : Lzma) (env : Env) (key : Key) (st : BitVec 64) :
    (Reported (compFile lzma env st.toInt none .empty) ↔
        env.fails .fopenOut = true ∨ HasThread compPlan.toThreadPlan st.toInt) ∧
      (Reported (encFile env st.toInt none key .empty) ↔
        env.fails .fopenOut = true ∨ HasThread encPlan.toThreadPlan st.toInt) ∧
      (Reported (decFile env st.toInt none key .empty) ↔
        env.fails .fopenOut = true ∨ HasThread encPlan.toThreadPlan st.toInt) := by
  obtain ⟨avars, havars, _⟩ := encAesVars_inverse key
  refine ⟨?_, ?_, ?_⟩
  · exact aroundBatches_reported_iff fun _ _ _ => rfl
  · rw [encFile, encFileWith, cryptFile, havars]
    exact aroundBatches_reported_iff fun _ _ _ => rfl
  · rw [decFile, decFileWith, cryptFile, havars]
    exact aroundBatches_reported_iff fun _ _ _ => rfl

/-- A key of zeros. -/
def zeroKey : Key := Vector.replicate 4 0

theorem notReported_of_threads {σ : Type} {p : ValidPlan} {job : FileJob σ} {stSize : Int}
    (hmissing : ∀ b t s, job.setArgs b t s = .error (.ret (-1)) s)
    (hneg : stSize < 0) (hmin : -2 ^ 63 ≤ stSize)
    (hthreads : toChar ((2 ^ 64 + stSize) / p.threadMaxMem + 1) ≤ 0) :
    exitCode (aroundBatches p.toThreadPlan inOrderEnv.toEnv stSize job .empty) =
      none := by
  obtain ⟨hnb, hnum⟩ := @numThreads_neg p stSize hneg hmin
  rw [aroundBatches_missing hmissing, hnb, hnum]
  rw [if_neg (by decide), if_neg (by decide), if_neg (by omega)]
  rfl

theorem returnsZero_of_batches {σ : Type} {p : ValidPlan} {job : FileJob σ} {n : Nat}
    (hmissing : ∀ b t s, job.setArgs b t s = .error (.ret (-1)) s)
    (hnb : (n / p.maxBytesPerBatch + 1) % 2 ^ 32 = 0) :
    exitCode (aroundBatches p.toThreadPlan inOrderEnv.toEnv n job .empty) = some 0 := by
  rw [aroundBatches_missing hmissing, numBatches_eq_zero hnb]
  rfl

/-- Where `stat` left a size of `-1`, the functions look at an element in front of their
table; with a size that gives no batch they return zero. -/
theorem missingInput_notReported :
    (exitCode (compFile .storing inOrderEnv.toEnv (-1) none .empty) = none ∧
        exitCode (encFile inOrderEnv.toEnv (-1) none zeroKey .empty) = none ∧
        exitCode (decFile inOrderEnv.toEnv (-1) none zeroKey .empty) = none) ∧
      exitCode
        (compFile .storing inOrderEnv.toEnv (274877906880000000 : Nat) none .empty) =
        some 0 ∧
      exitCode (encFile inOrderEnv.toEnv (72057594021150720 : Nat) none zeroKey .empty) =
        some 0 ∧
      exitCode (decFile inOrderEnv.toEnv (72057594021150720 : Nat) none zeroKey .empty) =
        some 0 := by
  obtain ⟨avars, havars, _⟩ := encAesVars_inverse zeroKey
  simp only [encFile, encFileWith, decFile, decFileWith, cryptFile, havars]
  have hthreads : toChar ((2 ^ 64 + (-1)) / encPlan.threadMaxMem + 1) ≤ 0 := by decide
  have hbatches :
      (72057594021150720 / encPlan.maxBytesPerBatch + 1) % 2 ^ 32 = 0 := by decide
  refine ⟨⟨?_, ?_, ?_⟩, ?_, ?_, ?_⟩
  · exact @notReported_of_threads _ compPlan _ _ (fun _ _ _ => rfl)
      (by decide) (by decide)
      (by decide)
  · exact @notReported_of_threads _ encPlan.toValidPlan _ _ (fun _ _ _ => rfl) (by decide)
      (by decide) hthreads
  · exact @notReported_of_threads _ encPlan.toValidPlan _ _ (fun _ _ _ => rfl) (by decide)
      (by decide) hthreads
  · exact @returnsZero_of_batches _ compPlan _ _ (fun _ _ _ => rfl) (by decide)
  · exact @returnsZero_of_batches _ encPlan.toValidPlan _ _ (fun _ _ _ => rfl) hbatches
  · exact @returnsZero_of_batches _ encPlan.toValidPlan _ _ (fun _ _ _ => rfl) hbatches

end EcFtp
