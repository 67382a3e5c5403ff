/-
The frame `comp_file`, `enc_file` and `dec_file` share: per batch, set the
threads' arguments, run the threads, make use of their work.  The rules here
turn facts about one thread into facts about a whole file.
-/
import EcFtp.ThreadPlan

namespace EcFtp

open ByteStrings Exec WorkerOrder

/-- `read_bytes`: its result, the memory it read into and the moved stream. -/
def readBytes (fails : Bool) (ret : Buffer) (numBytes : Nat) (f : FILE) :
    Option (Int × Buffer × FILE) :=
  let (got, f) := if fails then ([], f) else f.read numBytes
  (ret.store 0 got).map fun ret =>
    (if got.length = numBytes then 0 else -1, ret, f)

/-- A thread reads the bytes it was assigned; or its read fails, or finds
fewer, and it is told so. -/
theorem readBytes_cases (fails : Bool) (len : Nat) (f : FILE) :
    (slice f.data f.pos len).length = len ∧
        readBytes fails (malloc len) len f =
          some (0, filled (slice f.data f.pos len) 0,
            { f with pos := f.pos + len }) ∨
      (fails = true ∨ (slice f.data f.pos len).length < len) ∧
        ∃ buf f', readBytes fails (malloc len) len f = some (-1, buf, f') := by
  have hle : (slice f.data f.pos len).length ≤ len := by
    rw [length_slice]
    exact Nat.min_le_left _ _
  have hnil : (malloc len).store 0 [] = some (malloc len) := by
    simp [Buffer.store]
  cases fails with
  | false =>
      have hstore := @store_filled [] (slice f.data f.pos len) len hle
      rw [List.length_nil, List.nil_append, ← malloc_eq_filled] at hstore
      by_cases hall : (slice f.data f.pos len).length = len
      · left
        rw [hall, Nat.sub_self] at hstore
        simp [readBytes, FILE.read, hall, hstore]
      · right
        refine ⟨.inr (by omega), filled (slice f.data f.pos len)
          (len - (slice f.data f.pos len).length), (f.read len).2, ?_⟩
        simp only [readBytes, FILE.read, Bool.false_eq_true, ↓reduceIte, hstore,
          Option.map_some, hall]
  | true =>
      by_cases hzero : len = 0
      · subst hzero
        left
        simp [readBytes, hnil, slice]
        rfl
      · right
        refine ⟨.inl rfl, malloc len, f, ?_⟩
        simp [readBytes, hnil, Ne.symm hzero]

/-- `fopen(input_fp, "rb")` and `fseek` for one thread. -/
def openReader (env : Env) (input : Option Bytes) (pos : Int)
    (batchIndex threadIndex : Nat) : Prog FILE :=
  match input with
  | none => throw (.ret (-1))
  | some data => do
      returnIf (env.fails (.fopenReader batchIndex threadIndex))
      emit (.opened (.reader batchIndex threadIndex))
      pure ((FILE.ofData data).seekSet pos)

theorem triple_openReader {env : Env} {data : Bytes} {b t : Nat}
    {P : IoState → Prop} {E : Exit → IoState → Prop} (hP : LogFree P)
    (hfault : env.Faulty → ∀ s, E (.ret (-1)) s) (pos : Int) :
    Triple P (openReader env (some data) pos b t)
      (fun f s => f = (FILE.ofData data).seekSet pos ∧ P s) E := by
  refine Triple.bind (triple_call hfault _) fun _ => ?_
  refine Triple.bind (triple_emit hP _) fun _ => ?_
  exact Triple.pure fun s hs => ⟨rfl, hs⟩

theorem seekSet_of_nat (data : Bytes) (pos : Nat) :
    (FILE.ofData data).seekSet pos = ⟨data, pos, false⟩ := by
  rw [FILE.seekSet, if_neg (by omega)]
  rfl

section Frame

variable {σ : Type}

/-- `if (args[t].return_val != 0) return -1;` -/
def checkReturn (returnVal : σ → Option Int) (args : List σ) (t : Nat) :
    Prog PUnit :=
  match args[t]?.bind returnVal with
  | none => throw .undefined
  | some val => returnIf (val != 0)

/-- Run the threads: all but the last are created, the last one's work is done
by the caller, then the others are joined. -/
def runThreads (env : Env) (work : Nat → σ → Option σ)
    (returnVal : σ → Option Int) (batchIndex : Nat) (args : List σ) :
    Prog (List σ) := do
  (List.range (args.length - 1)).forM fun t => do
    returnIf (env.fails (.pthreadCreate batchIndex t))
    emit (.created batchIndex t)
  match runOrder work (env.order batchIndex args.length) args with
  | none => throw .undefined
  | some args => do
      (List.range args.length).forM fun t => emit (.ran batchIndex t)
      checkReturn returnVal args (args.length - 1)
      (List.range (args.length - 1)).forM fun t => do
        emit (.joined batchIndex t)
        checkReturn returnVal args t
      pure args

/-- What one of the file functions does for the thread `t` of batch `b`. -/
structure FileJob (σ : Type) where
  setArgs : Nat → Nat → Prog σ
  work : Nat → Nat → σ → Option σ
  returnVal : σ → Option Int
  useWork : Nat → Nat → σ → Prog PUnit

/-- Set the arguments of one thread, which has to have its place in `args`. -/
def setArg (p : ThreadPlan) (job : FileJob σ) (batchIndex t : Nat) : Prog σ :=
  if t < p.tableLen then job.setArgs batchIndex t else throw .undefined

/-- MUTW: the work of each thread is used in turn. -/
def useThreads (useWork : Nat → σ → Prog PUnit) (numThreads : Nat)
    (args : List σ) : Prog PUnit :=
  (List.range numThreads).forM fun t =>
    match args[t]? with
    | none => throw .undefined
    | some arg => useWork t arg

/-- The three stages of one batch. -/
def runStages (p : ThreadPlan) (env : Env) (job : FileJob σ)
    (batchIndex numThreads : Nat) : Prog PUnit := do
  let args ← (List.range numThreads).mapM (setArg p job batchIndex)
  let args ← runThreads env (job.work batchIndex) job.returnVal batchIndex args
  useThreads (job.useWork batchIndex) numThreads args

/-- One batch.  Without a thread there is no `args[num_threads - 1]`. -/
def runBatch (p : ThreadPlan) (env : Env) (stSize : Int) (job : FileJob σ)
    (batchIndex : Nat) : Prog PUnit :=
  let numThreads := p.numThreads stSize batchIndex
  if numThreads ≤ 0 then throw .undefined
  else runStages p env job batchIndex numThreads.toNat

def runBatches (p : ThreadPlan) (env : Env) (stSize : Int) (job : FileJob σ) :
    Prog PUnit :=
  (List.range (p.numBatches stSize)).forM (runBatch p env stSize job)

/-- The batches between the opening and the closing of the output file. -/
def aroundBatches (p : ThreadPlan) (env : Env) (stSize : Int) (job : FileJob σ) :
    Prog PUnit := do
  returnIf (env.fails .fopenOut)
  emit (.opened .out)
  runBatches p env stSize job
  emit (.closed .out)

variable {env : Env} {E : Exit → IoState → Prop} {P : IoState → Prop}
  {work : Nat → σ → Option σ} {returnVal : σ → Option Int}
  {slot ran : Nat → σ} {n batchIndex : Nat}

theorem getElem?_map_range {t : Nat} (f : Nat → σ) (ht : t < n) :
    ((List.range n).map f)[t]? = some (f t) := by
  rw [List.getElem?_map, List.getElem?_range ht]
  rfl

/-- How the work of a thread may end: without a meaning, with the return value
zero, or with another one, on which the function returns `-1`. -/
def WorkEnds (E : Exit → IoState → Prop) (returnVal : σ → Option Int) :
    Option σ → Prop
  | none => ∀ s, E .undefined s
  | some a => returnVal a = some 0 ∨
      ∃ r, returnVal a = some r ∧ r ≠ 0 ∧ ∀ s, E (.ret (-1)) s

/-- The slot holds what a successful thread left in it. -/
def Worked (returnVal : σ → Option Int) (res : Option σ) (a : σ) : Prop :=
  res = some a ∧ returnVal a = some 0

theorem triple_checkReturn {args : List σ} {t : Nat} {a : σ}
    (ha : args[t]? = some a) (hends : WorkEnds E returnVal (some a)) :
    Triple P (checkReturn returnVal args t)
      (fun _ s => returnVal a = some 0 ∧ P s) E := by
  unfold checkReturn
  rw [ha]
  rcases hends with hzero | ⟨r, hval, hne, hexit⟩
  · simp only [Option.bind_some, hzero]
    exact Triple.pure fun s hs => ⟨trivial, hs⟩
  · have hcond : (r != 0) = true := by simpa using hne
    simp only [Option.bind_some, hval, hcond]
    exact Triple.throw fun s _ => hexit s

theorem triple_create (hP : LogFree P)
    (hfault : env.Faulty → ∀ s, E (.ret (-1)) s) (t : Nat) :
    Triple P (do
      returnIf (env.fails (.pthreadCreate batchIndex t))
      emit (.created batchIndex t)) (fun _ => P) E := by
  exact Triple.bind (triple_call hfault _) fun _ => triple_emit hP _

/-- All threads of a batch have done their work and returned. -/
theorem triple_runThreads_some (hP : LogFree P)
    (hfault : env.Faulty → ∀ s, E (.ret (-1)) s) (hn : 0 < n)
    (hwork : ∀ t < n, work t (slot t) = some (ran t))
    (hends : ∀ t < n, WorkEnds E returnVal (some (ran t))) :
    Triple P (runThreads env work returnVal batchIndex ((List.range n).map slot))
      (fun args s => args = (List.range n).map ran ∧
        (∀ t < n, returnVal (ran t) = some 0) ∧ P s) E := by
  have horder := env.order_perm batchIndex n
  have hslot := fun t (ht : t < n) => getElem?_map_range ran ht
  unfold runThreads
  simp only [List.length_map, List.length_range,
    runOrder_eq_some horder hwork]
  refine Triple.bind (R := fun _ => P) ?_ fun _ => ?_
  · exact Triple.forM_range (fun _ => P) fun t _ => triple_create hP hfault t
  refine Triple.bind (R := fun _ => P) ?_ fun _ => ?_
  · exact Triple.forM_range (fun _ => P) fun t _ => triple_emit hP _
  refine Triple.bind
    (triple_checkReturn (hslot (n - 1) (by omega)) (hends _ (by omega)))
    fun _ => ?_
  refine Triple.assume fun hlast => ?_
  refine Triple.bind
    (R := fun _ s => (∀ t < n - 1, returnVal (ran t) = some 0) ∧ P s) ?_
    fun _ => ?_
  · refine (Triple.forM_range
      (fun k s => (∀ t < k, returnVal (ran t) = some 0) ∧ P s)
      fun k hk => ?_).pre fun s hs => ⟨fun t ht => absurd ht (by omega), hs⟩
    refine Triple.assume fun hbefore => ?_
    refine Triple.bind (triple_emit hP _) fun _ => ?_
    refine (triple_checkReturn (hslot k (by omega))
      (hends k (by omega))).post ?_
    rintro _ s ⟨hzero, hs⟩
    refine ⟨fun t ht => ?_, hs⟩
    rcases Nat.lt_succ_iff_lt_or_eq.mp ht with hlt | rfl
    · exact hbefore t hlt
    · exact hzero
  · refine Triple.pure fun s hs => ⟨rfl, fun t ht => ?_, hs.2⟩
    by_cases heq : t = n - 1
    · rw [heq]
      exact hlast
    · exact hs.1 t (by omega)

/-- A thread whose work has no meaning takes the meaning of the batch with
it. -/
theorem triple_runThreads_none (hP : LogFree P)
    (hfault : env.Faulty → ∀ s, E (.ret (-1)) s)
    (hundef : ∀ s, E .undefined s) {t : Nat} (ht : t < n)
    (hwork : work t (slot t) = none) {Q : List σ → IoState → Prop} :
    Triple P (runThreads env work returnVal batchIndex
      ((List.range n).map slot)) Q E := by
  have horder := env.order_perm batchIndex n
  unfold runThreads
  simp only [List.length_map, List.length_range,
    runOrder_eq_none horder ht hwork]
  refine Triple.bind (R := fun _ => P) ?_ fun _ => ?_
  · exact Triple.forM_range (fun _ => P) fun t _ => triple_create hP hfault t
  · exact Triple.throw fun s _ => hundef s

/-- The threads of a batch do their work, in whatever order they finish; the
function goes on only when all of them have returned zero. -/
theorem triple_runThreads (hP : LogFree P)
    (hfault : env.Faulty → ∀ s, E (.ret (-1)) s) (hn : 0 < n)
    (hwork : ∀ t < n, WorkEnds E returnVal (work t (slot t))) :
    Triple P (runThreads env work returnVal batchIndex ((List.range n).map slot))
      (fun args s => (∀ t < n, ∃ a, args[t]? = some a ∧
        Worked returnVal (work t (slot t)) a) ∧ P s) E := by
  by_cases hnone : ∃ t < n, work t (slot t) = none
  · obtain ⟨t, ht, heq⟩ := hnone
    have hundef := hwork t ht
    rw [heq] at hundef
    exact triple_runThreads_none hP hfault hundef ht heq
  · let ran : Nat → σ := fun t => (work t (slot t)).getD (slot t)
    have hran : ∀ t < n, work t (slot t) = some (ran t) := by
      intro t ht
      cases hres : work t (slot t) with
      | none => exact absurd ⟨t, ht, hres⟩ hnone
      | some a => simp [ran, hres]
    refine (triple_runThreads_some hP hfault hn hran
      fun t ht => hran t ht ▸ hwork t ht).post ?_
    rintro args s ⟨rfl, hzero, hs⟩
    refine ⟨fun t ht => ⟨ran t, ?_, hran t ht, hzero t ht⟩, hs⟩
    exact getElem?_map_range ran ht

variable {p : ThreadPlan} {stSize : Int} {job : FileJob σ}

theorem runBatch_eq (hthreads : p.numThreads stSize batchIndex = n)
    (hn : 0 < n) : runBatch p env stSize job batchIndex =
      runStages p env job batchIndex n := by
  simp only [runBatch, hthreads, Int.toNat_natCast]
  rw [if_neg (by omega)]

theorem triple_setArg {t : Nat} {Q : σ → IoState → Prop}
    (ht : t < p.tableLen) (hset : Triple P (job.setArgs batchIndex t) Q E) :
    Triple P (setArg p job batchIndex t) Q E := by
  rw [setArg, if_pos ht]
  exact hset

/-- One batch, from what each of its threads does.  `I t` holds before the
work of thread `t` is used. -/
theorem triple_runBatch (slot : Nat → σ) (I : Nat → IoState → Prop)
    (hI : LogFree (I 0)) (hfault : env.Faulty → ∀ s, E (.ret (-1)) s)
    (hthreads : p.numThreads stSize batchIndex = n) (hn : 0 < n)
    (hlen : n ≤ p.tableLen)
    (hset : ∀ t < n, Triple (I 0) (job.setArgs batchIndex t)
      (fun a s => a = slot t ∧ I 0 s) E)
    (hwork : ∀ t < n,
      WorkEnds E job.returnVal (job.work batchIndex t (slot t)))
    (huse : ∀ t < n, ∀ a,
      Worked job.returnVal (job.work batchIndex t (slot t)) a →
      Triple (I t) (job.useWork batchIndex t a) (fun _ => I (t + 1)) E) :
    Triple (I 0) (runBatch p env stSize job batchIndex) (fun _ => I n) E := by
  rw [runBatch_eq hthreads hn]
  refine Triple.bind (Triple.mapM_range fun t ht =>
    triple_setArg (by omega) (hset t ht)) fun args => ?_
  refine Triple.assume fun hargs => ?_
  subst hargs
  refine Triple.bind (triple_runThreads hI hfault hn hwork) fun args => ?_
  refine Triple.assume fun hworked => ?_
  refine Triple.forM_range I fun t ht => ?_
  obtain ⟨a, ha, hdone⟩ := hworked t ht
  rw [ha]
  exact huse t ht a hdone

/-- A batch with more threads than the table has elements. -/
theorem triple_runBatch_overflow (hundef : ∀ s, E .undefined s)
    (hthreads : p.numThreads stSize batchIndex = n) (hlen : p.tableLen < n)
    (hset : ∀ t < p.tableLen,
      Triple P (job.setArgs batchIndex t) (fun _ => P) E)
    {Q : PUnit → IoState → Prop} :
    Triple P (runBatch p env stSize job batchIndex) Q E := by
  rw [runBatch_eq hthreads (by omega)]
  refine Triple.bind_stop ?_
  refine Triple.mapM_range_stop hlen (fun t ht => ?_) ?_
  · exact triple_setArg ht (hset t ht)
  · rw [setArg, if_neg (by omega)]
    exact Triple.throw fun s _ => hundef s

variable {p : ValidPlan} {size : Nat}

/-- What the rules for a whole file assume of its threads: the first stage
fills in every slot, and the work on it ends. -/
structure ThreadsRun (p : ValidPlan) (size : Nat) (job : FileJob σ)
    (slot : Nat → Nat → σ) (E : Exit → IoState → Prop) : Prop where
  setArgs : ∀ b t, p.Full size b t ∨ p.Last size b t → ∀ P, LogFree P →
    Triple P (job.setArgs b t) (fun a s => a = slot b t ∧ P s) E
  work : ∀ b t, p.Full size b t ∨ p.Last size b t →
    WorkEnds E job.returnVal (job.work b t (slot b t))

/-- The use of the work of every whole chunk moves `I` on by the length of the
chunk: `I off` holds when the first `off` bytes of the file are done. -/
def FullChunksUsed (p : ValidPlan) (size : Nat) (job : FileJob σ)
    (slot : Nat → Nat → σ) (I : Nat → IoState → Prop)
    (E : Exit → IoState → Prop) : Prop :=
  ∀ b t, p.Full size b t →
    ∀ a, Worked job.returnVal (job.work b t (slot b t)) a →
      Triple (I (p.offset b t)) (job.useWork b t a)
        (fun _ => I (p.offset b t + p.threadMaxMem)) E

/-- A whole batch of whole chunks. -/
theorem triple_fullBatch {slot : Nat → Nat → σ} (I : Nat → IoState → Prop)
    (hI : ∀ off, LogFree (I off)) (hfault : env.Faulty → ∀ s, E (.ret (-1)) s)
    (hb : batchIndex + 1 < p.numBatches size)
    (hrun : ThreadsRun p size job slot E)
    (hfull : FullChunksUsed p size job slot I E) :
    Triple (I (p.offset batchIndex 0))
      (runBatch p.toThreadPlan env size job batchIndex)
      (fun _ => I (p.offset (batchIndex + 1) 0)) E := by
  have hthread : ∀ t < p.maxThreads, p.Full size batchIndex t :=
    fun t ht => .inl ⟨hb, ht⟩
  rw [p.offset_succ_batch]
  refine triple_runBatch (slot batchIndex) (fun t => I (p.offset batchIndex t))
    (hI _) hfault (p.numThreads_full hb) p.maxThreads_pos
    (Nat.le_of_eq p.tableLen_eq.symm)
    (fun t ht => ?_) (fun t ht => ?_) (fun t ht a ha => ?_)
  · exact hrun.setArgs _ t (.inl (hthread t ht)) _ (hI _)
  · exact hrun.work _ t (.inl (hthread t ht))
  · rw [p.offset_succ_thread]
    exact hfull _ t (hthread t ht) a ha

theorem full_or_last_of_lt {t : Nat} (hb : batchIndex + 1 = p.numBatches size)
    (ht : t < p.lastThreads size) :
    p.Full size batchIndex t ∨ p.Last size batchIndex t := by
  by_cases hlast : t + 1 = p.lastThreads size
  · exact .inr ⟨hb, hlast⟩
  · exact .inl (.inr ⟨hb, by omega⟩)

/-- The last batch, whose last thread's work is used in its own way. -/
theorem triple_lastBatch {slot : Nat → Nat → σ} (I : Nat → IoState → Prop)
    {R : IoState → Prop} (hI : ∀ off, LogFree (I off))
    (hfault : env.Faulty → ∀ s, E (.ret (-1)) s) (hn : size < 2 ^ 63)
    (hne : size ≠ p.maxBytesPerBatch)
    (hb : batchIndex + 1 = p.numBatches size)
    (hrun : ThreadsRun p size job slot E)
    (hfull : FullChunksUsed p size job slot I E)
    (hlast : ∀ b t, p.Last size b t →
      ∀ a, Worked job.returnVal (job.work b t (slot b t)) a →
        Triple (I (p.offset b t)) (job.useWork b t a) (fun _ => R) E) :
    Triple (I (p.offset batchIndex 0))
      (runBatch p.toThreadPlan env size job batchIndex) (fun _ => R) E := by
  let J : Nat → IoState → Prop := fun t =>
    if t < p.lastThreads size then I (p.offset batchIndex t) else R
  have hpos : 0 < p.lastThreads size := Nat.succ_pos _
  have hstart : J 0 = I (p.offset batchIndex 0) := if_pos hpos
  have hend : J (p.lastThreads size) = R := if_neg (Nat.lt_irrefl _)
  have hthread := fun t => @full_or_last_of_lt batchIndex p size t hb
  rw [← hstart, ← hend]
  refine triple_runBatch (slot batchIndex) J (hstart ▸ hI _)
    hfault (p.numThreads_last hn hne hb) hpos
    (Nat.le_trans (p.lastThreads_le size) (Nat.le_of_eq p.tableLen_eq.symm))
    (fun t ht => ?_) (fun t ht => ?_) (fun t ht a ha => ?_)
  · exact hrun.setArgs _ t (hthread t ht) _ (hstart ▸ hI _)
  · exact hrun.work _ t (hthread t ht)
  · have hbefore : J t = I (p.offset batchIndex t) := if_pos ht
    rw [hbefore]
    by_cases hlt : t + 1 < p.lastThreads size
    · have hafter : J (t + 1) = I (p.offset batchIndex (t + 1)) := if_pos hlt
      rw [hafter, p.offset_succ_thread]
      exact hfull _ t (.inr ⟨hb, hlt⟩) a ha
    · have hafter : J (t + 1) = R := if_neg hlt
      rw [hafter]
      exact hlast _ t ⟨hb, by omega⟩ a ha

/-- All batches of a file, from what its threads do. -/
theorem triple_runBatches {slot : Nat → Nat → σ} (I : Nat → IoState → Prop)
    {R : IoState → Prop} (hI : ∀ off, LogFree (I off))
    (hfault : env.Faulty → ∀ s, E (.ret (-1)) s) (hn : size < 2 ^ 63)
    (hne : size ≠ p.maxBytesPerBatch) (hnb : 0 < p.numBatches size)
    (hrun : ThreadsRun p size job slot E)
    (hfull : FullChunksUsed p size job slot I E)
    (hlast : ∀ b t, p.Last size b t →
      ∀ a, Worked job.returnVal (job.work b t (slot b t)) a →
        Triple (I (p.offset b t)) (job.useWork b t a) (fun _ => R) E) :
    Triple (I 0) (runBatches p.toThreadPlan env size job) (fun _ => R) E := by
  obtain ⟨last, hb⟩ : ∃ b, b + 1 = p.numBatches size :=
    ⟨p.numBatches size - 1, by omega⟩
  have hzero : p.offset 0 0 = 0 := by simp [ValidPlan.offset]
  unfold runBatches
  rw [← hb, ← hzero]
  refine Triple.forM_range_succ (fun b => I (p.offset b 0)) (fun b hlt => ?_) ?_
  · exact triple_fullBatch I hI hfault (by omega) hrun hfull
  · exact triple_lastBatch I hI hfault hn hne hb hrun hfull hlast

/-- A file of exactly one full batch has one thread more than the table has
elements. -/
theorem triple_runBatches_overflow (hundef : ∀ s, E .undefined s)
    (hset : ∀ t < p.maxThreads, Triple P (job.setArgs 0 t) (fun _ => P) E)
    {Q : PUnit → IoState → Prop} :
    Triple P (runBatches p.toThreadPlan env p.maxBytesPerBatch job) Q E := by
  have htable := p.tableLen_eq
  unfold runBatches
  rw [p.numBatches_max]
  refine Triple.bind_stop ?_
  exact triple_runBatch_overflow hundef (n := p.maxThreads + 1)
    p.numThreads_max (by omega) (fun t ht => hset t (by omega))

end Frame

end EcFtp
