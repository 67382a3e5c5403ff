/-
The streams a function of batches has open when it returns.  It closes its readers where
it uses the work of their threads, and its output file at its end; an early return closes
nothing.
-/
import EcFtp.CompFile
import EcFtp.EncFile
import EcFtp.EventLog

namespace EcFtp

open Exec WorkerOrder

/-- What concerns a stream: it is opened, it is closed, or the thread runs that reads
from it. -/
def concerns (stream : Stream) : Event → Bool
  | .opened s => s = stream
  | .closed s => s = stream
  | .ran b t => .reader b t = stream
  | .created _ _ => false
  | .joined _ _ => false

/-- Every stream that was opened was opened once, and its only closing is the last thing
that concerns it. -/
def Balanced (log : List Event) : Prop :=
  ∀ stream, log.filter (concerns stream) = [] ∨
    ∃ uses, log.filter (concerns stream) = .opened stream :: (uses ++ [.closed stream]) ∧
      .opened stream ∉ uses ∧ .closed stream ∉ uses

section Logs

theorem balanced_nil : Balanced [] := fun _ => .inl rfl

theorem mem_filter_concerns {log : List Event} {e : Event} {stream : Stream}
    (he : e ∈ log)
    (hc : concerns stream e = true) : e ∈ log.filter (concerns stream) :=
  List.mem_filter.mpr ⟨he, hc⟩

/-- A stream that is opened and not closed. -/
theorem not_balanced_of_open {log : List Event} {stream : Stream}
    (hopened : .opened stream ∈ log) (hclosed : .closed stream ∉ log) :
    ¬ Balanced log := by
  intro h
  have hmem : .opened stream ∈ log.filter (concerns stream) :=
    mem_filter_concerns hopened (by simp [concerns])
  rcases h stream with hnil | ⟨uses, hall, _⟩
  · rw [hnil] at hmem
    cases hmem
  · have hlast : .closed stream ∈ log.filter (concerns stream) := by
      rw [hall]
      simp
    exact hclosed (List.mem_of_mem_filter hlast)

/-- The events of the threads of one batch that falls through. -/
def threadsLog (b n : Nat) : List Event :=
  (List.range (n - 1)).flatMap (fun t => [.created b t]) ++
    ((List.range n).flatMap (fun t => [.ran b t]) ++
      (List.range (n - 1)).flatMap fun t => [.joined b t])

/-- The events of one batch that falls through. -/
def batchLog (b n : Nat) : List Event :=
  (List.range n).flatMap (fun t => [.opened (.reader b t)]) ++
    (threadsLog b n ++ (List.range n).flatMap fun t => [.closed (.reader b t)])

/-- The log of a file function that returns zero. -/
def fileLog (numThreads : Nat → Nat) (numBatches : Nat) : List Event :=
  .opened .out :: ((List.range numBatches).flatMap (fun b => batchLog b (numThreads b)) ++
    [.closed .out])

theorem flatMap_range_one {α : Type} {f : Nat → List α} {k : Nat}
    (h : ∀ t, t ≠ k → f t = []) (n : Nat) :
    (List.range n).flatMap f = if k < n then f k else [] := by
  induction n with
  | zero => rfl
  | succ n ih =>
      rw [List.range_succ, List.flatMap_append, List.flatMap_singleton, ih]
      by_cases hn : n = k
      · subst hn
        simp
      · rw [h n hn, List.append_nil]
        by_cases hlt : k < n
        · rw [if_pos hlt, if_pos (by omega)]
        · rw [if_neg hlt, if_neg (by omega)]

theorem filter_flatMap_none {q : Event → Bool} {e : Nat → Event}
    (h : ∀ t, q (e t) = false)
    (n : Nat) : ((List.range n).flatMap fun t => [e t]).filter q = [] := by
  rw [List.filter_eq_nil_iff]
  intro a ha
  obtain ⟨t, _, ht⟩ := List.mem_flatMap.mp ha
  rw [List.mem_singleton.mp ht, h t]
  decide

theorem filter_flatMap_one {q : Event → Bool} {e : Nat → Event} {k : Nat}
    (h : ∀ t, q (e t) = decide (t = k)) (n : Nat) :
    ((List.range n).flatMap fun t => [e t]).filter q = if k < n then [e k] else [] := by
  rw [List.filter_flatMap]
  have hrounds :=
    @flatMap_range_one _ (fun t => [e t].filter q) k (fun t ht => by simp [h, ht]) n
  rw [hrounds]
  simp [h]

/-- What concerns a reader within a batch. -/
theorem filter_batchLog_reader (b n c u : Nat) :
    (batchLog b n).filter (concerns (.reader c u)) =
      if c = b ∧ u < n then [.opened (.reader c u), .ran c u, .closed (.reader c u)]
      else [] := by
  rw [batchLog, threadsLog]
  simp only [List.filter_append]
  by_cases hc : c = b
  · subst hc
    rw [filter_flatMap_one (k := u) (by simp [concerns]),
      filter_flatMap_none (by simp [concerns]),
      filter_flatMap_one (k := u) (by simp [concerns]),
      filter_flatMap_none (by simp [concerns]),
      filter_flatMap_one (k := u) (by simp [concerns])]
    by_cases hu : u < n
    · simp [hu]
    · simp [hu]
  · have hb : b ≠ c := fun h => hc h.symm
    rw [filter_flatMap_none (by simp [concerns, hb]),
      filter_flatMap_none (by simp [concerns]),
      filter_flatMap_none (by simp [concerns, hb]),
      filter_flatMap_none (by simp [concerns]),
      filter_flatMap_none (by simp [concerns, hb])]
    simp [hc]

theorem filter_batchLog_other {stream : Stream} (h : ∀ b t, stream ≠ .reader b t)
    (b n : Nat) : (batchLog b n).filter (concerns stream) = [] := by
  have hne : ∀ b t, ¬ Stream.reader b t = stream := fun b t heq => h b t heq.symm
  rw [batchLog, threadsLog]
  simp only [List.filter_append]
  rw [filter_flatMap_none (by simp [concerns, hne]),
    filter_flatMap_none (by simp [concerns]),
    filter_flatMap_none (by simp [concerns, hne]),
    filter_flatMap_none (by simp [concerns]),
    filter_flatMap_none (by simp [concerns, hne])]
  rfl

/-- A file function that returns zero has closed all it has opened. -/
theorem balanced_fileLog (numThreads : Nat → Nat) (numBatches : Nat) :
    Balanced (fileLog numThreads numBatches) := by
  intro stream
  rw [fileLog, List.filter_cons, List.filter_append, List.filter_flatMap]
  cases stream with
  | reader c u =>
      have hbatches := @flatMap_range_one _
        (fun b => (batchLog b (numThreads b)).filter (concerns (.reader c u))) c
        (fun b hb => by
          rw [filter_batchLog_reader, if_neg]
          intro hcu
          exact hb hcu.1.symm) numBatches
      rw [hbatches, filter_batchLog_reader]
      by_cases hin : c < numBatches ∧ u < numThreads c
      · right
        refine ⟨[.ran c u], ?_, by simp, by simp⟩
        simp [concerns, hin]
      · left
        by_cases hc : c < numBatches
        · have hu : ¬ u < numThreads c := fun hu => hin ⟨hc, hu⟩
          simp [concerns, hu]
        · simp [concerns, hc]
  | out =>
      right
      have hnone : ∀ b, (batchLog b (numThreads b)).filter (concerns .out) = [] :=
        fun b => filter_batchLog_other (by simp) b _
      refine ⟨[], ?_, by simp, by simp⟩
      simp [concerns, hnone]
  | header =>
      left
      have hnone : ∀ b, (batchLog b (numThreads b)).filter (concerns .header) = [] :=
        fun b => filter_batchLog_other (by simp) b _
      simp [concerns, hnone]

end Logs

section Batches

variable {σ : Type}

/-- The work of thread `t` ends, with the return value zero. -/
def WorkerReturns (work : Nat → σ → Option σ) (returnVal : σ → Option Int)
    (slot : Nat → σ)
    (t : Nat) : Prop :=
  ∃ a, work t (slot t) = some a ∧ returnVal a = some 0

/-- The slot as the work of thread `t` leaves it. -/
def slotAfter (work : Nat → σ → Option σ) (slot : Nat → σ) (t : Nat) : σ :=
  (work t (slot t)).getD (slot t)

variable {env : Env} {work : Nat → σ → Option σ} {returnVal : σ → Option Int}
  {slot : Nat → σ} {args : List σ} {a : σ} {b n t : Nat}

theorem decided_checkReturn (ha : args[t]? = some a) :
    Decided (checkReturn returnVal args t) (returnVal a = some 0) ⟨⟩ [] := by
  unfold checkReturn
  rw [ha, Option.bind_some]
  cases returnVal a with
  | none => exact (Decided.throw _ _ _).congr (by simp)
  | some val => exact (Decided.returnIf _).congr (by simp)

theorem decided_create (b t : Nat) :
    Decided (do
      returnIf (env.fails (.pthreadCreate b t))
      emit (.created b t)) (env.fails (.pthreadCreate b t) = false) ⟨⟩ [.created b t] :=
  ((Decided.returnIf _).bind fun _ => Decided.emit _).congr (by simp)

/-- What comes behind the creation of the threads, if their work ends at all. -/
theorem decided_afterWork {ran : Nat → σ} (hn : 0 < n) :
    Decided (do
        (List.range n).forM fun t => emit (.ran b t)
        checkReturn returnVal ((List.range n).map ran) (n - 1)
        (List.range (n - 1)).forM fun t => do
          emit (.joined b t)
          checkReturn returnVal ((List.range n).map ran) t
        pure ((List.range n).map ran))
      (∀ t < n, returnVal (ran t) = some 0) ((List.range n).map ran)
      ((List.range n).flatMap (fun t => [.ran b t]) ++
        (List.range (n - 1)).flatMap fun t => [.joined b t]) := by
  have hget : ∀ t < n, ((List.range n).map ran)[t]? = some (ran t) :=
    fun t ht => getElem?_map_range ran ht
  have hran : Decided ((List.range n).forM fun t => emit (.ran b t)) (∀ t < n, True) ⟨⟩
      ((List.range n).flatMap fun t => [.ran b t]) :=
    Decided.forM_range fun t _ => Decided.emit _
  have hjoin : Decided ((List.range (n - 1)).forM fun t => do
        emit (.joined b t)
        checkReturn returnVal ((List.range n).map ran) t)
      (∀ t < n - 1, True ∧ returnVal (ran t) = some 0) ⟨⟩
      ((List.range (n - 1)).flatMap fun t => [.joined b t] ++ []) :=
    Decided.forM_range fun t ht =>
      (Decided.emit _).bind fun _ => decided_checkReturn (hget t (by omega))
  have hlog : (List.range n).flatMap (fun t => [Event.ran b t]) ++
      (List.range (n - 1)).flatMap (fun t => [Event.joined b t]) =
        (List.range n).flatMap (fun t => [.ran b t]) ++
          ([] ++
            ((List.range (n - 1)).flatMap (fun t => [.joined b t] ++ []) ++ [])) := by
    simp
  rw [hlog]
  refine Decided.congr
    (hran.bind fun _ => (decided_checkReturn (hget (n - 1) (by omega))).bind
    fun _ => hjoin.bind fun _ => Decided.pure _) ?_
  constructor
  · rintro ⟨_, hlast, hothers, _⟩ t ht
    by_cases heq : t = n - 1
    · rw [heq]
      exact hlast
    · exact (hothers t (by omega)).2
  · intro h
    exact ⟨fun _ _ => trivial, h _ (by omega),
      fun t ht => ⟨trivial, h t (by omega)⟩, trivial⟩

/-- The threads of one batch. -/
theorem decided_runThreads (hn : 0 < n) :
    Decided (runThreads env work returnVal b ((List.range n).map slot))
      ((∀ t < n - 1, env.fails (.pthreadCreate b t) = false) ∧
        ∀ t < n, WorkerReturns work returnVal slot t)
      ((List.range n).map (slotAfter work slot)) (threadsLog b n) := by
  have horder := env.order_perm b n
  have hcreate : Decided ((List.range (n - 1)).forM fun t => do
        returnIf (env.fails (.pthreadCreate b t))
        emit (.created b t))
      (∀ t < n - 1, env.fails (.pthreadCreate b t) = false) ⟨⟩
      ((List.range (n - 1)).flatMap fun t => [.created b t]) :=
    Decided.forM_range fun t _ => decided_create b t
  unfold runThreads
  simp only [List.length_map, List.length_range]
  refine hcreate.bind fun _ => ?_
  by_cases hall : ∀ t < n, work t (slot t) = some (slotAfter work slot t)
  · rw [runOrder_eq_some horder hall]
    simp only [List.length_map, List.length_range]
    refine (decided_afterWork hn).congr ?_
    constructor
    · intro h t ht
      exact ⟨_, hall t ht, h t ht⟩
    · intro h t ht
      obtain ⟨a, ha, hzero⟩ := h t ht
      rwa [slotAfter, ha]
  · simp only [not_forall] at hall
    obtain ⟨t, ht, hne⟩ := hall
    have hnone : work t (slot t) = none := by
      cases hres : work t (slot t) with
      | none => rfl
      | some a => exact absurd (by rw [slotAfter, hres]; rfl) hne
    rw [runOrder_eq_none horder ht hnone]
    refine (Decided.throw _ _ _).congr (iff_of_false id fun h => ?_)
    obtain ⟨a, ha, _⟩ := h t ht
    rw [hnone] at ha
    cases ha

/-- What decides whether the stages around the threads fall through: `canSet b t` for the
first stage, `canUse b t a` for the last. -/
structure JobSteps (job : FileJob σ) (slot : Nat → Nat → σ) (canSet : Nat → Nat → Prop)
    (canUse : Nat → Nat → σ → Prop) : Prop where
  setArgs :
    ∀ b t, Decided (job.setArgs b t) (canSet b t) (slot b t) [.opened (.reader b t)]
  useWork : ∀ b t a, Decided (job.useWork b t a) (canUse b t a) ⟨⟩ [.closed (.reader b t)]

/-- Nothing in batch `b` fails: it has threads, and a place for each; what they need is
set up, they are created, their work returns zero and is used. -/
structure BatchSucceeds (p : ThreadPlan) (env : Env) (stSize : Int) (job : FileJob σ)
    (slot : Nat → Nat → σ) (canSet : Nat → Nat → Prop) (canUse : Nat → Nat → σ → Prop)
    (b : Nat) : Prop where
  threads : 0 < p.numThreads stSize b
  set : ∀ t < (p.numThreads stSize b).toNat, t < p.tableLen ∧ canSet b t
  create : ∀ t < (p.numThreads stSize b).toNat - 1, env.fails (.pthreadCreate b t) = false
  work : ∀ t < (p.numThreads stSize b).toNat, ∃ a, job.work b t (slot b t) = some a ∧
    job.returnVal a = some 0 ∧ canUse b t a

variable {p : ThreadPlan} {stSize : Int} {job : FileJob σ} {slots : Nat → Nat → σ}
  {canSet : Nat → Nat → Prop} {canUse : Nat → Nat → σ → Prop}

theorem decided_setArg (hjob : JobSteps job slots canSet canUse) (b t : Nat) :
    Decided (setArg p job b t) (t < p.tableLen ∧ canSet b t) (slots b t)
      [.opened (.reader b t)] := by
  by_cases ht : t < p.tableLen
  · rw [setArg, if_pos ht]
    exact (hjob.setArgs b t).congr (by simp [ht])
  · rw [setArg, if_neg ht]
    exact (Decided.throw _ _ _).congr (by simp [ht])

theorem decided_useThreads (hjob : JobSteps job slots canSet canUse) (b : Nat)
    (ran : Nat → σ) :
    Decided (useThreads (job.useWork b) n ((List.range n).map ran))
      (∀ t < n, canUse b t (ran t)) ⟨⟩
      ((List.range n).flatMap fun t => [.closed (.reader b t)]) := by
  refine Decided.forM_range fun t ht => ?_
  rw [getElem?_map_range ran ht]
  exact hjob.useWork b t (ran t)

/-- One batch. -/
theorem decided_runBatch (hjob : JobSteps job slots canSet canUse) (b : Nat) :
    Decided (runBatch p env stSize job b)
      (BatchSucceeds p env stSize job slots canSet canUse b) ⟨⟩
      (batchLog b (p.numThreads stSize b).toNat) := by
  by_cases hpos : p.numThreads stSize b ≤ 0
  · simp only [runBatch, if_pos hpos]
    exact (Decided.throw _ _ _).congr
      (iff_of_false id fun h => absurd h.threads (by omega))
  · simp only [runBatch, if_neg hpos]
    have hset : Decided
      ((List.range (p.numThreads stSize b).toNat).mapM (setArg p job b)) _ _ _ :=
      Decided.mapM_range fun t _ => decided_setArg hjob b t
    refine Decided.congr (hset.bind fun _ => (decided_runThreads (by omega)).bind fun _ =>
      decided_useThreads hjob b _) ?_
    constructor
    · rintro ⟨hset, ⟨hcreate, hwork⟩, huse⟩
      refine ⟨by omega, hset, hcreate, fun t ht => ?_⟩
      obtain ⟨a, ha, hzero⟩ := hwork t ht
      have hcan := huse t ht
      rw [slotAfter, ha] at hcan
      exact ⟨a, ha, hzero, hcan⟩
    · rintro ⟨_, hset, hcreate, hwork⟩
      refine ⟨hset, ⟨hcreate, fun t ht => ?_⟩, fun t ht => ?_⟩
      · obtain ⟨a, ha, hzero, _⟩ := hwork t ht
        exact ⟨a, ha, hzero⟩
      · obtain ⟨a, ha, _, hcan⟩ := hwork t ht
        rw [slotAfter, ha]
        exact hcan

theorem decided_runBatches (hjob : JobSteps job slots canSet canUse) :
    Decided (runBatches p env stSize job)
      (∀ b < p.numBatches stSize, BatchSucceeds p env stSize job slots canSet canUse b) ⟨⟩
      ((List.range (p.numBatches stSize)).flatMap fun b =>
        batchLog b (p.numThreads stSize b).toNat) :=
  Decided.forM_range fun b _ => decided_runBatch hjob b

/-- Whenever the function returns, the streams it has opened are all closed just if
`p`. -/
def ReturnsBalancedIff (x : Prog PUnit) (p : Prop) : Prop :=
  ∀ code, exitCode (x .empty) = some code → (Balanced (finalState (x .empty)).log ↔ p)

theorem batchEvent_ne_out {e : Event} (he : BatchEvent e) :
    e ≠ .closed .out ∧ e ≠ .closed .header := by
  rcases he with ⟨b, t, rfl | rfl⟩ | ⟨b, t, rfl | rfl | rfl⟩ <;> simp

/-- The function once its output file is open. -/
theorem aroundBatches_opened (hopen : env.fails .fopenOut = false) :
    aroundBatches p env stSize job .empty =
      (runBatches p env stSize job >>= fun _ => emit (.closed .out))
        ⟨[], [], [.opened .out]⟩ := by
  rw [aroundBatches, hopen]
  rfl

/-- Where nothing fails, the log is that of all batches between the opening and the
closing of the output file. -/
theorem aroundBatches_log (hjob : JobSteps job slots canSet canUse)
    (hopen : env.fails .fopenOut = false)
    (hall : ∀ b < p.numBatches stSize,
      BatchSucceeds p env stSize job slots canSet canUse b) :
    (finalState (aroundBatches p env stSize job .empty)).log =
      fileLog (fun b => (p.numThreads stSize b).toNat) (p.numBatches stSize) := by
  have hbatches := @decided_runBatches _ env p stSize job slots canSet canUse hjob
  obtain ⟨s, hrun, hlog⟩ := hbatches.falls hall ⟨[], [], [.opened .out]⟩
  rw [aroundBatches_opened hopen, bind_of_ok hrun]
  change s.log ++ [.closed .out] = _
  rw [hlog, fileLog, List.append_assoc]
  rfl

/-- Where something fails, the output file has been opened and is not closed. -/
theorem aroundBatches_leavesOut (hjob : JobSteps job slots canSet canUse)
    (hreaders : ReadersOnly job) (hopen : env.fails .fopenOut = false)
    (hfails : ¬ ∀ b < p.numBatches stSize,
      BatchSucceeds p env stSize job slots canSet canUse b) :
    .opened .out ∈ (finalState (aroundBatches p env stSize job .empty)).log ∧
      .closed .out ∉ (finalState (aroundBatches p env stSize job .empty)).log := by
  have hbatches := @decided_runBatches _ env p stSize job slots canSet canUse hjob
  obtain ⟨e, s, hrun⟩ := hbatches.stops hfails ⟨[], [], [.opened .out]⟩
  obtain ⟨es, hlog, hes⟩ :=
    @adds_runBatches _ env p stSize job hreaders ⟨[], [], [.opened .out]⟩
  rw [hrun] at hlog
  have hlog : s.log = [.opened .out] ++ es := hlog
  have hnot : .closed .out ∉ es := fun hmem => (batchEvent_ne_out (hes _ hmem)).1 rfl
  rw [aroundBatches_opened hopen, bind_of_error hrun]
  simp [finalState, hlog, hnot]

/-- A function that opens its output file, and then returns early, leaves it open. -/
theorem aroundBatches_balancedIff (hjob : JobSteps job slots canSet canUse)
    (hreaders : ReadersOnly job) :
    ReturnsBalancedIff (aroundBatches p env stSize job) (env.fails .fopenOut = true ∨
      ∀ b < p.numBatches stSize,
        BatchSucceeds p env stSize job slots canSet canUse b) := by
  intro code _
  cases hopen : env.fails .fopenOut with
  | true =>
      have hrun : aroundBatches p env stSize job .empty = .error (.ret (-1)) .empty := by
        rw [aroundBatches, hopen]
        rfl
      rw [hrun]
      exact iff_of_true balanced_nil (.inl rfl)
  | false =>
      by_cases hall : ∀ b < p.numBatches stSize,
          BatchSucceeds p env stSize job slots canSet canUse b
      · rw [aroundBatches_log hjob hopen hall]
        exact iff_of_true (balanced_fileLog _ _) (.inr hall)
      · obtain ⟨hopened, hclosed⟩ := aroundBatches_leavesOut hjob hreaders hopen hall
        exact iff_of_false (not_balanced_of_open hopened hclosed) (by simpa using hall)

end Batches

end EcFtp
