/-
The threads of a file function that are still running when it returns.  A batch
joins its threads only at its end, so every early return between the first
`pthread_create` and the last `pthread_join` leaves threads behind.
-/
import EcFtp.CompFile
import EcFtp.EventLog
import EcFtp.UncompBatch

namespace EcFtp

open Exec WorkerOrder

/-- Every thread that was created has been joined. -/
def Joined (log : List Event) : Prop :=
  ∀ b t, .created b t ∈ log → .joined b t ∈ log

/-- The threads `j` to `k - 1` of batch `b` are the ones still running. -/
structure Running (b k j : Nat) (s : IoState) : Prop where
  unjoined : ∀ c t, .created c t ∈ s.log ∧ .joined c t ∉ s.log ↔ c = b ∧ j ≤ t ∧ t < k
  before : ∀ c t, .joined c t ∈ s.log → c < b ∨ c = b ∧ t < j

section Events

variable {b k j : Nat} {s : IoState}

theorem Running.joined_iff (h : Running b k j s) : Joined s.log ↔ k ≤ j := by
  constructor
  · intro hjoined
    by_contra hlt
    obtain ⟨hcreated, hnot⟩ := (h.unjoined b j).mpr ⟨rfl, Nat.le_refl j, by omega⟩
    exact hnot (hjoined b j hcreated)
  · intro hle c t hcreated
    by_contra hnot
    obtain ⟨_, hj, hk⟩ := (h.unjoined c t).mp ⟨hcreated, hnot⟩
    omega

theorem Running.next (h : Running b k k s) : Running (b + 1) 0 0 s := by
  constructor
  · intro c t
    rw [h.unjoined c t]
    omega
  · intro c t hjoined
    have hbefore := h.before c t hjoined
    omega

variable {E : Exit → IoState → Prop}

theorem triple_emit_created :
    Triple (Running b k 0) (emit (.created b k)) (fun _ => Running b (k + 1) 0) E := by
  refine Triple.modify fun s hs => ⟨fun c t => ?_, fun c t hjoined => ?_⟩
  · have hold := hs.unjoined c t
    have hbefore := hs.before c t
    simp only [List.mem_append, List.mem_singleton, Event.created.injEq, reduceCtorEq,
      or_false]
    constructor
    · rintro ⟨hcreated | ⟨rfl, rfl⟩, hnot⟩
      · have hrun := hold.mp ⟨hcreated, hnot⟩
        omega
      · omega
    · rintro ⟨rfl, _, ht⟩
      refine ⟨?_, fun hjoined => ?_⟩
      · by_cases hlt : t < k
        · exact .inl (hold.mpr ⟨rfl, by omega, hlt⟩).1
        · exact .inr ⟨rfl, by omega⟩
      · have hlt := hbefore hjoined
        omega
  · simp only [List.mem_append, List.mem_singleton, reduceCtorEq, or_false] at hjoined
    exact hs.before c t hjoined

theorem triple_emit_joined (hj : j < k) :
    Triple (Running b k j) (emit (.joined b j)) (fun _ => Running b k (j + 1)) E := by
  refine Triple.modify fun s hs => ⟨fun c t => ?_, fun c t hjoined => ?_⟩
  · have hold := hs.unjoined c t
    simp only [List.mem_append, List.mem_singleton, Event.joined.injEq, reduceCtorEq,
      or_false, not_or, not_and]
    constructor
    · rintro ⟨hcreated, hnot, hne⟩
      obtain ⟨rfl, hle, hlt⟩ := hold.mp ⟨hcreated, hnot⟩
      have hother := hne rfl
      omega
    · rintro ⟨rfl, hle, hlt⟩
      obtain ⟨hcreated, hnot⟩ := hold.mpr ⟨rfl, by omega, hlt⟩
      exact ⟨hcreated, hnot, fun _ => by omega⟩
  · simp only [List.mem_append, List.mem_singleton, Event.joined.injEq] at hjoined
    rcases hjoined with hmem | ⟨rfl, rfl⟩
    · have hbefore := hs.before c t hmem
      omega
    · omega

theorem triple_emit_other {event : Event} (hc : ∀ c t, event ≠ .created c t)
    (hj : ∀ c t, event ≠ .joined c t) :
    Triple (Running b k j) (emit event) (fun _ => Running b k j) E := by
  refine Triple.modify fun s hs => ⟨fun c t => ?_, fun c t hjoined => ?_⟩
  · simp only [List.mem_append, List.mem_singleton, Ne.symm (hc c t), Ne.symm (hj c t),
      or_false]
    exact hs.unjoined c t
  · simp only [List.mem_append, List.mem_singleton, Ne.symm (hj c t), or_false] at hjoined
    exact hs.before c t hjoined

/-- What happens to readers leaves the threads as they are. -/
theorem Running.append (h : Running b k j s) {s' : IoState} {es : List Event}
    (hlog : s'.log = s.log ++ es) (hes : ∀ e ∈ es, ReaderEvent e) : Running b k j s' := by
  have hnew : ∀ e ∈ es, ∀ c t, e ≠ .created c t ∧ e ≠ .joined c t := by
    intro e he c t
    obtain ⟨b, t', rfl | rfl⟩ := hes e he
    · simp
    · simp
  have hcreated : ∀ c t, .created c t ∈ s'.log ↔ .created c t ∈ s.log := by
    intro c t
    rw [hlog, List.mem_append]
    exact or_iff_left fun he => (hnew _ he c t).1 rfl
  have hjoined : ∀ c t, .joined c t ∈ s'.log ↔ .joined c t ∈ s.log := by
    intro c t
    rw [hlog, List.mem_append]
    exact or_iff_left fun he => (hnew _ he c t).2 rfl
  constructor
  · intro c t
    rw [hcreated, hjoined]
    exact h.unjoined c t
  · intro c t hmem
    exact h.before c t ((hjoined c t).mp hmem)

end Events

/-- A program that neither creates nor joins a thread. -/
def Quiet {α : Type} (x : Prog α) : Prop :=
  ∀ b k j, Triple (Running b k j) x (fun _ => Running b k j) fun _ => Running b k j

/-- A program that only opens and closes readers. -/
theorem Adds.quiet {α : Type} {x : Prog α} (h : Adds ReaderEvent x) : Quiet x := by
  refine fun b k j => ⟨fun s hs => ?_⟩
  obtain ⟨es, hlog, hes⟩ := h s
  cases hrun : x s with
  | ok a s' =>
      rw [hrun] at hlog
      exact hs.append hlog hes
  | error e s' =>
      rw [hrun] at hlog
      exact hs.append hlog hes

namespace Quiet

variable {α β : Type}

theorem pure (a : α) : Quiet (pure a : Prog α) := fun _ _ _ =>
  Triple.pure fun _ hs => hs

theorem throw (e : Exit) : Quiet (throw e : Prog α) := fun _ _ _ =>
  Triple.throw fun _ hs => hs

theorem bind {x : Prog α} {f : α → Prog β} (hx : Quiet x) (hf : ∀ a, Quiet (f a)) :
    Quiet (x >>= f) := fun b k j =>
  Triple.bind (hx b k j) fun a => hf a b k j

theorem ite {c : Prop} [Decidable c] {x y : Prog α} (hx : Quiet x) (hy : Quiet y) :
    Quiet (if c then x else y) := fun b k j =>
  Triple.ite (fun _ => hx b k j) fun _ => hy b k j

theorem mapM {f : Nat → Prog α} (h : ∀ k, Quiet (f k)) (l : List Nat) :
    Quiet (l.mapM f) := by
  induction l with
  | nil => exact pure []
  | cons k l ih =>
      rw [List.mapM_cons]
      exact bind (h k) fun a => bind ih fun as => pure (a :: as)

theorem forM {f : Nat → Prog PUnit} (h : ∀ k, Quiet (f k)) (l : List Nat) :
    Quiet (l.forM f) := by
  induction l with
  | nil => exact pure PUnit.unit
  | cons k l ih => exact bind (h k) fun _ => ih

end Quiet

section Threads

variable {σ : Type}

/-- The `return_val` of thread `t`. -/
def reports (work : Nat → σ → Option σ) (returnVal : σ → Option Int) (args : List σ)
    (t : Nat) : Option Int :=
  (args[t]?.bind (work t)).bind returnVal

/-- The failures after which no thread of the batch is left running: that of the
first `pthread_create`, and that of the thread that is joined last. -/
def Orderly (env : Env) (work : Nat → σ → Option σ) (returnVal : σ → Option Int)
    (b : Nat) (args : List σ) : Prop :=
  args.length ≤ 1 ∨ env.fails (.pthreadCreate b 0) = true ∨
    (∀ t < args.length - 1, env.fails (.pthreadCreate b t) = false) ∧
      reports work returnVal args (args.length - 1) = some 0 ∧
      ∀ t, t + 2 < args.length → reports work returnVal args t = some 0

/-- If the function returns here, its threads have been joined just if `p`. -/
def JoinedIff (p : Prop) (e : Exit) (s : IoState) : Prop :=
  ∀ code, e = .ret code → (Joined s.log ↔ p)

theorem joinedIff_undefined (p : Prop) (s : IoState) : JoinedIff p .undefined s := by
  intro code hcode
  cases hcode

theorem joinedIff_outOfFuel (p : Prop) (s : IoState) : JoinedIff p .outOfFuel s := by
  intro code hcode
  cases hcode

variable {env : Env} {work : Nat → σ → Option σ} {returnVal : σ → Option Int} {b : Nat}
  {args ran : List σ}

theorem orderly_createFails {k : Nat} (hk : k < args.length - 1)
    (hbefore : ∀ t < k, env.fails (.pthreadCreate b t) = false)
    (hfails : env.fails (.pthreadCreate b k) = true) :
    Orderly env work returnVal b args ↔ k ≤ 0 := by
  constructor
  · rintro (hlen | hzero | ⟨hcreate, _⟩)
    · omega
    · by_contra hpos
      rw [hbefore 0 (by omega)] at hzero
      cases hzero
    · rw [hcreate k hk] at hfails
      cases hfails
  · intro hle
    obtain rfl : k = 0 := by omega
    exact .inr (.inl hfails)

/-- A thread reports a nonzero `return_val`. -/
theorem orderly_reports
    (hcreate : ∀ t < args.length - 1, env.fails (.pthreadCreate b t) = false) :
    Orderly env work returnVal b args ↔ args.length ≤ 1 ∨
      reports work returnVal args (args.length - 1) = some 0 ∧
        ∀ t, t + 2 < args.length → reports work returnVal args t = some 0 := by
  constructor
  · rintro (hlen | hzero | ⟨_, hreports⟩)
    · exact .inl hlen
    · by_cases hlen : args.length ≤ 1
      · exact .inl hlen
      · rw [hcreate 0 (by omega)] at hzero
        cases hzero
    · exact .inr hreports
  · rintro (hlen | hreports)
    · exact .inl hlen
    · exact .inr (.inr ⟨hcreate, hreports⟩)

/-- The function goes on with `P` when thread `t` reports zero, and returns with `p`
when it reports anything else. -/
theorem triple_checkReturn_joined {P : IoState → Prop} {t : Nat} {p : Prop}
    (h : ∀ val, ran[t]?.bind returnVal = some val → val ≠ 0 →
      ∀ s, P s → (Joined s.log ↔ p)) :
    Triple P (checkReturn returnVal ran t)
      (fun _ s => ran[t]?.bind returnVal = some 0 ∧ P s) (JoinedIff p) := by
  unfold checkReturn
  cases hval : ran[t]?.bind returnVal with
  | none => exact Triple.throw fun s _ => joinedIff_undefined p s
  | some val =>
      apply Triple.exitIf
      · intro hne s hs code _
        exact h val hval (by simpa using hne) s hs
      · intro hzero s hs
        obtain rfl : val = 0 := by simpa using hzero
        exact ⟨rfl, hs⟩

/-- RT1: threads are created until one cannot be. -/
theorem triple_createThreads :
    Triple (Running b 0 0)
      ((List.range (args.length - 1)).forM fun t => do
        returnIf (env.fails (.pthreadCreate b t))
        emit (.created b t))
      (fun _ s => (∀ t < args.length - 1, env.fails (.pthreadCreate b t) = false) ∧
        Running b (args.length - 1) 0 s)
      (JoinedIff (Orderly env work returnVal b args)) := by
  refine (Triple.forM_range
    (fun k s => (∀ t < k, env.fails (.pthreadCreate b t) = false) ∧ Running b k 0 s)
    fun k hk => ?_).pre fun s hs => ⟨fun t ht => absurd ht (by omega), hs⟩
  refine Triple.assume fun hbefore => ?_
  refine Triple.bind
    (R := fun _ s => env.fails (.pthreadCreate b k) = false ∧
      Running b k 0 s) ?_ fun _ => ?_
  · apply Triple.exitIf
    · intro hfails s hs code _
      rw [hs.joined_iff, orderly_createFails hk hbefore hfails]
    · intro hok s hs
      exact ⟨hok, hs⟩
  · refine Triple.assume fun hok => triple_emit_created.post
      fun _ s hs => ⟨fun t ht => ?_, hs⟩
    rcases Nat.lt_succ_iff_lt_or_eq.mp ht with hlt | rfl
    · exact hbefore t hlt
    · exact hok

/-- RT3: threads are joined until one of them reports a failure. -/
theorem triple_joinThreads
    (hcreate : ∀ t < args.length - 1, env.fails (.pthreadCreate b t) = false)
    (hran : ∀ t < args.length, ran[t]?.bind returnVal = reports work returnVal args t)
    (hmain : reports work returnVal args (args.length - 1) = some 0) :
    Triple (Running b (args.length - 1) 0)
      ((List.range (args.length - 1)).forM fun t => do
        emit (.joined b t)
        checkReturn returnVal ran t)
      (fun _ s => Orderly env work returnVal b args ∧ Running (b + 1) 0 0 s)
      (JoinedIff (Orderly env work returnVal b args)) := by
  refine ((Triple.forM_range
    (fun k s => (∀ t < k, reports work returnVal args t = some 0) ∧
      Running b (args.length - 1) k s)
    fun k hk => ?_).pre fun s hs => ⟨fun t ht => absurd ht (by omega), hs⟩).post ?_
  · refine Triple.assume fun hbefore => ?_
    refine Triple.bind (triple_emit_joined hk) fun _ => ?_
    refine (triple_checkReturn_joined fun val hval hne s hs => ?_).post ?_
    · rw [hran k (by omega)] at hval
      rw [hs.joined_iff, orderly_reports hcreate]
      constructor
      · intro hle
        exact .inr ⟨hmain, fun t ht => hbefore t (by omega)⟩
      · rintro (hlen | ⟨_, hothers⟩)
        · omega
        · by_contra hlt
          rw [hothers k (by omega)] at hval
          exact hne (Option.some.inj hval).symm
    · rintro _ s ⟨hzero, hs⟩
      rw [hran k (by omega)] at hzero
      refine ⟨fun t ht => ?_, hs⟩
      rcases Nat.lt_succ_iff_lt_or_eq.mp ht with hlt | rfl
      · exact hbefore t hlt
      · exact hzero
  · rintro _ s ⟨hall, hs⟩
    exact ⟨(orderly_reports hcreate).mpr (.inr ⟨hmain, fun t ht => hall t (by omega)⟩),
      hs.next⟩

/-- One batch: when it falls through, all its threads have been joined. -/
theorem triple_runThreads_joined :
    Triple (Running b 0 0) (runThreads env work returnVal b args)
      (fun _ s => Orderly env work returnVal b args ∧ Running (b + 1) 0 0 s)
      (JoinedIff (Orderly env work returnVal b args)) := by
  unfold runThreads
  refine Triple.bind triple_createThreads fun _ => ?_
  refine Triple.assume fun hcreate => ?_
  have horder := env.order_perm b args.length
  cases hrun : runOrder work (env.order b args.length) args with
  | none => exact Triple.throw fun s _ => joinedIff_undefined _ s
  | some ran =>
      have hran : ∀ t < args.length,
          ran[t]?.bind returnVal = reports work returnVal args t := by
        intro t ht
        rw [runOrder_getElem? horder hrun ht]
        rfl
      simp only [length_runOrder hrun]
      refine Triple.bind (R := fun _ => Running b (args.length - 1) 0) ?_ fun _ => ?_
      · exact Triple.forM_range (fun _ => Running b (args.length - 1) 0) fun t _ =>
          triple_emit_other (by simp) (by simp)
      refine Triple.bind
        (triple_checkReturn_joined fun val hval hne s hs => ?_) fun _ => ?_
      · rw [hs.joined_iff, orderly_reports hcreate]
        constructor
        · intro hle
          exact .inl (by omega)
        · rintro (hlen | ⟨hmain, _⟩)
          · omega
          · by_contra hlt
            rw [hran _ (by omega), hmain] at hval
            exact hne (Option.some.inj hval).symm
      · by_cases hempty : args.length = 0
        · refine Triple.assume fun hmain => ?_
          have hnone : ran[args.length - 1]? = none := by
            rw [List.getElem?_eq_none_iff, length_runOrder hrun]
            omega
          rw [hnone] at hmain
          cases hmain
        · refine Triple.assume fun hmain => ?_
          rw [hran _ (by omega)] at hmain
          refine Triple.bind (triple_joinThreads hcreate hran hmain) fun _ => ?_
          exact Triple.pure fun s hs => hs

/-- A batch whose arguments are set first: `p args` says that the threads started
on `args` are all joined. -/
theorem triple_setThen_joined {α : Type} {set : Prog α} {rest : α → Prog PUnit}
    {p : α → Prop} {R : IoState → Prop} (hset : Quiet set)
    (hrest : ∀ args, Triple (Running b 0 0) (rest args) (fun _ s => p args ∧ R s)
      (JoinedIff (p args)))
    {s : IoState} (hs : Running b 0 0 s) :
    Triple (fun s' => s' = s) (set >>= rest)
      (fun _ s' => (∀ args s₁, set s = .ok args s₁ → p args) ∧ R s')
      (JoinedIff (∀ args s₁, set s = .ok args s₁ → p args)) := by
  constructor
  rintro s rfl
  have hquiet := (hset b 0 0).run s hs
  cases hrun : set s with
  | error e s₁ =>
      rw [hrun] at hquiet
      rw [bind_of_error hrun]
      intro code _
      rw [hquiet.joined_iff]
      simp
  | ok args s₁ =>
      rw [hrun] at hquiet
      rw [bind_of_ok hrun]
      have hiff : (∀ args' s', EStateM.Result.ok args s₁ =
          (.ok args' s' : EStateM.Result Exit IoState α) → p args') ↔ p args := by
        constructor
        · intro hall
          exact hall args s₁ rfl
        · rintro hp _ _ ⟨⟩
          exact hp
      rw [hiff]
      exact (hrest args).run s₁ hquiet

theorem triple_useThreads_joined {useWork : Nat → σ → Prog PUnit} {n : Nat} {p : Prop}
    (huse : ∀ t a, Quiet (useWork t a)) (hp : p) :
    Triple (Running b 0 0) (useThreads useWork n args) (fun _ s => p ∧ Running b 0 0 s)
      (JoinedIff p) := by
  have hquiet : Quiet (useThreads useWork n args) := by
    refine Quiet.forM (fun t => ?_) _
    cases args[t]? with
    | none => exact Quiet.throw _
    | some a => exact huse t a
  refine (hquiet b 0 0).conseq (fun _ hs => hs) (fun _ _ hs => ⟨hp, hs⟩) ?_
  intro e s hs code _
  rw [hs.joined_iff]
  simp [hp]

theorem triple_runThenUse_joined {useWork : Nat → σ → Prog PUnit} {n : Nat}
    (huse : ∀ t a, Quiet (useWork t a)) :
    Triple (Running b 0 0)
      (runThreads env work returnVal b args >>= fun ran => useThreads useWork n ran)
      (fun _ s => Orderly env work returnVal b args ∧ Running (b + 1) 0 0 s)
      (JoinedIff (Orderly env work returnVal b args)) := by
  refine Triple.bind triple_runThreads_joined fun ran => ?_
  exact Triple.assume fun horderly => triple_useThreads_joined huse horderly

end Threads

section Batches

variable {σ : Type}

/-- The stages around the threads leave the threads alone. -/
structure QuietJob (job : FileJob σ) : Prop where
  setArgs : ∀ b t, Quiet (job.setArgs b t)
  useWork : ∀ b t a, Quiet (job.useWork b t a)

/-- The batches before `b` end well, and the threads of `b` are started on
`args`. -/
def Started (p : ThreadPlan) (env : Env) (stSize : Int) (job : FileJob σ) (s : IoState)
    (b : Nat) (args : List σ) : Prop :=
  0 < p.numThreads stSize b ∧
    ∃ s₁ s₂, (List.range b).forM (runBatch p env stSize job) s = .ok ⟨⟩ s₁ ∧
      (List.range (p.numThreads stSize b).toNat).mapM (setArg p job b) s₁ = .ok args s₂

/-- Every batch up to `n` whose threads are started is orderly. -/
def OrderlyBatches (p : ThreadPlan) (env : Env) (stSize : Int) (job : FileJob σ)
    (s : IoState) (n : Nat) : Prop :=
  ∀ b < n, ∀ args, Started p env stSize job s b args →
    Orderly env (job.work b) job.returnVal b args

/-- Batch `b`, entered in the state `s`, is orderly if its threads are started. -/
def OrderlyFrom (p : ThreadPlan) (env : Env) (stSize : Int) (job : FileJob σ) (b : Nat)
    (s : IoState) : Prop :=
  0 < p.numThreads stSize b → ∀ args s₁,
    (List.range (p.numThreads stSize b).toNat).mapM (setArg p job b) s = .ok args s₁ →
    Orderly env (job.work b) job.returnVal b args

variable {p : ThreadPlan} {env : Env} {stSize : Int} {job : FileJob σ} {b : Nat}
  {s s₁ : IoState}

theorem ReadersOnly.quiet (h : ReadersOnly job) : QuietJob job :=
  ⟨fun b t => (h.setArgs b t).quiet, fun b t a => (h.useWork b t a).quiet⟩

theorem triple_runBatch_joined (hjob : QuietJob job) (hs : Running b 0 0 s) :
    Triple (fun s' => s' = s) (runBatch p env stSize job b)
      (fun _ s' => OrderlyFrom p env stSize job b s ∧ Running (b + 1) 0 0 s')
      (JoinedIff (OrderlyFrom p env stSize job b s)) := by
  by_cases hpos : p.numThreads stSize b ≤ 0
  · simp only [runBatch, hpos, ↓reduceIte]
    exact Triple.throw fun s _ => joinedIff_undefined _ s
  · have hlt : 0 < p.numThreads stSize b := by omega
    simp only [runBatch, OrderlyFrom, hpos, hlt, ↓reduceIte, forall_const]
    refine triple_setThen_joined (Quiet.mapM (fun t => ?_) _) (fun args => ?_) hs
    · exact Quiet.ite (hjob.setArgs b t) (Quiet.throw _)
    · exact triple_runThenUse_joined (hjob.useWork b)

theorem orderlyBatches_succ {n : Nat} :
    OrderlyBatches p env stSize job s (n + 1) ↔
      OrderlyBatches p env stSize job s n ∧
        ∀ args, Started p env stSize job s n args →
          Orderly env (job.work n) job.returnVal n args := by
  constructor
  · intro hall
    exact ⟨fun b hb => hall b (by omega), hall n (by omega)⟩
  · rintro ⟨hall, hlast⟩ b hb
    rcases Nat.lt_succ_iff_lt_or_eq.mp hb with hlt | rfl
    · exact hall b hlt
    · exact hlast

/-- A batch is entered in the state the batches before it end in. -/
theorem orderlyFrom_iff {n : Nat}
    (hbefore : (List.range n).forM (runBatch p env stSize job) s = .ok ⟨⟩ s₁) :
    OrderlyFrom p env stSize job n s₁ ↔ ∀ args, Started p env stSize job s n args →
      Orderly env (job.work n) job.returnVal n args := by
  constructor
  · rintro h args ⟨hpos, s', s₂, hrun, hset⟩
    rw [hbefore] at hrun
    cases hrun
    exact h hpos args s₂ hset
  · intro h hpos args s₂ hset
    exact h args ⟨hpos, s₁, s₂, hbefore, hset⟩

/-- All batches: one that does not end well ends the function. -/
theorem triple_runBatches_joined (hjob : QuietJob job) (hs : Running 0 0 0 s) (n : Nat) :
    Triple (fun s' => s' = s) ((List.range n).forM (runBatch p env stSize job))
      (fun _ s' => OrderlyBatches p env stSize job s n ∧ Running n 0 0 s')
      (JoinedIff (OrderlyBatches p env stSize job s n)) := by
  induction n with
  | zero =>
      refine Triple.pure ?_
      rintro s' rfl
      exact ⟨fun b hb => absurd hb (by omega), hs⟩
  | succ n ih =>
      constructor
      rintro s' rfl
      rw [List.range_succ, forM_append]
      have hfirst := ih.run s' rfl
      cases hrun : (List.range n).forM (runBatch p env stSize job) s' with
      | error e s₁ =>
          rw [hrun] at hfirst
          rw [bind_of_error hrun]
          have hnone : ∀ args, ¬ Started p env stSize job s' n args := by
            rintro args ⟨_, s₁, s₂, hok, _⟩
            rw [hrun] at hok
            cases hok
          have hiff : OrderlyBatches p env stSize job s' (n + 1) ↔
              OrderlyBatches p env stSize job s' n := by
            rw [orderlyBatches_succ]
            exact and_iff_left fun args hstarted => absurd hstarted (hnone args)
          rw [hiff]
          exact hfirst
      | ok _ s₁ =>
          rw [hrun] at hfirst
          rw [bind_of_ok hrun]
          obtain ⟨hall, hrunning⟩ := hfirst
          rw [orderlyBatches_succ, and_iff_right hall, ← orderlyFrom_iff hrun]
          refine (Triple.bind (triple_runBatch_joined hjob hrunning) fun _ => ?_).run s₁
            rfl
          exact Triple.pure fun _ hs => hs

end Batches

section Uncomp

variable {lzma : Lzma} {env : Env} {data : Bytes}

/-- The threads of batch `c` are started on `args` by the loop that is at batch
`b`. -/
inductive UncompStarted (lzma : Lzma) (env : Env) (data : Bytes) :
    Nat → UncompState → IoState → Nat → List CompThreadArgs → Prop
  | here {b : Nat} {u u' : UncompState} {s s₁ : IoState} {args : List CompThreadArgs}
      (hmore : 0 < u.bytesLeft)
      (hset : setUncompThreads env data b compPlan.maxThreads 0 u s = .ok (args, u') s₁) :
      UncompStarted lzma env data b u s b args
  | later {b c : Nat} {u u' : UncompState} {s s₁ s₂ : IoState}
      {args args' : List CompThreadArgs} (hmore : 0 < u.bytesLeft)
      (hset : setUncompThreads env data b compPlan.maxThreads 0 u s = .ok (args, u') s₁)
      (hrun : runUncompThreads lzma env b args s₁ = .ok ⟨⟩ s₂)
      (hlater : UncompStarted lzma env data (b + 1) u' s₂ c args') :
      UncompStarted lzma env data b u s c args'

/-- Every batch whose threads are started from here on is orderly. -/
def OrderlyUncomp (lzma : Lzma) (env : Env) (data : Bytes) (b : Nat) (u : UncompState)
    (s : IoState) : Prop :=
  ∀ c args, UncompStarted lzma env data b u s c args →
    Orderly env (uncompWork lzma env c) CompThreadArgs.returnVal c args

variable {b : Nat} {u u' : UncompState} {s s₁ : IoState} {args : List CompThreadArgs}

theorem triple_runUncompThreads_joined :
    Triple (Running b 0 0) (runUncompThreads lzma env b args)
      (fun _ s => Orderly env (uncompWork lzma env b) CompThreadArgs.returnVal b args ∧
        Running (b + 1) 0 0 s)
      (JoinedIff
        (Orderly env (uncompWork lzma env b) CompThreadArgs.returnVal b args)) := by
  cases args with
  | nil => exact Triple.throw fun s _ => joinedIff_undefined _ s
  | cons arg args =>
      exact triple_runThenUse_joined fun t a => (Adds.useUncompWork b t a).quiet

/-- The batch the loop is at, and the ones behind it. -/
theorem orderlyUncomp_iff (hmore : 0 < u.bytesLeft)
    (hset : setUncompThreads env data b compPlan.maxThreads 0 u s = .ok (args, u') s₁) :
    OrderlyUncomp lzma env data b u s ↔
      Orderly env (uncompWork lzma env b) CompThreadArgs.returnVal b args ∧
        ∀ s₂, runUncompThreads lzma env b args s₁ = .ok ⟨⟩ s₂ →
          OrderlyUncomp lzma env data (b + 1) u' s₂ := by
  constructor
  · intro hall
    refine ⟨hall b args (.here hmore hset), fun s₂ hrun c args' hstarted => ?_⟩
    exact hall c args' (.later hmore hset hrun hstarted)
  · rintro ⟨hfirst, hrest⟩ c args' hstarted
    cases hstarted with
    | here _ hset' =>
        rw [hset] at hset'
        cases hset'
        exact hfirst
    | later _ hset' hrun hlater =>
        rw [hset] at hset'
        cases hset'
        exact hrest _ hrun c args' hlater

/-- A loop that ends, or fails before it starts threads, starts none. -/
theorem orderlyUncomp_of_end (hend : ¬ 0 < u.bytesLeft) :
    OrderlyUncomp lzma env data b u s := by
  intro c args hstarted
  cases hstarted with
  | here hmore => exact absurd hmore hend
  | later hmore => exact absurd hmore hend

theorem orderlyUncomp_of_error {e : Exit}
    (hset : setUncompThreads env data b compPlan.maxThreads 0 u s = .error e s₁) :
    OrderlyUncomp lzma env data b u s := by
  intro c args hstarted
  cases hstarted with
  | here _ hset' => rw [hset] at hset'; cases hset'
  | later _ hset' => rw [hset] at hset'; cases hset'

theorem triple_uncompLoop_joined (fuel : Nat) (hs : Running b 0 0 s) :
    Triple (fun s' => s' = s) (uncompLoop lzma env data fuel b u)
      (fun _ s' => OrderlyUncomp lzma env data b u s ∧ Joined s'.log)
      (JoinedIff (OrderlyUncomp lzma env data b u s)) := by
  induction fuel generalizing b u s with
  | zero => exact Triple.throw fun s _ => joinedIff_outOfFuel _ s
  | succ fuel ih =>
      unfold uncompLoop
      apply Triple.ite
      · intro hmore
        constructor
        rintro s rfl
        have hquiet :=
          ((@Adds.setUncompThreads env data b compPlan.maxThreads 0 u).quiet b 0 0).run s
            hs
        cases hset : setUncompThreads env data b compPlan.maxThreads 0 u s with
        | error e s₁ =>
            rw [hset] at hquiet
            rw [bind_of_error hset]
            intro code _
            rw [hquiet.joined_iff]
            exact iff_of_true (Nat.le_refl 0) (orderlyUncomp_of_error hset)
        | ok next s₁ =>
            obtain ⟨args, u'⟩ := next
            rw [hset] at hquiet
            rw [bind_of_ok hset, orderlyUncomp_iff hmore hset]
            have hbatch :=
              (@triple_runUncompThreads_joined lzma env b args).run s₁ hquiet
            cases hrun : runUncompThreads lzma env b args s₁ with
            | error e s₂ =>
                rw [hrun] at hbatch
                simp only [bind_of_error hrun]
                simpa using hbatch
            | ok _ s₂ =>
                rw [hrun] at hbatch
                obtain ⟨horderly, hrunning⟩ := hbatch
                simp only [bind_of_ok hrun]
                simpa [horderly] using (ih hrunning).run s₂ rfl
      · intro hend
        refine Triple.pure ?_
        rintro s rfl
        exact ⟨orderlyUncomp_of_end hend, hs.joined_iff.mpr (Nat.le_refl 0)⟩

end Uncomp

section Files

variable {lzma : Lzma} {env : Env} {stSize : Int} {input : Option Bytes} {key : Key}
  {p : ThreadPlan}

/-- Whenever the function returns, all threads it created have been joined just if
`p`. -/
def ReturnsJoinedIff (x : Prog PUnit) (p : Prop) : Prop :=
  ∀ code, exitCode (x .empty) = some code → (Joined (finalState (x .empty)).log ↔ p)

theorem returnsJoinedIff_of {x : Prog PUnit} {p : Prop}
    (h : Triple (fun s => s = .empty) x (fun _ s => p ∧ Joined s.log) (JoinedIff p)) :
    ReturnsJoinedIff x p := by
  intro code hcode
  have hx := h.run _ rfl
  cases hrun : x .empty with
  | ok _ s =>
      rw [hrun] at hx
      exact iff_of_true hx.2 hx.1
  | error e s =>
      rw [hrun] at hx hcode
      cases e with
      | ret c => exact hx c rfl
      | undefined => cases hcode
      | outOfFuel => cases hcode

/-- The state of a file function that has opened its output file. -/
def outOpened : IoState := ⟨[], [], [.opened .out]⟩

/-- The threads of batch `b` of `comp_file` are started on `args`. -/
def CompStarts (lzma : Lzma) (env : Env) (stSize : Int) (input : Option Bytes) (b : Nat)
    (args : List CompThreadArgs) : Prop :=
  env.fails .fopenOut = false ∧ b < compPlan.numBatches stSize ∧
    Started compPlan.toThreadPlan env stSize
      (compJob compPlan.toThreadPlan lzma env stSize input) outOpened b args

/-- The state of `uncomp_file` before its loop. -/
def uncompOpened : IoState := ⟨[], [], [.opened .header, .opened .out]⟩

/-- The threads of batch `b` of `uncomp_file` are started on `args`. -/
def UncompStarts (lzma : Lzma) (env : Env) (stSize : Int) (input : Option Bytes) (b : Nat)
    (args : List CompThreadArgs) : Prop :=
  ∃ data, input = some data ∧ env.fails .fopenIn = false ∧ env.fails .fopenOut = false ∧
    UncompStarted lzma env data 0 ⟨.ofData data, stSize, 0⟩ uncompOpened b args

/-- The threads of batch `b` of `enc_file` or `dec_file` are started on `args`. -/
def CryptStarts (job : EncAesVars → FileJob EncThreadArgs) (env : Env) (stSize : Int)
    (key : Key) (b : Nat) (args : List EncThreadArgs) : Prop :=
  ∃ avars, encAesVars key = some avars ∧ env.fails .fopenOut = false ∧
    b < encPlan.numBatches stSize ∧
    Started encPlan.toThreadPlan env stSize (job avars) outOpened b args

/-- A file is opened, or the function returns. -/
theorem triple_opening_joined {fails : Bool} {stream : Stream} {x : Prog PUnit} {q : Prop}
    {s : IoState} (hs : Joined s.log)
    (hx : Triple (fun s' => s' = { s with log := s.log ++ [.opened stream] }) x
      (fun _ s' => q ∧ Joined s'.log) (JoinedIff q)) :
    Triple (fun s' => s' = s)
      (do
        returnIf fails
        emit (.opened stream)
        x)
      (fun _ s' => (fails = false → q) ∧ Joined s'.log)
        (JoinedIff (fails = false → q)) := by
  cases fails with
  | true =>
      refine Triple.bind_stop (Triple.throw ?_)
      rintro s' rfl code _
      simp [hs]
  | false =>
      simp only [forall_const]
      refine Triple.bind (R := fun _ s' => s' = s) (Triple.pure fun _ h => h) fun _ => ?_
      refine Triple.bind (Triple.modify ?_) fun _ => hx
      rintro s' rfl
      rfl

theorem joined_append_closed {log : List Event} {stream : Stream} (h : Joined log) :
    Joined (log ++ [.closed stream]) := by
  intro b t hcreated
  simp only [List.mem_append, List.mem_singleton, reduceCtorEq, or_false] at hcreated ⊢
  exact h b t hcreated

theorem triple_closing_joined {P : IoState → Prop} {x : Prog PUnit} {q : Prop}
    {stream : Stream} (hx : Triple P x (fun _ s => q ∧ Joined s.log) (JoinedIff q)) :
    Triple P
      (do
        x
        emit (.closed stream))
      (fun _ s => q ∧ Joined s.log) (JoinedIff q) :=
  Triple.bind hx fun _ => Triple.modify fun _ hs => ⟨hs.1, joined_append_closed hs.2⟩

theorem joined_empty : Joined IoState.empty.log := by simp [Joined, IoState.empty]

/-- What every file function does around its batches. -/
theorem triple_aroundBatches_joined {x : Prog PUnit} {q : Prop} {n : Nat}
    (hx : Triple (fun s => s = outOpened) x (fun _ s => q ∧ Running n 0 0 s)
      (JoinedIff q)) :
    Triple (fun s => s = .empty)
      (do
        returnIf (env.fails .fopenOut)
        emit (.opened .out)
        x
        emit (.closed .out))
      (fun _ s => (env.fails .fopenOut = false → q) ∧ Joined s.log)
      (JoinedIff (env.fails .fopenOut = false → q)) := by
  apply triple_opening_joined joined_empty
  apply triple_closing_joined
  refine hx.post fun _ s hs => ⟨hs.1, hs.2.joined_iff.mpr (Nat.le_refl 0)⟩

theorem running_outOpened : Running 0 0 0 outOpened := by
  constructor <;> simp [outOpened]

theorem running_uncompOpened : Running 0 0 0 uncompOpened := by
  constructor <;> simp [uncompOpened]

theorem compFile_joinedIff : ReturnsJoinedIff (compFile lzma env stSize input)
    (∀ b args, CompStarts lzma env stSize input b args →
      Orderly env (fun t => compressChunkOfFile lzma (env.fails (.freadInput b t))
        (env.fails (.lzma b t))) CompThreadArgs.returnVal b args) := by
  have hjob := (@readersOnly_comp env compPlan.toThreadPlan stSize lzma input).quiet
  have hbatches :=
    @triple_runBatches_joined _ compPlan.toThreadPlan env stSize _ outOpened
    hjob running_outOpened (compPlan.numBatches stSize)
  have hfile : ReturnsJoinedIff (compFile lzma env stSize input) _ :=
    returnsJoinedIff_of (triple_aroundBatches_joined hbatches)
  intro code hcode
  rw [hfile code hcode]
  constructor
  · rintro h b args ⟨hopen, hb, hstarted⟩
    exact h hopen b hb args hstarted
  · intro h hopen b hb args hstarted
    exact h b args ⟨hopen, hb, hstarted⟩

theorem cryptFile_joinedIff {job : EncAesVars → FileJob EncThreadArgs}
    {work : Nat → Nat → EncThreadArgs → Option EncThreadArgs}
    (hjob : ∀ avars, QuietJob (job avars)) (hwork : ∀ avars, (job avars).work = work)
    (hreturn : ∀ avars, (job avars).returnVal = EncThreadArgs.returnVal) :
    ReturnsJoinedIff (cryptFile encPlan.toThreadPlan env stSize key job)
      (∀ b args, CryptStarts job env stSize key b args →
        Orderly env (work b) EncThreadArgs.returnVal b args) := by
  have hcrypt : Triple (fun s => s = outOpened)
      (runCrypt encPlan.toThreadPlan env stSize job (encAesVars key))
      (fun _ s => (∀ avars, encAesVars key = some avars →
          OrderlyBatches encPlan.toThreadPlan env stSize (job avars) outOpened
            (encPlan.numBatches stSize)) ∧
        Running (encPlan.numBatches stSize) 0 0 s)
      (JoinedIff (∀ avars, encAesVars key = some avars →
        OrderlyBatches encPlan.toThreadPlan env stSize (job avars) outOpened
          (encPlan.numBatches stSize))) := by
    cases encAesVars key with
    | none => exact Triple.throw fun s _ => joinedIff_outOfFuel _ s
    | some avars =>
        simp only [Option.some.injEq, forall_eq']
        exact triple_runBatches_joined (hjob avars) running_outOpened _
  have hfile : ReturnsJoinedIff (cryptFile encPlan.toThreadPlan env stSize key job) _ :=
    returnsJoinedIff_of (triple_aroundBatches_joined hcrypt)
  intro code hcode
  rw [hfile code hcode]
  constructor
  · rintro h b args ⟨avars, havars, hopen, hb, hstarted⟩
    rw [← hwork avars, ← hreturn avars]
    exact h hopen avars havars b hb args hstarted
  · intro h hopen avars havars b hb args hstarted
    rw [hwork avars, hreturn avars]
    exact h b args ⟨avars, havars, hopen, hb, hstarted⟩

/-- `uncomp_file` starts threads only once both files are open. -/
theorem uncompStarts_iff {data : Bytes} (p : Nat → List CompThreadArgs → Prop) :
    (∀ b args, UncompStarts lzma env stSize (some data) b args → p b args) ↔
      (env.fails .fopenIn = false → env.fails .fopenOut = false → ∀ b args,
        UncompStarted lzma env data 0 ⟨.ofData data, stSize, 0⟩ uncompOpened b args →
          p b args) := by
  constructor
  · intro h hin hout b args hstarted
    exact h b args ⟨data, rfl, hin, hout, hstarted⟩
  · rintro h b args ⟨_, ⟨⟩, hin, hout, hstarted⟩
    exact h hin hout b args hstarted

theorem uncompFile_joinedIff : ReturnsJoinedIff (uncompFile lzma env stSize input)
    (∀ b args, UncompStarts lzma env stSize input b args →
      Orderly env (uncompWork lzma env b) CompThreadArgs.returnVal b args) := by
  apply returnsJoinedIff_of
  cases input with
  | none =>
      refine Triple.throw ?_
      rintro s rfl code _
      simp [joined_empty, UncompStarts]
  | some data =>
      rw [uncompStarts_iff]
      apply triple_opening_joined joined_empty
      apply triple_opening_joined (by simp [Joined, IoState.empty])
      apply triple_closing_joined
      exact triple_uncompLoop_joined _ running_uncompOpened

/-- Each file function has joined all its threads by the time it returns, just if
every batch it starts the threads of is orderly. -/
theorem fileFunctions_joined_iff (lzma : Lzma) (env : Env) (stSize : Int)
    (input : Option Bytes) (key : Key) :
    ReturnsJoinedIff (compFile lzma env stSize input)
        (∀ b args, CompStarts lzma env stSize input b args →
          Orderly env (fun t => compressChunkOfFile lzma (env.fails (.freadInput b t))
            (env.fails (.lzma b t))) CompThreadArgs.returnVal b args) ∧
      ReturnsJoinedIff (uncompFile lzma env stSize input)
        (∀ b args, UncompStarts lzma env stSize input b args →
          Orderly env (uncompWork lzma env b) CompThreadArgs.returnVal b args) ∧
      ReturnsJoinedIff (encFile env stSize input key)
        (∀ b args,
          CryptStarts (encJob encPlan.toThreadPlan env stSize input) env stSize key
            b args →
          Orderly env (fun t => encryptChunkOfFile (env.fails (.freadInput b t)))
            EncThreadArgs.returnVal b args) ∧
      ReturnsJoinedIff (decFile env stSize input key)
        (∀ b args,
          CryptStarts (decJob encPlan.toThreadPlan env stSize input) env stSize key
            b args →
          Orderly env (fun t => decryptChunkOfFile (env.fails (.freadInput b t)))
            EncThreadArgs.returnVal b args) := by
  refine ⟨compFile_joinedIff, uncompFile_joinedIff, ?_, ?_⟩
  · exact cryptFile_joinedIff (fun avars => (readersOnly_enc avars).quiet) (fun _ => rfl)
      fun _ => rfl
  · exact cryptFile_joinedIff (fun avars => (readersOnly_dec avars).quiet) (fun _ => rfl)
      fun _ => rfl

end Files

section Runs

/-- Two records of the byte 'a', stored raw. -/
def twoRecords : Bytes :=
  [0, 1, 0, 0, 0, 0, 0, 0, 0, 1, 0, 0, 0, 0, 0, 0, 0, 97,
    0, 1, 0, 0, 0, 0, 0, 0, 0, 1, 0, 0, 0, 0, 0, 0, 0, 97]

/-- The read of the thread whose work the function does itself fails. -/
def mainReadFails : Env :=
  { inOrderEnv with fails := fun site => site == .freadInput 0 1 }

theorem uncompFile_mainReadFails :
    uncompFile .storing mainReadFails 36 (some twoRecords) .empty =
      .error (.ret (-1)) ⟨[], [], [.opened .header, .opened .out, .opened (.reader 0 0),
        .opened (.reader 0 1), .created 0 0, .ran 0 0, .ran 0 1]⟩ := by
  rfl

theorem fileFunctions_joined_twoRecords :
    Joined
      (finalState (uncompFile .storing mainReadFails 36 (some twoRecords) .empty)).log ↔
      ∀ b args, UncompStarts .storing mainReadFails 36 (some twoRecords) b args →
        Orderly mainReadFails (uncompWork .storing mainReadFails b)
          CompThreadArgs.returnVal b args := by
  obtain ⟨_, huncomp, _⟩ := fileFunctions_joined_iff .storing mainReadFails 36
    (some twoRecords) (Vector.replicate 4 0)
  refine huncomp (-1) ?_
  rw [uncompFile_mainReadFails]
  rfl

/-- `uncomp_file` returns, and its first thread still runs. -/
theorem uncompFile_leavesThread :
    exitCode (uncompFile .storing mainReadFails 36 (some twoRecords) .empty) = some (-1) ∧
      ¬ Joined
        (finalState
          (uncompFile .storing mainReadFails 36 (some twoRecords) .empty)).log := by
  rw [uncompFile_mainReadFails]
  refine ⟨rfl, fun hjoined => ?_⟩
  have hmem := hjoined 0 0 (by simp [finalState])
  simp [finalState] at hmem

end Runs

end EcFtp
