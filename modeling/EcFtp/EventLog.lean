/-
What the programs add to the event log.  `Adds` bounds it on every run, however the run
ends; `Decided` says exactly when a program falls through, with what value, and what it
has added by then.
-/
import EcFtp.Comp
import EcFtp.Enc

namespace EcFtp

open Exec WorkerOrder

/-- However a run of `x` ends, every event it has added is one of `P`. -/
def Adds {α : Type} (P : Event → Prop) (x : Prog α) : Prop :=
  ∀ s, ∃ es, (finalState (x s)).log = s.log ++ es ∧ ∀ e ∈ es, P e

namespace Adds

variable {α β : Type} {P P' : Event → Prop}

theorem none {x : Prog α} (h : ∀ s, (finalState (x s)).log = s.log) : Adds P x := by
  intro s
  exact ⟨[], by rw [h s, List.append_nil], by simp⟩

theorem pure (a : α) : Adds P (pure a : Prog α) := none fun _ => rfl

theorem throw (e : Exit) : Adds P (throw e : Prog α) := none fun _ => rfl

theorem modify {f : IoState → IoState} (hf : ∀ s, (f s).log = s.log) :
    Adds P (modify f : Prog PUnit) := none hf

theorem emit {e : Event} (he : P e) : Adds P (emit e) := by
  intro s
  exact ⟨[e], rfl, by simpa using he⟩

theorem mono {x : Prog α} (h : Adds P x) (hP : ∀ e, P e → P' e) : Adds P' x := by
  intro s
  obtain ⟨es, hlog, hes⟩ := h s
  exact ⟨es, hlog, fun e he => hP e (hes e he)⟩

theorem bind {x : Prog α} {f : α → Prog β} (hx : Adds P x) (hf : ∀ a, Adds P (f a)) :
    Adds P (x >>= f) := by
  intro s
  obtain ⟨es, hlog, hes⟩ := hx s
  cases hrun : x s with
  | ok a s₁ =>
      rw [hrun] at hlog
      obtain ⟨es', hlog', hes'⟩ := hf a s₁
      rw [bind_of_ok hrun]
      refine ⟨es ++ es', ?_, List.forall_mem_append.mpr ⟨hes, hes'⟩⟩
      rw [hlog', ← List.append_assoc, ← hlog]
      rfl
  | error e s₁ =>
      rw [hrun] at hlog
      rw [bind_of_error hrun]
      exact ⟨es, hlog, hes⟩

theorem ite {c : Prop} [Decidable c] {x y : Prog α} (hx : Adds P x) (hy : Adds P y) :
    Adds P (if c then x else y) := by
  split
  · exact hx
  · exact hy

theorem returnIf (c : Bool) : Adds P (returnIf c) := ite (throw _) (pure _)

theorem fwrite (fails : Bool) (buf : Buffer) (len : Nat) :
    Adds P (fwrite fails buf len) := by
  refine bind (modify fun _ => rfl) fun _ => ite (pure 0) ?_
  cases buf.load 0 len with
  | none => exact throw _
  | some bs => exact ite (pure 0) (bind (modify fun _ => rfl) fun _ => pure 1)

theorem fwriteItem (fails : Bool) (buf : Buffer) (len : Nat) :
    Adds P (fwriteItem fails buf len) :=
  bind (fwrite fails buf len) fun _ => returnIf _

theorem mapM {f : Nat → Prog α} (h : ∀ k, Adds P (f k)) (l : List Nat) :
    Adds P (l.mapM f) := by
  induction l with
  | nil => exact pure []
  | cons k l ih =>
      rw [List.mapM_cons]
      exact bind (h k) fun a => bind ih fun as => pure (a :: as)

theorem forM {f : Nat → Prog PUnit} (h : ∀ k, Adds P (f k)) (l : List Nat) :
    Adds P (l.forM f) := by
  induction l with
  | nil => exact pure PUnit.unit
  | cons k l ih => exact bind (h k) fun _ => ih

end Adds

/-- A reader is opened or closed. -/
def ReaderEvent (e : Event) : Prop :=
  ∃ b t, e = .opened (.reader b t) ∨ e = .closed (.reader b t)

/-- What happens within the batches: to readers and to threads. -/
def BatchEvent (e : Event) : Prop :=
  ReaderEvent e ∨ ∃ b t, e = .created b t ∨ e = .ran b t ∨ e = .joined b t

namespace Adds

variable {env : Env} {lzma : Lzma} {p : ThreadPlan} {stSize : Int} {input : Option Bytes}
  {data : Bytes}

theorem openReader (pos : Int) (b t : Nat) :
    Adds ReaderEvent (openReader env input pos b t) := by
  cases input with
  | none => exact throw _
  | some data =>
      refine bind (returnIf _) fun _ => bind (emit ⟨b, t, .inl rfl⟩) fun _ => pure _

theorem setCompArgs (b t : Nat) :
    Adds ReaderEvent (setCompArgs p env stSize input b t) := by
  refine bind (openReader _ _ _) fun _ => ?_
  refine bind (returnIf _) fun _ => bind (returnIf _) fun _ => ?_
  exact bind (returnIf _) fun _ => pure _

theorem fwriteField {P : Event → Prop} {fails : Bool} {field : Bytes} {code : Int}
    {next : Prog Int} (hnext : Adds P next) :
    Adds P (fwriteField fails field code next) :=
  bind (fwrite _ _ _) fun _ => ite (pure _) hnext

theorem writeEcHeader {P : Event → Prop} (fails : Nat → Bool) (h : EcHeader) :
    Adds P (writeEcHeader fails h) :=
  fwriteField (fwriteField (fwriteField (pure 0)))

theorem writeChunk {P : Event → Prop} (b t : Nat) (arg : CompThreadArgs)
    (outbuf : Buffer) :
    Adds P (writeChunk env b t arg outbuf) :=
  ite (fwriteItem _ _ _) (bind (fwriteItem _ _ _) fun _ => fwriteItem _ _ _)

theorem useCompWork (b t : Nat) (arg : CompThreadArgs) :
    Adds ReaderEvent (useCompWork env b t arg) := by
  unfold EcFtp.useCompWork
  cases arg.echeader with
  | none => exact throw _
  | some h =>
      cases arg.outbuf with
      | none => exact throw _
      | some outbuf =>
          refine bind (writeEcHeader _ h) fun _ => bind (returnIf _) fun _ => ?_
          exact bind (writeChunk b t arg outbuf) fun _ => emit ⟨b, t, .inr rfl⟩

theorem setEncArgs (avars : EncAesVars) (allocLen : Bool → Nat → Nat)
    (padded : Bool → Option Int) (b t : Nat) :
    Adds ReaderEvent (setEncArgs p env stSize input avars allocLen padded b t) := by
  refine bind (openReader _ _ _) fun _ => bind (returnIf _) fun _ => ?_
  exact bind (returnIf _) fun _ => pure _

theorem addPadding {P : Event → Prop} (b t : Nat) (arg : EncThreadArgs) :
    Adds P (addPadding p env stSize b t arg) := by
  unfold EcFtp.addPadding
  refine ite ?_ (pure _)
  cases arg.padded with
  | none => exact throw _
  | some padded => exact ite (fwriteItem _ _ _) (pure _)

theorem useEncWork (b t : Nat) (arg : EncThreadArgs) :
    Adds ReaderEvent (useEncWork p env stSize b t arg) := by
  refine bind (fwriteItem _ _ _) fun _ => bind (addPadding b t arg) fun _ => ?_
  exact emit ⟨b, t, .inr rfl⟩

theorem useDecWork (b t : Nat) (arg : EncThreadArgs) :
    Adds ReaderEvent (useDecWork env b t arg) :=
  bind (fwriteItem _ _ _) fun _ => emit ⟨b, t, .inr rfl⟩

theorem seekNext {P : Event → Prop} (b t : Nat) (h : EcHeader) (u : UncompState) :
    Adds P (seekNext env b t h u) :=
  bind (returnIf _) fun _ => pure _

theorem setUncompArgs (b t : Nat) (h : EcHeader) (u : UncompState) :
    Adds ReaderEvent (setUncompArgs env data b t h u) := by
  refine bind (openReader _ _ _) fun _ => ?_
  refine bind (returnIf _) fun _ => bind (returnIf _) fun _ => ?_
  refine bind (ite ?_ (pure _)) fun _ => bind (seekNext _ _ _ _) fun _ => pure _
  exact bind (returnIf _) fun _ => pure _

theorem setUncompThreads (b n t : Nat) (u : UncompState) :
    Adds ReaderEvent (setUncompThreads env data b n t u) := by
  induction n generalizing t u with
  | zero => exact pure _
  | succ n ih =>
      unfold EcFtp.setUncompThreads
      rcases readEcHeader (fun field => env.fails (.freadHeader b t field)) u.inFile with
        ⟨code | h, inFile⟩
      · exact ite (pure _) (throw _)
      · refine bind (setUncompArgs b t h _) fun next => ?_
        exact bind (ih _ _) fun rest => pure _

theorem useUncompWork (b t : Nat) (arg : CompThreadArgs) :
    Adds ReaderEvent (useUncompWork env b t arg) := by
  unfold EcFtp.useUncompWork
  cases arg.outbuf with
  | none => exact throw _
  | some outbuf => exact bind (fwriteItem _ _ _) fun _ => emit ⟨b, t, .inr rfl⟩

end Adds

section Batches

variable {σ : Type} {env : Env} {p : ThreadPlan} {stSize : Int} {lzma : Lzma}
  {data : Bytes}

/-- The stages around the threads do nothing but open and close readers. -/
structure ReadersOnly (job : FileJob σ) : Prop where
  setArgs : ∀ b t, Adds ReaderEvent (job.setArgs b t)
  useWork : ∀ b t a, Adds ReaderEvent (job.useWork b t a)

theorem readersOnly_comp {input : Option Bytes} :
    ReadersOnly (compJob p lzma env stSize input) :=
  ⟨Adds.setCompArgs, Adds.useCompWork⟩

theorem readersOnly_enc {input : Option Bytes} (avars : EncAesVars) :
    ReadersOnly (encJob p env stSize input avars) :=
  ⟨Adds.setEncArgs avars (encAllocLen p) fun _ => none, Adds.useEncWork⟩

theorem readersOnly_dec {input : Option Bytes} (avars : EncAesVars) :
    ReadersOnly (decJob p env stSize input avars) :=
  ⟨Adds.setEncArgs avars
    (fun last irReadlen => if last then irReadlen else p.threadMaxMem)
    fun last => some (if last then 1 else 0), Adds.useDecWork⟩

theorem adds_checkReturn {P : Event → Prop} (returnVal : σ → Option Int) (args : List σ)
    (t : Nat) : Adds P (checkReturn returnVal args t) := by
  unfold checkReturn
  cases args[t]?.bind returnVal with
  | none => exact Adds.throw _
  | some val => exact Adds.returnIf _

theorem adds_runThreads (work : Nat → σ → Option σ) (returnVal : σ → Option Int) (b : Nat)
    (args : List σ) : Adds BatchEvent (runThreads env work returnVal b args) := by
  unfold runThreads
  refine Adds.bind (Adds.forM (fun t => ?_) _) fun _ => ?_
  · exact Adds.bind (Adds.returnIf _) fun _ => Adds.emit (.inr ⟨b, t, .inl rfl⟩)
  · cases runOrder work (env.order b args.length) args with
    | none => exact Adds.throw _
    | some ran =>
        refine Adds.bind (Adds.forM (fun t => ?_) _) fun _ => ?_
        · exact Adds.emit (.inr ⟨b, t, .inr (.inl rfl)⟩)
        refine Adds.bind (adds_checkReturn _ _ _) fun _ => ?_
        refine Adds.bind (Adds.forM (fun t => ?_) _) fun _ => Adds.pure _
        exact Adds.bind (Adds.emit (.inr ⟨b, t, .inr (.inr rfl)⟩)) fun _ =>
          adds_checkReturn _ _ _

theorem adds_useThreads {P : Event → Prop} {useWork : Nat → σ → Prog PUnit}
    (huse : ∀ t a, Adds P (useWork t a)) (n : Nat) (args : List σ) :
    Adds P (useThreads useWork n args) := by
  refine Adds.forM (fun t => ?_) _
  cases args[t]? with
  | none => exact Adds.throw _
  | some a => exact huse t a

theorem adds_runBatches {job : FileJob σ} (hjob : ReadersOnly job) :
    Adds BatchEvent (runBatches p env stSize job) := by
  refine Adds.forM (fun b => ?_) _
  refine Adds.ite (Adds.throw _) (Adds.bind (Adds.mapM (fun t => ?_) _) fun args => ?_)
  · exact Adds.ite ((hjob.setArgs b t).mono fun _ => .inl) (Adds.throw _)
  · refine Adds.bind (adds_runThreads _ _ b args) fun ran => ?_
    exact adds_useThreads (fun t a => (hjob.useWork b t a).mono fun _ => .inl) _ ran

theorem adds_runUncompThreads (b : Nat) (args : List CompThreadArgs) :
    Adds BatchEvent (runUncompThreads lzma env b args) := by
  cases args with
  | nil => exact Adds.throw _
  | cons arg args =>
      refine Adds.bind (adds_runThreads _ _ b _) fun ran => ?_
      exact adds_useThreads
        (fun t a => (Adds.useUncompWork b t a).mono fun _ => .inl) _ ran

theorem adds_uncompLoop (fuel b : Nat) (u : UncompState) :
    Adds BatchEvent (uncompLoop lzma env data fuel b u) := by
  induction fuel generalizing b u with
  | zero => exact Adds.throw _
  | succ fuel ih =>
      refine Adds.ite (Adds.bind ?_ fun next => ?_) (Adds.pure _)
      · exact (Adds.setUncompThreads b _ 0 u).mono fun _ => .inl
      · exact Adds.bind (adds_runUncompThreads b _) fun _ => ih _ _

end Batches

/-- `x` falls through, in every state, exactly where `p` holds: then with the value `a`,
and with `es` added to the log. -/
structure Decided {α : Type} (x : Prog α) (p : Prop) (a : α) (es : List Event) :
    Prop where
  falls : p → ∀ s, ∃ s', x s = .ok a s' ∧ s'.log = s.log ++ es
  stops : ¬ p → ∀ s, ∃ e s', x s = .error e s'

/-- A block of at least one byte, all of it initialised, that `fwrite` writes. -/
def Writes (fails : Bool) (buf : Buffer) (len : Nat) : Prop :=
  len ≠ 0 ∧ (∃ bs, buf.load 0 len = some bs) ∧ fails = false

namespace Decided

variable {α β : Type} {x : Prog α} {f : α → Prog β} {p q : Prop} {a : α} {b : β}
  {es es' : List Event} {n : Nat}

theorem congr (h : Decided x p a es) (hpq : p ↔ q) : Decided x q a es :=
  ⟨fun hq => h.falls (hpq.mpr hq), fun hq => h.stops fun hp => hq (hpq.mp hp)⟩

theorem pure (a : α) : Decided (pure a : Prog α) True a [] :=
  ⟨fun _ s => ⟨s, rfl, by simp⟩, fun h => absurd trivial h⟩

theorem throw (e : Exit) (a : α) (es : List Event) :
    Decided (throw e : Prog α) False a es :=
  ⟨False.elim, fun _ s => ⟨e, s, rfl⟩⟩

theorem emit (e : Event) : Decided (emit e) True ⟨⟩ [e] :=
  ⟨fun _ _ => ⟨_, rfl, rfl⟩, fun h => absurd trivial h⟩

theorem returnIf (c : Bool) : Decided (returnIf c) (c = false) ⟨⟩ [] := by
  cases c with
  | false => exact (pure PUnit.unit).congr (by simp)
  | true => exact (throw _ _ _).congr (by simp)

theorem bind (hx : Decided x p a es) (hf : p → Decided (f a) q b es') :
    Decided (x >>= f) (p ∧ q) b (es ++ es') := by
  constructor
  · rintro ⟨hp, hq⟩ s
    obtain ⟨s₁, hrun, hlog⟩ := hx.falls hp s
    obtain ⟨s₂, hrun', hlog'⟩ := (hf hp).falls hq s₁
    exact ⟨s₂, by rw [bind_of_ok hrun, hrun'], by rw [hlog', hlog, List.append_assoc]⟩
  · intro hnot s
    by_cases hp : p
    · obtain ⟨s₁, hrun, _⟩ := hx.falls hp s
      obtain ⟨e, s₂, hrun'⟩ := (hf hp).stops (fun hq => hnot ⟨hp, hq⟩) s₁
      exact ⟨e, s₂, by rw [bind_of_ok hrun, hrun']⟩
    · obtain ⟨e, s₁, hrun⟩ := hx.stops hp s
      exact ⟨e, s₁, bind_of_error hrun⟩

theorem fwriteItem (fails : Bool) (buf : Buffer) (len : Nat) :
    Decided (fwriteItem fails buf len) (Writes fails buf len) ⟨⟩ [] := by
  constructor
  · rintro ⟨hlen, ⟨bs, hload⟩, rfl⟩ s
    rw [fwriteItem_run]
    simp [hlen, hload]
  · intro hnot s
    rw [fwriteItem_run]
    by_cases hlen : len = 0
    · simp [hlen]
    · cases hload : buf.load 0 len with
      | none => simp [hlen]
      | some bs =>
          cases fails with
          | true => simp [hlen]
          | false => exact absurd ⟨hlen, ⟨bs, hload⟩, rfl⟩ hnot

/-- A counted loop falls through where all its rounds do. -/
theorem forM_range {f : Nat → Prog PUnit} {p : Nat → Prop} {es : Nat → List Event}
    (h : ∀ t < n, Decided (f t) (p t) ⟨⟩ (es t)) :
    Decided ((List.range n).forM f) (∀ t < n, p t) ⟨⟩ ((List.range n).flatMap es) := by
  induction n with
  | zero => exact (pure PUnit.unit).congr (by simp)
  | succ n ih =>
      have hlast : Decided ([n].forM f) (p n ∧ True) ⟨⟩ (es n ++ []) :=
        bind (h n (by omega)) fun _ => pure PUnit.unit
      have hall : Decided ((List.range n).forM f >>= fun _ => [n].forM f)
          ((∀ t < n, p t) ∧ p n ∧ True) ⟨⟩ ((List.range n).flatMap es ++ (es n ++ [])) :=
        bind (ih fun t ht => h t (by omega)) fun _ => hlast
      rw [List.append_nil, ← List.flatMap_singleton es n, ← List.flatMap_append,
        ← List.range_succ, ← forM_append, ← List.range_succ] at hall
      refine hall.congr ?_
      rw [and_true, Nat.forall_lt_succ_right]

/-- So does one that collects a value from each round. -/
theorem mapM_range {f : Nat → Prog α} {p : Nat → Prop} {g : Nat → α}
    {es : Nat → List Event}
    (h : ∀ t < n, Decided (f t) (p t) (g t) (es t)) :
    Decided ((List.range n).mapM f) (∀ t < n, p t) ((List.range n).map g)
      ((List.range n).flatMap es) := by
  induction n with
  | zero => exact (pure []).congr (by simp)
  | succ n ih =>
      have hlast : Decided (f n >>= fun a => Pure.pure ((List.range n).map g ++ [a]))
          (p n ∧ True) ((List.range n).map g ++ [g n]) (es n ++ []) :=
        bind (h n (by omega)) fun _ => pure _
      have hall : Decided ((List.range n).mapM f >>= fun l => f n >>= fun a =>
            Pure.pure (l ++ [a])) ((∀ t < n, p t) ∧ p n ∧ True)
          ((List.range n).map g ++ [g n]) ((List.range n).flatMap es ++ (es n ++ [])) :=
        bind (ih fun t ht => h t (by omega)) fun _ => hlast
      rw [List.append_nil, ← List.flatMap_singleton es n, ← List.flatMap_append,
        ← List.range_succ, ← mapM_range_succ, ← List.map_singleton, ← List.map_append,
        ← List.range_succ] at hall
      refine hall.congr ?_
      rw [and_true, Nat.forall_lt_succ_right]

end Decided

end EcFtp
