/-
What `uncomp_file` has written when it stops.  Whatever bytes it is given and whichever
of the checked calls fail, its output is a beginning of what the leading good records of
its input stand for.
-/
import EcFtp.PartialOutput

namespace EcFtp

open ByteStrings Exec WorkerOrder

/-- What is written of some records: what those before the first one stand for that
cannot be written. -/
def writtenOf (lzma : Lzma) : List Record → Bytes
  | [] => []
  | r :: rs =>
      match r.write lzma with
      | .wrote out => out ++ writtenOf lzma rs
      | .refused => []
      | .undefined => []

section Written

variable {lzma : Lzma} {rs more : List Record} {r : Record} {out : Bytes}

theorem writtenOf_append_begins : writtenOf lzma rs <+: writtenOf lzma (rs ++ more) := by
  induction rs with
  | nil => exact List.nil_prefix
  | cons r rs ih =>
      rw [List.cons_append, writtenOf, writtenOf]
      cases r.write lzma with
      | wrote out => exact (List.prefix_append_right_inj out).mpr ih
      | refused => exact List.prefix_rfl
      | undefined => exact List.prefix_rfl

theorem writtenOf_append (h : writeAll lzma rs = .wrote out) :
    writtenOf lzma (rs ++ more) = out ++ writtenOf lzma more := by
  induction rs generalizing out with
  | nil =>
      cases h
      rfl
  | cons r rs ih =>
      rw [writeAll] at h
      rw [List.cons_append, writtenOf]
      cases hr : r.write lzma with
      | wrote first =>
          rw [hr] at h
          cases hrs : writeAll lzma rs with
          | wrote rest =>
              rw [hrs] at h
              obtain rfl : first ++ rest = out := Outcome.wrote.inj h
              change first ++ writtenOf lzma (rs ++ more) = _
              rw [ih hrs, List.append_assoc]
          | refused =>
              rw [hrs] at h
              cases h
          | undefined =>
              rw [hrs] at h
              cases h
      | refused =>
          rw [hr] at h
          cases h
      | undefined =>
          rw [hr] at h
          cases h

theorem writtenOf_of_wrote (h : writeAll lzma rs = .wrote out) :
    writtenOf lzma rs = out := by
  have happend := @writtenOf_append lzma rs [] out h
  rwa [List.append_nil, writtenOf, List.append_nil] at happend

end Written

/-- What does not change with the event log. -/
abbrev LogBlind {τ : Type} (f : IoState → τ) : Prop :=
  ∀ s log, f { s with log := log } = f s

/-- Every byte that `fwrite` was given is in the output. -/
def IoState.Accounted (s : IoState) : Prop := s.handed = s.out

section Quiet

variable {env : Env} {data : Bytes} {b t : Nat} {s : UncompState} {τ : Type}
  {f : IoState → τ}

theorem logBlind_out : LogBlind IoState.out := fun _ _ => rfl

theorem logBlind_accounted : LogBlind IoState.Accounted := fun _ _ => rfl

theorem keeps_emit (hf : LogBlind f) (event : Event) : Preserves f (emit event) :=
  Preserves.modify fun _ => hf _ _

theorem keeps_returnIf (c : Bool) : Preserves f (returnIf c) := Preserves.exitIf c _

theorem keeps_openReader (hf : LogBlind f) (input : Option Bytes) (pos : Int) :
    Preserves f (openReader env input pos b t) := by
  cases input with
  | none => exact Preserves.throw _
  | some data =>
      refine Preserves.bind (keeps_returnIf _) fun _ => ?_
      exact Preserves.bind (keeps_emit hf _) fun _ => Preserves.pure _

theorem keeps_setUncompArgs (hf : LogBlind f) (h : EcHeader) :
    Preserves f (setUncompArgs env data b t h s) := by
  refine Preserves.bind (keeps_openReader hf _ _) fun _ => ?_
  refine Preserves.bind (keeps_returnIf _) fun _ => ?_
  refine Preserves.bind (keeps_returnIf _) fun _ => ?_
  refine Preserves.bind ?_ fun _ => ?_
  · unfold mallocPlain
    apply Preserves.ite
    · exact Preserves.bind (keeps_returnIf _) fun _ => Preserves.pure _
    · exact Preserves.pure _
  refine Preserves.bind ?_ fun _ => Preserves.pure _
  unfold seekNext afterSeek
  exact Preserves.bind (keeps_returnIf _) fun _ => Preserves.pure _

theorem keeps_setUncompThreads (hf : LogBlind f) (k : Nat) :
    Preserves f (setUncompThreads env data b k t s) := by
  induction k generalizing t s with
  | zero => exact Preserves.pure _
  | succ k ih =>
      unfold setUncompThreads
      rcases readEcHeader (fun field => env.fails (.freadHeader b t field)) s.inFile with
        ⟨_ | h, inFile⟩
      · exact Preserves.ite (Preserves.pure _) (Preserves.throw _)
      · refine Preserves.bind (keeps_setUncompArgs hf h) fun _ => ?_
        exact Preserves.bind ih fun _ => Preserves.pure _

variable {σ : Type} {returnVal : σ → Option Int}

theorem keeps_checkReturn (args : List σ) (t : Nat) :
    Preserves f (checkReturn returnVal args t) := by
  unfold checkReturn
  cases args[t]?.bind returnVal with
  | none => exact Preserves.throw _
  | some v => exact keeps_returnIf _

theorem keeps_runThreads (hf : LogBlind f) (work : Nat → σ → Option σ) (args : List σ) :
    Preserves f (runThreads env work returnVal b args) := by
  refine Preserves.bind (Preserves.forM (fun t => ?_) _) fun _ => ?_
  · exact Preserves.bind (keeps_returnIf _) fun _ => keeps_emit hf _
  cases runOrder work (env.order b args.length) args with
  | none => exact Preserves.throw _
  | some args =>
      refine Preserves.bind (Preserves.forM (fun t => keeps_emit hf _) _) fun _ => ?_
      refine Preserves.bind (keeps_checkReturn _ _) fun _ => ?_
      refine Preserves.bind (Preserves.forM (fun t => ?_) _) fun _ => Preserves.pure _
      exact Preserves.bind (keeps_emit hf _) fun _ => keeps_checkReturn _ _

theorem fwriteItem_error {fails : Bool} {buf : Buffer} {len : Nat} {s s' : IoState}
    {e : Exit}
    (h : fwriteItem fails buf len s = .error e s') : s'.out = s.out := by
  rw [fwriteItem_run] at h
  dsimp only at h
  split at h
  · cases h
    rfl
  · cases hload : buf.load 0 len with
    | none =>
        rw [hload] at h
        cases h
        rfl
    | some bs =>
        rw [hload] at h
        cases fails with
        | true =>
            cases h
            rfl
        | false => cases h

/-- A record that is not written leaves the output as it was. -/
theorem useUncompWork_error {a : CompThreadArgs} {s s' : IoState} {e : Exit}
    (h : useUncompWork env b t a s = .error e s') : s'.out = s.out := by
  unfold useUncompWork at h
  cases hbuf : a.outbuf with
  | none =>
      rw [hbuf] at h
      cases h
      rfl
  | some buf =>
      rw [hbuf] at h
      rcases error_of_bind h with hwrite | ⟨_, s₁, _, hemit⟩
      · exact fwriteItem_error hwrite
      · cases hemit

end Quiet

section Batches

variable {lzma : Lzma} {data o : Bytes} {b : Nat} {args : List CompThreadArgs}
  {rs : List Record}

/-- A batch writes its records, or what those before the first bad one stand for. -/
theorem triple_batchWritten (env : ReliableEnv) (hargs : SlotsOf data args rs)
    (hne : rs ≠ []) :
    Triple (OutIs o AllBounded) (runUncompThreads lzma env.toEnv b args)
      (fun _ s => ∃ out, writeAll lzma rs = .wrote out ∧ OutIs (o ++ out) AllBounded s)
      fun _ s => s.out <+: o ++ writtenOf lzma rs := by
  have hlen : args.length = rs.length := hargs.length_eq
  have hpos := List.length_pos_iff.mpr hne
  have hargsNe : args ≠ [] := List.length_pos_iff.mp (by omega)
  rw [runUncompThreads_eq hargsNe]
  refine Triple.bind
    ((@triple_runThreads_records lzma env.toEnv data b args rs (fun _ _ => True)
    hargs _ logFree_outIs hargsNe (fun _ _ => trivial) fun _ _ => trivial).of_error ?_)
    fun ran => ?_
  · intro s e s' hs hrun
    rw [((keeps_runThreads logBlind_out _ _).error hrun).trans hs.1]
    exact List.prefix_append _ _
  refine Triple.assume fun hran => ?_
  obtain ⟨hworks, hdone⟩ := hran
  refine Triple.conseq (Triple.forM_range (BatchWritten lzma o rs) ?_)
    ?_ ?_ fun _ _ he => he
  · intro k hk
    obtain ⟨a, hget, ha⟩ := hdone k (hlen ▸ hk)
    rw [hget]
    refine (triple_useRecord (hlen ▸ hk) ha (fun _ _ => trivial) (fun _ _ => trivial)
      fun _ _ => trivial).of_error ?_
    rintro s e s' ⟨out, hout, hs⟩ hrun
    rw [useUncompWork_error hrun, hs.1, ← List.take_append_drop k rs,
      writtenOf_append hout]
    exact (List.prefix_append_right_inj o).mpr (List.prefix_append _ _)
  · intro s hs
    refine ⟨[], rfl, ?_⟩
    rw [List.append_nil]
    exact hs
  · rintro _ s ⟨out, hout, hs⟩
    rw [hlen, List.take_length] at hout
    exact ⟨out, hout, hs⟩

/-- A batch with a header that asks for too much writes nothing. -/
theorem triple_batchShort (env : ReliableEnv) (hslots : ∀ arg ∈ args, IsSlot arg)
    (hshort : ∃ arg ∈ args, ReadsShort data arg) :
    Triple (OutIs o AllBounded) (runUncompThreads lzma env.toEnv b args)
      (fun _ _ => False) fun _ s => s.out = o := by
  obtain ⟨short, hmem, hread⟩ := hshort
  obtain ⟨t, ht, hget⟩ := List.getElem_of_mem hmem
  have hrun := @triple_runThreads _ env.toEnv (fun _ _ => True) (OutIs o AllBounded)
    (uncompWork lzma env.toEnv b) CompThreadArgs.returnVal (fun k => args.getD k short)
    args.length b logFree_outIs (fun _ _ => trivial) (by omega) fun k hk => by
      obtain ⟨a, ha, hval⟩ := @uncompWork_isSlot lzma env.toEnv b k _
        (hslots (args.getD k short) (by simp [List.getD_eq_getElem?_getD, hk]))
      rw [ha]
      exact hval.imp id fun hfail => ⟨-1, hfail, by decide, fun _ => trivial⟩
  rw [map_range_getD] at hrun
  rw [runUncompThreads_eq (List.ne_nil_of_mem hmem)]
  refine Triple.bind_stop ((hrun.post fun ran s hworked => ?_).of_error ?_)
  · obtain ⟨a, _, hsome, hzero⟩ := hworked.1 t ht
    have hshort : args.getD t short = short := by
      simp [List.getD_eq_getElem?_getD, ht, hget]
    obtain ⟨a', ha', hfail⟩ := @uncompWork_readsShort lzma env.toEnv data b t _ hread
    rw [hshort, ha'] at hsome
    obtain rfl := Option.some.inj hsome
    cases hzero.symm.trans hfail
  · exact fun s e s' hs hres => ((keeps_runThreads logBlind_out _ _).error hres).trans
      hs.1

variable {pos fuel : Nat}

/-- At the end of the file, whether all of it was read or not, nothing is written. -/
theorem triple_loopEnd (env : ReliableEnv) :
    Triple (OutIs o AllBounded)
      (uncompLoop lzma env.toEnv data (fuel + 1) b (scanEnd data pos))
      (fun _ s => s.out = o) fun _ s => s.out = o := by
  rw [uncompLoop]
  refine Triple.ite (fun _ => ?_) fun _ => Triple.pure fun s hs => hs.1
  have hfile : (scanEnd data pos).inFile = ⟨data, data.length, true⟩ := rfl
  have hthreads : compPlan.maxThreads = 7 + 1 := rfl
  have hscan : setUncompThreads env.toEnv data b compPlan.maxThreads 0
      (scanEnd data pos) = pure ([], scanEnd data pos) := by
    rw [hthreads, setUncompThreads, hfile, readEcHeader_end]
    rfl
  rw [hscan]
  exact Triple.throw fun s hs => hs.1

/-- What the loop has written when it stops. -/
def StopsWithin (o w : Bytes) (loop : Prog PUnit) : Prop :=
  Triple (OutIs o AllBounded) loop (fun _ s => s.out <+: o ++ w)
    fun _ s => s.out <+: o ++ w

theorem loop_stopsWithin (env : ReliableEnv) (hn : data.length < 2 ^ 63)
    (hpos : pos ≤ data.length) (hfuel : data.length - pos < fuel) :
    StopsWithin o (writtenOf lzma (records (data.drop pos)).1)
      (uncompLoop lzma env.toEnv data fuel b (scanState data pos)) := by
  induction fuel generalizing b pos o with
  | zero => omega
  | succ fuel ih =>
      have hsame : ∀ {s : IoState}, s.out = o →
          s.out <+: o ++ writtenOf lzma (records (data.drop pos)).1 := by
        intro s hs
        rw [hs]
        exact List.prefix_append _ _
      rw [uncompLoop]
      refine Triple.ite (fun hleft => ?_) fun _ => Triple.pure fun s hs => hsame hs.1
      refine Triple.bind ((triple_setUncompThreads (b := b) hn logFree_outIs
        (fun _ _ => trivial) compPlan.maxThreads 0 hpos fun _ _ => trivial).of_error ?_)
        fun res => ?_
      · intro s e s' hs hrun
        exact hsame (((keeps_setUncompThreads logBlind_out _).error hrun).trans hs.1)
      refine Triple.assume fun hres => ?_
      obtain ⟨args, next⟩ := res
      dsimp only at hres ⊢
      rcases hres with ⟨hslots, hstate⟩ | ⟨_, hslots, hshort⟩
      · by_cases hnil : (takeRecords compPlan.maxThreads (data.drop pos)).1 = []
        · rw [SlotsOf, hnil, List.forall₂_nil_right_iff] at hslots
          have hslots : args = [] := hslots
          rw [hslots]
          exact Triple.bind_stop (Triple.throw fun s hs => hsame hs.1)
        · refine Triple.bind
            ((triple_batchWritten env hslots hnil).conseq (fun _ hs => hs)
            (fun _ _ hq => hq) fun _ s he => ?_) fun _ => ?_
          · rw [records_takeRecords compPlan.maxThreads]
            exact he.trans ((List.prefix_append_right_inj o).mpr writtenOf_append_begins)
          refine Triple.exists fun out => Triple.assume fun hout => ?_
          have hrest : o ++ writtenOf lzma (records (data.drop pos)).1 =
            (o ++ out) ++ writtenOf
              lzma (records (takeRecords compPlan.maxThreads (data.drop pos)).2).1 := by
            rw [records_takeRecords compPlan.maxThreads,
              writtenOf_append hout, List.append_assoc]
          have hlen := length_takeRecords compPlan.maxThreads (data.drop pos)
          have hpositive := List.length_pos_iff.mpr hnil
          rw [List.length_drop] at hlen
          unfold ecHeaderSize at hlen
          rw [hrest]
          rcases hstate with ⟨_, rfl⟩ | ⟨_, _, rfl⟩
          · have hmore := @ih (o ++ out) (b + 1) (data.length -
              (takeRecords compPlan.maxThreads (data.drop pos)).2.length) (Nat.sub_le _ _)
              (by omega)
            rw [drop_takeRecords] at hmore
            exact hmore
          · obtain ⟨more, rfl⟩ : ∃ more, fuel = more + 1 := ⟨fuel - 1, by omega⟩
            refine (triple_loopEnd env).conseq (fun _ hs => hs) (fun _ s hs => ?_)
              fun _ s hs => ?_
            · rw [hs]
              exact List.prefix_append _ _
            · rw [hs]
              exact List.prefix_append _ _
      · exact Triple.bind_stop
          ((triple_batchShort env hslots hshort).conseq (fun _ hs => hs)
          (fun _ _ hq => hq) fun _ _ he => hsame he)

/-- The whole of `uncomp_file`, when nothing fails. -/
theorem uncompFile_stopsWithin (env : ReliableEnv) (hn : data.length < 2 ^ 63) :
    StopsWithin [] (writtenOf lzma (records data).1)
      (uncompFile lzma env.toEnv data.length (some data)) := by
  have hfault : env.toEnv.Faulty → ∀ s : IoState,
      s.out <+: [] ++ writtenOf lzma (records data).1 := fun h => absurd h env.not_faulty
  have hloop :=
    @loop_stopsWithin lzma data [] 0 0 (data.length + 1) env hn (Nat.zero_le _)
    (by omega)
  rw [List.drop_zero] at hloop
  have hstart : (⟨.ofData data, data.length, 0⟩ : UncompState) = scanState data 0 := by
    rw [scanState, Int.ofNat_zero, Int.sub_zero]
    rfl
  unfold uncompFile
  refine Triple.bind (triple_call hfault _) fun _ => ?_
  refine Triple.bind (triple_emit logFree_outIs _) fun _ => ?_
  refine Triple.bind (triple_call hfault _) fun _ => ?_
  refine Triple.bind (triple_emit logFree_outIs _) fun _ => ?_
  rw [hstart]
  exact Triple.bind hloop fun _ => triple_emit (fun _ _ hs => hs) _

end Batches

section Handed

variable {env : Env} {lzma : Lzma} {data : Bytes} {s s' : IoState}

theorem handed_append (s : IoState) (buf : Buffer) (len : Nat) :
    { s with writes := s.writes ++ [(buf, len)] }.handed =
      s.handed ++ (buf.load 0 len).getD [] := by
  simp [IoState.handed]

theorem handed_begins (h : s.writes <+: s'.writes) : s.handed <+: s'.handed := by
  obtain ⟨more, hmore⟩ := h
  unfold IoState.handed
  rw [← hmore, List.flatMap_append]
  exact List.prefix_append _ _

/-- A call of `fwrite` that does not fail writes what it was given. -/
theorem accounted_fwriteItem (buf : Buffer) (len : Nat) :
    Preserves IoState.Accounted (fwriteItem false buf len) := by
  intro s
  have hhanded := handed_append s buf len
  rw [fwriteItem_run]
  by_cases hlen : len = 0
  · have hnone : (buf.load 0 0).getD [] = [] := by simp [Buffer.load, slice]
    rw [hlen, hnone, List.append_nil] at hhanded
    simp only [hlen, ↓reduceIte]
    exact congrArg (· = s.out) hhanded
  · simp only [hlen, ↓reduceIte]
    cases hload : buf.load 0 len with
    | none =>
        rw [hload, Option.getD_none, List.append_nil] at hhanded
        exact congrArg (· = s.out) hhanded
    | some bs =>
        rw [hload, Option.getD_some] at hhanded
        have hboth := congrArg (· = s.out ++ bs) hhanded
        exact hboth.trans (propext (List.append_left_inj bs))

theorem accounted_runUncompThreads (b : Nat) (args : List CompThreadArgs) :
    Preserves IoState.Accounted (runUncompThreads lzma env.faultless b args) := by
  cases args with
  | nil => exact Preserves.throw _
  | cons arg args =>
      refine Preserves.bind (keeps_runThreads logBlind_accounted _ _) fun ran => ?_
      refine Preserves.forM (fun t => ?_) _
      cases ran[t]? with
      | none => exact Preserves.throw _
      | some a =>
          change Preserves _ (useUncompWork env.faultless b t a)
          unfold useUncompWork
          cases a.outbuf with
          | none => exact Preserves.throw _
          | some outbuf =>
              refine Preserves.bind (accounted_fwriteItem _ _) fun _ => ?_
              exact keeps_emit logBlind_accounted _

theorem accounted_uncompLoop (fuel b : Nat) (u : UncompState) :
    Preserves IoState.Accounted (uncompLoop lzma env.faultless data fuel b u) := by
  induction fuel generalizing b u with
  | zero => exact Preserves.throw _
  | succ fuel ih =>
      refine Preserves.ite ?_ (Preserves.pure _)
      refine Preserves.bind (keeps_setUncompThreads logBlind_accounted _) fun res => ?_
      exact Preserves.bind (accounted_runUncompThreads b _) fun _ => ih (b + 1) _

/-- Where nothing fails, `uncomp_file` writes all that it hands to `fwrite`. -/
theorem accounted_uncompFile (stSize : Int) (input : Option Bytes) :
    Preserves IoState.Accounted (uncompFile lzma env.faultless stSize input) := by
  cases input with
  | none => exact Preserves.throw _
  | some data =>
      refine Preserves.bind (keeps_returnIf _) fun _ => ?_
      refine Preserves.bind (keeps_emit logBlind_accounted _) fun _ => ?_
      refine Preserves.bind (keeps_returnIf _) fun _ => ?_
      refine Preserves.bind (keeps_emit logBlind_accounted _) fun _ => ?_
      refine Preserves.bind (accounted_uncompLoop _ 0 _) fun _ => ?_
      exact keeps_emit logBlind_accounted _

end Handed

/-- Whatever the bytes and whichever of the checked calls fail, what can have come into
the output when `uncomp_file` stops is a beginning of what the records before the first
bad one stand for. -/
theorem uncompFileOf_written {lzma : Lzma} {env : Env} {c : FileData} {bs : Bytes}
    (h : (finalState (uncompFileOf lzma env c)).MayHold bs) :
    bs <+: writtenOf lzma (records c.bytes).1 := by
  have hfaultless : (finalState (uncompFileOf lzma env.faultless c)).out <+:
      writtenOf lzma (records c.bytes).1 := by
    rw [finalState_eq_endState]
    exact (@uncompFile_stopsWithin lzma c.bytes ⟨env.faultless, fun _ => rfl⟩
      c.length_lt).endState empty_allBounded
  have hhanded : (finalState (uncompFileOf lzma env.faultless c)).Accounted := by
    rw [finalState_eq_endState, uncompFileOf, accounted_uncompFile]
    rfl
  have hwritten : (finalState (uncompFileOf lzma env c)).out <+:
        (finalState (uncompFileOf lzma env.faultless c)).out ∧
      (finalState (uncompFileOf lzma env c)).handed <+:
        (finalState (uncompFileOf lzma env.faultless c)).out := by
    rcases stopsEarly_of_short
      (@short_uncompFile lzma env c.size (some c.bytes)) .empty with
      hsame | ⟨_, hout, hwrites⟩
    · rw [uncompFileOf, hsame, ← uncompFileOf, hhanded]
      exact ⟨List.prefix_rfl, List.prefix_rfl⟩
    · refine ⟨hout, ?_⟩
      rw [← hhanded]
      exact handed_begins hwrites
  rcases h with hout | hhanded'
  · exact hout.trans (hwritten.1.trans hfaultless)
  · exact hhanded'.trans (hwritten.2.trans hfaultless)

end EcFtp
