/-
The threads of one batch of `uncomp_file`, and the use of their work.  A batch
of records ends as the outcome of the records says; a batch with a thread that
is to read past the end of the file returns `-1`.
-/
import EcFtp.CompChunks

namespace EcFtp

open ByteStrings Exec

/-- No call of `fwrite` so far was handed more bytes than its block holds. -/
def AllBounded (ws : List (Buffer × Nat)) : Prop := ∀ w ∈ ws, w.2 ≤ w.1.length

theorem allBounded_append {ws : List (Buffer × Nat)} {w : Buffer × Nat}
    (hws : AllBounded ws) (hw : w.2 ≤ w.1.length) : AllBounded (ws ++ [w]) := by
  intro v hv
  rcases List.mem_append.mp hv with hold | hnew
  · exact hws v hold
  · exact List.mem_singleton.mp hnew ▸ hw

theorem slice_drop (xs : Bytes) (pos off len : Nat) :
    slice (xs.drop pos) off len = slice xs (pos + off) len := by
  rw [slice, slice, List.drop_drop]

section Workers

variable {lzma : Lzma} {env : Env} {data : Bytes} {b t : Nat}
  {arg : CompThreadArgs} {r : Record}

/-- The worker of thread `t` of batch `b`. -/
def uncompWork (lzma : Lzma) (env : Env) (b t : Nat) :
    CompThreadArgs → Option CompThreadArgs :=
  uncompressChunkOfFile lzma (env.fails (.freadProps b t))
    (env.fails (.freadInput b t)) (env.fails (.lzma b t))

/-- A slot whose thread is to read the body of the record `r`. -/
def ReadsRecord (data : Bytes) (arg : CompThreadArgs) (r : Record) : Prop :=
  ∃ pos, arg = uncompSlot r.header ⟨data, pos, false⟩ ∧
    slice data pos r.header.numPropsBytes = r.props ∧
    slice data (pos + r.header.numPropsBytes) r.header.procSize = r.data

/-- A slot whose thread is to read past the end of the file. -/
def ReadsShort (data : Bytes) (arg : CompThreadArgs) : Prop :=
  ∃ h pos, arg = uncompSlot h ⟨data, pos, false⟩ ∧
    data.length < pos + h.bodySize ∧ pos ≤ data.length

/-- A slot as the first stage fills it in. -/
def IsSlot (arg : CompThreadArgs) : Prop := ∃ h f, arg = uncompSlot h f

theorem uncompWork_isSlot (h : IsSlot arg) :
    ∃ a, uncompWork lzma env b t arg = some a ∧
      (a.returnVal = some 0 ∨ a.returnVal = some (-1)) := by
  obtain ⟨h, f, rfl⟩ := h
  obtain ⟨a, ha, hcases⟩ := @uncompressChunk_cases lzma h f
    (env.fails (.freadProps b t)) (env.fails (.freadInput b t))
    (env.fails (.lzma b t))
  exact ⟨a, ha, hcases.imp And.left And.left⟩

theorem uncompWork_readsShort (h : ReadsShort data arg) :
    ∃ a, uncompWork lzma env b t arg = some a ∧ a.returnVal = some (-1) := by
  obtain ⟨h, pos, rfl, hend, hpos⟩ := h
  obtain ⟨a, ha, ⟨_, ⟨hprops, hdata⟩, _⟩ | ⟨hval, _⟩⟩ :=
    @uncompressChunk_cases lzma h ⟨data, pos, false⟩
      (env.fails (.freadProps b t)) (env.fails (.freadInput b t))
      (env.fails (.lzma b t))
  · simp only [length_slice] at hprops hdata
    unfold EcHeader.bodySize at hend
    omega
  · exact ⟨a, ha, hval⟩

/-- The thread of a record leaves what the record stands for; it returns `-1`
when a library call fails or LZMA finds the data wrong. -/
theorem uncompWork_readsRecord (h : ReadsRecord data arg r) :
    ∃ a, uncompWork lzma env b t arg = some a ∧
      (a.returnVal = some 0 ∧ r.Works lzma ∧
          Uncompressed lzma r.header r.props r.data a ∨
        a.returnVal = some (-1) ∧ (env.Faulty ∨ ¬ r.Works lzma)) := by
  obtain ⟨pos, rfl, hprops, hdata⟩ := h
  obtain ⟨a, ha, hcases⟩ := @uncompressChunk_cases lzma r.header
    ⟨data, pos, false⟩ (env.fails (.freadProps b t))
    (env.fails (.freadInput b t)) (env.fails (.lzma b t))
  unfold UncompressEnds at hcases
  rw [hprops, hdata] at hcases
  refine ⟨a, ha, hcases.imp ?_ ?_⟩
  · rintro ⟨hval, _, hdone⟩
    refine ⟨hval, ?_, hdone⟩
    unfold Record.Works Record.plain
    unfold Uncompressed at hdone
    split at hdone
    · rename_i hcomp
      obtain ⟨plain, hplain, _⟩ := hdone
      rw [if_pos hcomp, hplain]
      exact Option.some_ne_none plain
    · rename_i hraw
      rw [if_neg hraw]
      exact Option.some_ne_none _
  · rintro ⟨hval, hwhy⟩
    refine ⟨hval, ?_⟩
    have hlenProps := r.length_props
    have hlenData := r.length_data
    rcases hwhy with (hfails | hfails | hfails) | hshort | hshort | ⟨hcomp, hnone⟩
    · exact .inl ⟨_, hfails⟩
    · exact .inl ⟨_, hfails⟩
    · exact .inl ⟨_, hfails⟩
    · omega
    · omega
    · right
      rw [Record.Works, Record.plain, if_pos hcomp]
      exact not_not_intro hnone

end Workers

section Use

variable {lzma : Lzma} {env : Env} {b t : Nat} {a : CompThreadArgs} {r : Record}
  {E : Exit → IoState → Prop} {o : Bytes}

/-- The call of `fwrite` for a record, from the block it is handed. -/
theorem triple_useUncompWork_of {buf : Buffer} (hout : a.outbuf = some buf)
    {bs : Bytes} (hpos : 0 < a.outbufLen)
    (hload : buf.load 0 a.outbufLen = some bs)
    (hfault : env.Faulty → ∀ s, E (.ret (-1)) s) :
    Triple (OutIs o AllBounded) (useUncompWork env b t a)
      (fun _ => OutIs (o ++ bs) AllBounded) E := by
  obtain ⟨hfit, _⟩ := load_eq_some hload
  simp only [useUncompWork, hout]
  refine Triple.bind (triple_fwriteItem hpos hload
    (fun ws hws => allBounded_append hws (by simpa using hfit))
    fun hfails s _ => hfault ⟨_, hfails⟩ s) fun _ => ?_
  exact triple_emit logFree_outIs _

/-- What `fwrite` finds in the block a worker left. -/
theorem Uncompressed.load (ha : Uncompressed lzma r.header r.props r.data a) :
    ∃ plain buf, r.plain lzma = some plain ∧ a.outbuf = some buf ∧
      (¬ r.OverReads →
        a.outbufLen = plain.length ∧ buf.load 0 a.outbufLen = some plain) ∧
      (r.OverReads → 0 < a.outbufLen ∧ buf.load 0 a.outbufLen = none) := by
  unfold Uncompressed at ha
  unfold Record.plain Record.OverReads
  have hdata := r.length_data
  split at ha
  · rename_i hcomp
    obtain ⟨plain, hplain, hout, hlen⟩ := ha
    refine ⟨plain, _, by rw [if_pos hcomp, hplain], hout, ?_, ?_⟩
    · intro _
      rw [hlen]
      refine ⟨rfl, ?_⟩
      rw [load_filled (by omega), slice_zero_eq_take, List.take_length]
    · rintro ⟨hraw, _⟩
      rw [hcomp] at hraw
      cases hraw
  · rename_i hraw
    obtain ⟨hout, hlen⟩ := ha
    refine ⟨_, _, by rw [if_neg hraw], hout, ?_, ?_⟩
    · intro hreads
      have hle : r.header.origSize ≤ r.header.procSize := by
        by_contra hgt
        exact hreads ⟨by simpa using hraw, by omega⟩
      rw [hlen]
      refine ⟨by rw [List.length_take]; omega, ?_⟩
      rw [load_filled (by omega), slice_zero_eq_take]
    · rintro ⟨_, hlt⟩
      rw [hlen]
      exact ⟨by omega, load_filled_eq_none (by omega)⟩

/-- What is written for a record is what its outcome says. -/
theorem triple_useUncompWork
    (ha : Uncompressed lzma r.header r.props r.data a)
    (hfault : env.Faulty → ∀ s, E (.ret (-1)) s)
    (hrefused : r.write lzma = .refused → ∀ s, E (.ret (-1)) s)
    (hundef : r.write lzma = .undefined → ∀ s, E .undefined s) :
    Triple (OutIs o AllBounded) (useUncompWork env b t a)
      (fun _ s => ∃ bs, r.write lzma = .wrote bs ∧
        OutIs (o ++ bs) AllBounded s) E := by
  obtain ⟨plain, buf, hplain, hout, hgood, hbad⟩ := ha.load
  by_cases hreads : r.OverReads
  · obtain ⟨hpos, hload⟩ := hbad hreads
    simp only [useUncompWork, hout]
    refine Triple.bind_stop (triple_fwriteItem_undefined hpos hload ?_)
    exact hundef (write_eq_undefined.mpr hreads)
  · obtain ⟨hlen, hload⟩ := hgood hreads
    by_cases hempty : plain = []
    · have hwrite : r.write lzma = .refused := by
        rw [Record.write, if_neg hreads, hplain, hempty]
      simp only [useUncompWork, hout]
      refine Triple.bind_stop ?_
      rw [hlen, hempty]
      exact triple_fwriteItem_empty (hrefused hwrite)
    · have hwrite := write_of_usable ⟨hreads, plain, hempty, hplain⟩
      rw [hplain] at hwrite
      have hpos := List.length_pos_iff.mpr hempty
      exact (triple_useUncompWork_of hout (by omega) hload hfault).post
        fun _ s hs => ⟨plain, hwrite, hs⟩

/-- The records of a batch, written one after the other. -/
theorem writeAll_append (rs more : List Record) : writeAll lzma (rs ++ more) =
    (writeAll lzma rs).andThen (writeAll lzma more) := by
  induction rs with
  | nil => cases h : writeAll lzma more <;> simp [writeAll, Outcome.andThen, h]
  | cons r rs ih =>
      rw [List.cons_append, writeAll, writeAll, ih]
      cases r.write lzma <;> cases writeAll lzma rs <;>
        cases writeAll lzma more <;> simp [Outcome.andThen]

end Use

section Batch

variable {lzma : Lzma} {env : Env} {data : Bytes} {b : Nat}
  {args : List CompThreadArgs} {rs : List Record} {E : Exit → IoState → Prop}
  {o : Bytes}

theorem map_range_getD {σ : Type} (xs : List σ) (x : σ) :
    (List.range xs.length).map (fun t => xs.getD t x) = xs := by
  apply List.ext_getElem
  · simp
  · intro t _ ht
    simp [List.getD_eq_getElem?_getD, ht]

theorem batchOutcome_of_not_works {r : Record} (hr : r ∈ rs)
    (h : ¬ r.Works lzma) : batchOutcome lzma rs = .refused := by
  rw [batchOutcome, if_neg]
  intro hall
  exact h (all_works_iff.mp hall r hr)

theorem runUncompThreads_eq (hne : args ≠ []) :
    runUncompThreads lzma env b args = (do
      let ran ← runThreads env (uncompWork lzma env b) CompThreadArgs.returnVal
        b args
      useThreads (useUncompWork env b) args.length ran) := by
  obtain ⟨arg, args, rfl⟩ := List.exists_cons_of_ne_nil hne
  rfl

/-- A batch with a thread that is to read past the end of the file returns
`-1`. -/
theorem triple_runUncompThreads_short {P : IoState → Prop} (hP : LogFree P)
    {Q : PUnit → IoState → Prop} (hslots : ∀ arg ∈ args, IsSlot arg)
    (hshort : ∃ arg ∈ args, ReadsShort data arg)
    (hret : ∀ s, E (.ret (-1)) s) :
    Triple P (runUncompThreads lzma env b args) Q E := by
  obtain ⟨short, hmem, hread⟩ := hshort
  obtain ⟨t, ht, hget⟩ := List.getElem_of_mem hmem
  have hslot := fun k (hk : k < args.length) =>
    hslots (args.getD k short) (by simp [List.getD_eq_getElem?_getD, hk])
  rw [runUncompThreads_eq (List.ne_nil_of_mem hmem)]
  refine Triple.bind_stop ?_
  have hrun := @triple_runThreads _ env E P (uncompWork lzma env b)
    CompThreadArgs.returnVal (fun k => args.getD k short) args.length b hP
    (fun _ => hret) (by omega) fun k hk => by
      obtain ⟨a, ha, hval⟩ := @uncompWork_isSlot lzma env b k _ (hslot k hk)
      rw [ha]
      rcases hval with hzero | hfail
      · exact .inl hzero
      · exact .inr ⟨-1, hfail, by decide, hret⟩
  rw [map_range_getD] at hrun
  refine hrun.post ?_
  rintro ran s ⟨hworked, _⟩
  obtain ⟨a, _, hsome, hzero⟩ := hworked t ht
  have hshort : args.getD t short = short := by
    simp [List.getD_eq_getElem?_getD, ht, hget]
  obtain ⟨a', ha', hfail⟩ := @uncompWork_readsShort lzma env data b t _ hread
  rw [hshort, ha'] at hsome
  obtain rfl := Option.some.inj hsome
  cases hzero.symm.trans hfail

/-- The slots of the threads, one for each record of the batch. -/
def SlotsOf (data : Bytes) (args : List CompThreadArgs) (rs : List Record) :
    Prop :=
  List.Forall₂ (ReadsRecord data) args rs

theorem SlotsOf.getD (h : SlotsOf data args rs) {k : Nat} (hk : k < rs.length)
    (arg : CompThreadArgs) : ReadsRecord data (args.getD k arg) rs[k] := by
  have hlen := h.length_eq
  have hread := (List.forall₂_iff_get.mp h).2 k (by omega) hk
  simpa [List.getD_eq_getElem?_getD, hlen ▸ hk] using hread

/-- What the threads of a batch leave when all of them return zero. -/
def BatchDone (lzma : Lzma) (rs : List Record) (ran : List CompThreadArgs) :
    Prop :=
  ∀ k (hk : k < rs.length), ∃ a, ran[k]? = some a ∧
    Uncompressed lzma rs[k].header rs[k].props rs[k].data a

/-- The threads of a batch of records. -/
theorem triple_runThreads_records (hargs : SlotsOf data args rs)
    {P : IoState → Prop} (hP : LogFree P) (hne : args ≠ [])
    (hfault : env.Faulty → ∀ s, E (.ret (-1)) s)
    (hrefused : batchOutcome lzma rs = .refused → ∀ s, E (.ret (-1)) s) :
    Triple P (runThreads env (uncompWork lzma env b) CompThreadArgs.returnVal b
        args)
      (fun ran s => ((∀ r ∈ rs, r.Works lzma) ∧ BatchDone lzma rs ran) ∧ P s)
      E := by
  obtain ⟨arg, hmem⟩ := List.exists_mem_of_ne_nil args hne
  have hpos := List.length_pos_iff.mpr hne
  have hlen : args.length = rs.length := hargs.length_eq
  have hrun := @triple_runThreads _ env E P (uncompWork lzma env b)
    CompThreadArgs.returnVal (fun k => args.getD k arg) args.length b hP hfault
    hpos fun k hk => by
      obtain ⟨a, ha, ⟨hzero, _⟩ | ⟨hfail, hwhy⟩⟩ :=
        @uncompWork_readsRecord lzma env data b k _ _
          (hargs.getD (hlen ▸ hk) arg)
      · rw [ha]
        exact .inl hzero
      · rw [ha]
        refine .inr ⟨-1, hfail, by decide, ?_⟩
        rcases hwhy with hfaulty | hbroken
        · exact hfault hfaulty
        · exact hrefused (batchOutcome_of_not_works
            (List.getElem_mem (hlen ▸ hk)) hbroken)
  rw [map_range_getD] at hrun
  refine hrun.post ?_
  rintro ran s ⟨hworked, hs⟩
  have hdone : ∀ k (hk : k < rs.length), rs[k].Works lzma ∧
      ∃ a, ran[k]? = some a ∧
        Uncompressed lzma rs[k].header rs[k].props rs[k].data a := by
    intro k hk
    obtain ⟨a, hget, hsome, hzero⟩ := hworked k (hlen ▸ hk)
    obtain ⟨a', ha', ⟨_, hworks, hleft⟩ | ⟨hfail, _⟩⟩ :=
      @uncompWork_readsRecord lzma env data b k _ _ (hargs.getD hk arg)
    · obtain rfl := Option.some.inj (hsome.symm.trans ha')
      exact ⟨hworks, a, hget, hleft⟩
    · obtain rfl := Option.some.inj (hsome.symm.trans ha')
      cases hzero.symm.trans hfail
  refine ⟨⟨fun r hr => ?_, fun k hk => (hdone k hk).2⟩, hs⟩
  obtain ⟨k, hk, rfl⟩ := List.getElem_of_mem hr
  exact (hdone k hk).1

/-- The output after the first `k` records of a batch. -/
def BatchWritten (lzma : Lzma) (o : Bytes) (rs : List Record) (k : Nat)
    (s : IoState) : Prop :=
  ∃ out, writeAll lzma (rs.take k) = .wrote out ∧ OutIs (o ++ out) AllBounded s

theorem writeAll_split {k : Nat} (hk : k < rs.length) :
    writeAll lzma rs = (writeAll lzma (rs.take k)).andThen
      ((rs[k].write lzma).andThen (writeAll lzma (rs.drop (k + 1)))) := by
  rw [← writeAll, ← List.drop_eq_getElem_cons hk, ← writeAll_append,
    List.take_append_drop]

/-- The use of the work of one record of a batch. -/
theorem triple_useRecord {k : Nat} (hk : k < rs.length) {a : CompThreadArgs}
    (ha : Uncompressed lzma rs[k].header rs[k].props rs[k].data a)
    (hfault : env.Faulty → ∀ s, E (.ret (-1)) s)
    (hrefused : writeAll lzma rs = .refused → ∀ s, E (.ret (-1)) s)
    (hundef : writeAll lzma rs = .undefined → ∀ s, E .undefined s) :
    Triple (BatchWritten lzma o rs k) (useUncompWork env b k a)
      (fun _ => BatchWritten lzma o rs (k + 1)) E := by
  refine Triple.exists fun out => Triple.assume fun hout => ?_
  have hsplit := @writeAll_split lzma rs k hk
  rw [hout] at hsplit
  refine (triple_useUncompWork ha hfault (fun hwrite => hrefused ?_)
    fun hwrite => hundef ?_).post ?_
  · rw [hsplit, hwrite]
    rfl
  · rw [hsplit, hwrite]
    rfl
  · rintro _ s ⟨bs, hwrite, hs⟩
    refine ⟨out ++ bs, ?_, ?_⟩
    · rw [List.take_succ_eq_append_getElem hk, writeAll_append, hout, writeAll,
        hwrite]
      simp [writeAll, Outcome.andThen]
    · rw [← List.append_assoc]
      exact hs

/-- One batch of records ends as its outcome says. -/
theorem triple_runUncompThreads (hargs : SlotsOf data args rs) (hne : rs ≠ [])
    (hfault : env.Faulty → ∀ s, E (.ret (-1)) s)
    (hrefused : batchOutcome lzma rs = .refused → ∀ s, E (.ret (-1)) s)
    (hundef : batchOutcome lzma rs = .undefined → ∀ s, E .undefined s) :
    Triple (OutIs o AllBounded) (runUncompThreads lzma env b args)
      (fun _ s => ∃ out, batchOutcome lzma rs = .wrote out ∧
        OutIs (o ++ out) AllBounded s) E := by
  have hlen : args.length = rs.length := hargs.length_eq
  have hpos := List.length_pos_iff.mpr hne
  have hargsNe : args ≠ [] := List.length_pos_iff.mp (by omega)
  rw [runUncompThreads_eq hargsNe]
  refine Triple.bind (triple_runThreads_records hargs logFree_outIs hargsNe
    hfault hrefused) fun ran => ?_
  refine Triple.assume fun hran => ?_
  obtain ⟨hworks, hdone⟩ := hran
  have hbatch : batchOutcome lzma rs = writeAll lzma rs := by
    rw [batchOutcome, if_pos (all_works_iff.mpr hworks)]
  rw [hbatch] at hrefused hundef ⊢
  refine Triple.conseq (Triple.forM_range (BatchWritten lzma o rs) ?_) ?_ ?_
    (fun _ _ he => he)
  · intro k hk
    obtain ⟨a, hget, ha⟩ := hdone k (hlen ▸ hk)
    rw [hget]
    exact triple_useRecord (hlen ▸ hk) ha hfault hrefused hundef
  · intro s hs
    refine ⟨[], rfl, ?_⟩
    rw [List.append_nil]
    exact hs
  · rintro _ s ⟨out, hout, hs⟩
    rw [hlen, List.take_length] at hout
    exact ⟨out, hout, hs⟩

end Batch

end EcFtp
