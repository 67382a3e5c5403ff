/-
`comp_file` on a whole file.  It writes one record for each chunk of a file whose
last thread has something to read; every other length ends in an empty item, in
a table too short, or in no batch at all.
-/
import EcFtp.CompChunks

namespace EcFtp

open ByteStrings Exec

/-- `c` is made of the records of these chunks. -/
def Holds (lzma : Lzma) (c : Bytes) (chunks : List Bytes) : Prop :=
  ∃ rs, List.Forall₂ (Packs lzma) chunks rs ∧ c = rs.flatMap Record.bytes

/-- A container of `x`: the records of chunks that make up `x`, none of them
empty. -/
def Describes (lzma : Lzma) (c x : Bytes) : Prop :=
  ∃ chunks, chunks.flatten = x ∧ [] ∉ chunks ∧ Holds lzma c chunks

section Containers

variable {lzma : Lzma} {c x chunk : Bytes} {chunks : List Bytes} {r : Record}

theorem holds_nil (lzma : Lzma) : Holds lzma [] [] := ⟨[], .nil, rfl⟩

/-- One more chunk and its record. -/
theorem Holds.append (h : Holds lzma c chunks) (hr : Packs lzma chunk r) :
    Holds lzma (c ++ r.bytes) (chunks ++ [chunk]) := by
  obtain ⟨rs, hpacks, rfl⟩ := h
  refine ⟨rs ++ [r], List.rel_append hpacks (.cons hr .nil), ?_⟩
  rw [List.flatMap_append, List.flatMap_singleton]

/-- Only the empty file has an empty container. -/
theorem Describes.eq_nil (h : Describes lzma [] x) : x = [] := by
  obtain ⟨chunks, rfl, _, rs, hpacks, hbytes⟩ := h
  cases hpacks with
  | nil => rfl
  | @cons chunk r chunks rs hr hrest =>
      have hlen := congrArg List.length hbytes
      rw [List.flatMap_cons, List.length_append, length_recordBytes,
        List.length_nil, ecHeaderSize] at hlen
      omega

end Containers

/-- The output file is made of the records of these chunks. -/
def Contained (lzma : Lzma) (chunks : List Bytes) (s : IoState) : Prop :=
  ∃ c, Holds lzma c chunks ∧ Written c s

theorem logFree_contained {lzma : Lzma} {chunks : List Bytes} :
    LogFree (Contained lzma chunks) := fun _ _ hs => hs

section Writing

variable {lzma : Lzma} {env : Env} {E : Exit → IoState → Prop} {o : Bytes}
  {b t : Nat} {a : CompThreadArgs} {chunk props data : Bytes}

theorem triple_fwriteField {fails : Bool} {field : Bytes} {code : Int}
    {next : Prog Int} {Q : Int → IoState → Prop} (hne : field ≠ [])
    (hfail : fails = true → ∀ s, Q code s)
    (hnext : Triple (Written (o ++ field)) next Q E) :
    Triple (Written o) (fwriteField fails field code next) Q E := by
  have hpos := List.length_pos_iff.mpr hne
  refine Triple.bind (triple_fwrite hpos (load_filled_all field 0)) fun n => ?_
  refine Triple.ite (fun hn => Triple.pure fun s hs => ?_) fun hn => ?_
  · obtain ⟨hone, _⟩ | ⟨_, hfails⟩ := hs
    · exact absurd hone hn
    · exact hfail hfails s
  · refine hnext.pre fun s hs => ?_
    obtain ⟨_, hs⟩ | ⟨hne, _⟩ := hs
    · exact hs
    · exact absurd hne hn

/-- The header is written, or one of the three writes fails. -/
theorem triple_writeEcHeader (fails : Nat → Bool) (h : EcHeader) :
    Triple (Written o) (writeEcHeader fails h)
      (fun res s => res = 0 ∧ Written (o ++ h.bytes) s ∨
        res ≠ 0 ∧ ∃ field, fails field = true) E := by
  have hne : ∀ n, le 8 n ≠ [] := fun n => by simp [le]
  refine triple_fwriteField (by simp [le]) (fun hfails s =>
    .inr ⟨by decide, 0, hfails⟩) ?_
  refine triple_fwriteField (hne _) (fun hfails s =>
    .inr ⟨by decide, 1, hfails⟩) ?_
  refine triple_fwriteField (hne _) (fun hfails s =>
    .inr ⟨by decide, 2, hfails⟩) ?_
  refine Triple.pure fun s hs => .inl ⟨rfl, ?_⟩
  simpa [EcHeader.bytes] using hs

/-- The record of a slot, from what follows its header. -/
theorem triple_writeRecord {outbuf : Buffer} {h : EcHeader} {R : IoState → Prop}
    (hR : LogFree R) (hfault : env.Faulty → ∀ s, E (.ret (-1)) s)
    (hchunk : Triple (Written (o ++ h.bytes)) (writeChunk env b t a outbuf)
      (fun _ => R) E) :
    Triple (Written o) (writeRecord env b t a h outbuf) (fun _ => R) E := by
  refine Triple.bind (triple_writeEcHeader _ h) fun res => ?_
  refine Triple.bind (R := fun _ => Written (o ++ h.bytes)) ?_ fun _ =>
    Triple.bind hchunk fun _ => triple_emit hR _
  refine Triple.exitIf (fun hres s hs => ?_) fun hres s hs => ?_
  · obtain ⟨hzero, _⟩ | ⟨_, field, hfails⟩ := hs
    · rw [hzero] at hres
      cases hres
    · exact hfault ⟨_, hfails⟩ s
  · obtain ⟨_, hs⟩ | ⟨hne, _⟩ := hs
    · exact hs
    · exact absurd hres (by simpa using hne)

theorem useCompWork_eq (ha : Compressed lzma chunk a props data) :
    useCompWork env b t a = writeRecord env b t a a.prepareHeader
      (filled data (roomFor chunk.length - data.length)) := by
  simp only [useCompWork, ha.echeader, ha.outbuf]

/-- What follows the header of a chunk that is stored raw. -/
theorem triple_writeChunk_raw (ha : Compressed lzma chunk a props data)
    (hraw : a.storedRaw = true) (hne : chunk ≠ [])
    (hfault : env.Faulty → ∀ s, E (.ret (-1)) s) (outbuf : Buffer) :
    Triple (Written o) (writeChunk env b t a outbuf)
      (fun _ => Written (o ++ chunk)) E := by
  rw [writeChunk, if_pos hraw, ha.inbuf, ha.irReadlen]
  exact triple_write (List.length_pos_iff.mpr hne) (load_filled_all chunk 0)
    fun hfails s => hfault ⟨_, hfails⟩ s

/-- What follows the header of a chunk that is stored compressed. -/
theorem triple_writeChunk_compressed (ha : Compressed lzma chunk a props data)
    (hraw : a.storedRaw = false) (hfault : env.Faulty → ∀ s, E (.ret (-1)) s) :
    Triple (Written o) (writeChunk env b t a
        (filled data (roomFor chunk.length - data.length)))
      (fun _ => Written (o ++ props ++ data)) E := by
  have hprops := lzma.length_props ha.compress
  have hdata := List.length_pos_iff.mpr (lzma.data_ne_nil ha.compress)
  rw [writeChunk, if_neg (by rw [hraw]; decide), ha.propsBuf, ha.propsLen,
    ha.outbufLen]
  refine Triple.bind (triple_write (by omega) (load_filled_all props 0)
    fun hfails s => hfault ⟨_, hfails⟩ s) fun _ => ?_
  exact triple_write hdata (load_filled_all data _)
    fun hfails s => hfault ⟨_, hfails⟩ s

/-- The record of a chunk is appended to the container. -/
theorem triple_useCompWork (ha : Compressed lzma chunk a props data)
    (hlen : chunk.length < 2 ^ 63) (hne : chunk ≠ [])
    (hfault : env.Faulty → ∀ s, E (.ret (-1)) s) (chunks : List Bytes) :
    Triple (Contained lzma chunks) (useCompWork env b t a)
      (fun _ => Contained lzma (chunks ++ [chunk])) E := by
  refine Triple.exists fun c => Triple.assume fun hc => ?_
  rw [useCompWork_eq ha]
  refine triple_writeRecord logFree_contained hfault ?_
  have hstored := ha.storedRaw hlen
  by_cases hle : chunk.length ≤ props.length + data.length
  · rw [decide_eq_true hle] at hstored
    have hheader : a.prepareHeader = (rawRecord chunk).header := by
      rw [CompThreadArgs.prepareHeader, if_pos hstored, ha.irReadlen]
      rfl
    rw [hheader]
    refine (triple_writeChunk_raw ha hstored hne hfault _).post fun _ s hs => ?_
    refine ⟨c ++ (rawRecord chunk).bytes, hc.append (.raw ha.compress hle), ?_⟩
    simpa [Record.bytes, rawRecord] using hs
  · rw [decide_eq_false hle] at hstored
    have hheader : a.prepareHeader = (lzmaRecord ha.compress).header := by
      rw [CompThreadArgs.prepareHeader, if_neg (by rw [hstored]; decide),
        ha.irReadlen, ha.outbufLen]
      rfl
    rw [hheader]
    refine (triple_writeChunk_compressed ha hstored hfault).post fun _ s hs => ?_
    refine ⟨c ++ (lzmaRecord ha.compress).bytes,
      hc.append (.compressed ha.compress (by omega)), ?_⟩
    simpa [Record.bytes, lzmaRecord] using hs

/-- An empty chunk hands `fwrite` an empty item. -/
theorem triple_useCompWork_empty (ha : Compressed lzma [] a props data)
    (hfault : env.Faulty → ∀ s, E (.ret (-1)) s) (hexit : ∀ s, E (.ret (-1)) s)
    {chunks : List Bytes} {R : IoState → Prop} (hR : LogFree R) :
    Triple (Contained lzma chunks) (useCompWork env b t a) (fun _ => R) E := by
  refine Triple.exists fun c => Triple.assume fun _ => ?_
  have hstored := ha.storedRaw (by decide)
  rw [useCompWork_eq ha]
  refine triple_writeRecord hR hfault ?_
  rw [writeChunk, if_pos (by rw [hstored]; simp), ha.irReadlen]
  exact triple_fwriteItem_empty hexit

end Writing

/-- The first `k` chunks of `len` bytes. -/
def wholeChunks (len : Nat) (x : Bytes) (k : Nat) : List Bytes :=
  (List.range k).map fun i => slice x (len * i) len

/-- The chunks of a file: whole ones, and what is left to the last thread. -/
def fileChunks (p : ValidPlan) (x : Bytes) : List Bytes :=
  wholeChunks p.threadMaxMem x ((x.length - p.lastLen x.length) / p.threadMaxMem) ++
    [x.drop (x.length - p.lastLen x.length)]

section Chunks

variable {p : ValidPlan} {x : Bytes} {len k b t : Nat}

theorem wholeChunks_succ (len : Nat) (x : Bytes) (k : Nat) :
    wholeChunks len x (k + 1) = wholeChunks len x k ++ [slice x (len * k) len] := by
  simp [wholeChunks, List.range_succ]

theorem flatten_wholeChunks (len : Nat) (x : Bytes) (k : Nat) :
    (wholeChunks len x k).flatten = x.take (len * k) := by
  induction k with
  | zero => simp [wholeChunks]
  | succ k ih =>
      rw [wholeChunks_succ, List.flatten_append, ih, List.flatten_singleton,
        take_append_slice, Nat.mul_succ]

theorem nil_not_mem_wholeChunks (hlen : 0 < len) (hk : len * k ≤ x.length) :
    [] ∉ wholeChunks len x k := by
  intro hmem
  obtain ⟨i, hi, hnil⟩ := List.mem_map.mp hmem
  have hle := Nat.mul_le_mul_left len (Nat.succ_le_of_lt (List.mem_range.mp hi))
  have hchunk := @length_slice_of_le _ x (len * i) len (by
    rw [Nat.mul_succ] at hle
    omega)
  rw [hnil, List.length_nil] at hchunk
  omega

theorem offset_eq_mul (p : ValidPlan) (b t : Nat) :
    p.offset b t = p.threadMaxMem * (b * p.maxThreads + t) := by
  unfold ValidPlan.offset ThreadPlan.maxBytesPerBatch
  rw [Nat.mul_add, Nat.mul_left_comm, Nat.mul_comm t]

/-- The chunks up to the one of a thread that reads a whole one. -/
theorem wholeChunks_offset (p : ValidPlan) (x : Bytes) (b t : Nat) :
    wholeChunks p.threadMaxMem x
        ((p.offset b t + p.threadMaxMem) / p.threadMaxMem) =
      wholeChunks p.threadMaxMem x (p.offset b t / p.threadMaxMem) ++
        [slice x (p.offset b t) p.threadMaxMem] := by
  have hmul := offset_eq_mul p b t
  rw [Nat.add_div_right _ p.threadMaxMem_pos, wholeChunks_succ, hmul,
    Nat.mul_div_cancel_left _ p.threadMaxMem_pos]

/-- The chunks up to the one of the last thread. -/
theorem fileChunks_offset (hne : x.length ≠ p.maxBytesPerBatch)
    (hlast : p.Last x.length b t) :
    fileChunks p x =
      wholeChunks p.threadMaxMem x (p.offset b t / p.threadMaxMem) ++
        [slice x (p.offset b t) (p.lastLen x.length)] := by
  have hoff := p.offset_of_last hne hlast
  have hstart : x.length - p.lastLen x.length = p.offset b t := by omega
  rw [fileChunks, hstart, slice, List.take_of_length_le]
  rw [List.length_drop]
  omega

/-- The chunks make up the file, and none of them is empty. -/
theorem fileChunks_spec (hne : x.length ≠ p.maxBytesPerBatch)
    (hnb : 0 < p.numBatches x.length) (hpos : 0 < p.lastLen x.length) :
    (fileChunks p x).flatten = x ∧ [] ∉ fileChunks p x := by
  have hlast : p.Last x.length (p.numBatches x.length - 1)
      (p.lastThreads x.length - 1) :=
    ⟨by omega, Nat.succ_pred_eq_of_pos (Nat.succ_pos _)⟩
  have hoff := p.offset_of_last hne hlast
  have hmul : p.threadMaxMem * (p.offset (p.numBatches x.length - 1)
      (p.lastThreads x.length - 1) / p.threadMaxMem) =
      p.offset (p.numBatches x.length - 1) (p.lastThreads x.length - 1) := by
    rw [offset_eq_mul, Nat.mul_div_cancel_left _ p.threadMaxMem_pos]
  rw [fileChunks_offset hne hlast]
  constructor
  · rw [List.flatten_append, flatten_wholeChunks, hmul, List.flatten_singleton,
      take_append_slice, hoff, List.take_length]
  · rw [List.mem_append, List.mem_singleton, not_or]
    refine ⟨nil_not_mem_wholeChunks p.threadMaxMem_pos (by omega), fun hnil => ?_⟩
    have hlen := @length_slice_of_le _ x _ _ (Nat.le_of_eq hoff)
    rw [← hnil, List.length_nil] at hlen
    omega

end Chunks

section Threads

variable {p : ValidPlan} {lzma : Lzma} {env : Env} {E : Exit → IoState → Prop}
  {data : Bytes} {b t : Nat} {a : CompThreadArgs}

/-- What the container holds when the first `off` bytes are done. -/
abbrev ChunksDone (p : ValidPlan) (lzma : Lzma) (data : Bytes) (off : Nat) :
    IoState → Prop :=
  Contained lzma (wholeChunks p.threadMaxMem data (off / p.threadMaxMem))

theorem chunksDone_zero (p : ValidPlan) (lzma : Lzma) (data : Bytes) :
    ChunksDone p lzma data 0 = Contained lzma [] := by
  rw [ChunksDone, Nat.zero_div]
  rfl

/-- The chunk thread `t` of batch `b` reads. -/
def chunkAt (p : ValidPlan) (data : Bytes) (b t : Nat) : Bytes :=
  slice data (p.offset b t) (p.irReadlen data.length b t)

/-- The slot `comp_file` fills in for thread `t` of batch `b`. -/
def compSlotAt (p : ValidPlan) (data : Bytes) (b t : Nat) : CompThreadArgs :=
  compSlot data (p.offset b t) (p.irReadlen data.length b t)

theorem compCapacity_eq (hn : data.length < 2 ^ 63)
    (hne : data.length ≠ p.maxBytesPerBatch)
    (hthread : p.Full data.length b t ∨ p.Last data.length b t) :
    compCapacity p.toThreadPlan (p.isLast data.length b t)
        (p.irReadlen data.length b t) =
      roomFor (p.irReadlen data.length b t) := by
  obtain ⟨hfit, _⟩ := irReadlen_cases hn hne hthread
  unfold compCapacity roomFor
  split
  · rw [toSizeT_of_nat (by omega)]
  · rename_i hlast
    rcases hthread with hfull | hend
    · rw [p.irReadlen_of_full hn hne hfull]
    · exact absurd (p.isLast_of_last hn hne hend) hlast

theorem triple_setCompArgs {P : IoState → Prop} (hP : LogFree P)
    (hfault : env.Faulty → ∀ s, E (.ret (-1)) s) (stSize : Int) :
    Triple P (setCompArgs p.toThreadPlan env stSize (some data) b t)
      (fun a s => a = { compSlot data (p.offset b t) (p.irReadlen stSize b t) with
        outbuf := some (malloc (compCapacity p.toThreadPlan
          (p.isLast stSize b t) (p.irReadlen stSize b t)))
        outbufLen := compCapacity p.toThreadPlan (p.isLast stSize b t)
          (p.irReadlen stSize b t) } ∧ P s) E := by
  refine Triple.bind (triple_openReader hP hfault _) fun f => ?_
  refine Triple.assume fun hf => ?_
  refine Triple.bind (triple_call hfault _) fun _ => ?_
  refine Triple.bind (triple_call hfault _) fun _ => ?_
  refine Triple.bind (triple_call hfault _) fun _ => ?_
  refine Triple.pure fun s hs => ⟨?_, hs⟩
  rw [hf, p.seekOffset_eq, seekSet_of_nat]
  rfl

/-- `LzmaCompress` fails on one of these chunks in the buffer it is given. -/
def Lzma.Rejects (lzma : Lzma) (chunks : List Bytes) : Prop :=
  ∃ chunk ∈ chunks, lzma.compress (roomFor chunk.length) chunk = none

/-- Every thread reads one of the chunks. -/
theorem chunkAt_mem (hn : data.length < 2 ^ 63)
    (hne : data.length ≠ p.maxBytesPerBatch)
    (hthread : p.Full data.length b t ∨ p.Last data.length b t) :
    chunkAt p data b t ∈ fileChunks p data := by
  rcases hthread with hfull | hlast
  · have hend := p.offset_of_full hne hfull
    have hmul := offset_eq_mul p b t
    rw [chunkAt, p.irReadlen_of_full hn hne hfull, fileChunks]
    refine List.mem_append_left _ (List.mem_map.mpr
      ⟨b * p.maxThreads + t, List.mem_range.mpr ?_, by rw [← hmul]⟩)
    apply (Nat.le_div_iff_mul_le p.threadMaxMem_pos).mpr
    rw [Nat.mul_comm, Nat.mul_succ]
    omega
  · rw [chunkAt, p.irReadlen_of_last hn hne hlast, fileChunks_offset hne hlast]
    exact List.mem_append_right _ (List.mem_singleton_self _)

/-- The threads of `comp_file`: they compress, or return `-1`. -/
theorem compThreadsRun (hn : data.length < 2 ^ 63)
    (hne : data.length ≠ p.maxBytesPerBatch)
    (hfault : env.Faulty → ∀ s, E (.ret (-1)) s)
    (hrejects : lzma.Rejects (fileChunks p data) → ∀ s, E (.ret (-1)) s) :
    ThreadsRun p data.length
      (compJob p.toThreadPlan lzma env data.length (some data))
      (compSlotAt p data) E where
  setArgs b t hthread P hP := by
    have hset := @triple_setCompArgs p env E data b t P hP hfault data.length
    rw [compCapacity_eq hn hne hthread] at hset
    exact hset
  work b t hthread := by
    obtain ⟨hfit, _⟩ := irReadlen_cases hn hne hthread
    obtain ⟨a, ha, hcases⟩ := @compressChunk_cases lzma data (p.offset b t)
      (p.irReadlen data.length b t) (env.fails (.freadInput b t))
      (env.fails (.lzma b t)) hfit
    have hwork : (compJob p.toThreadPlan lzma env data.length (some data)).work
        b t (compSlotAt p data b t) = some a := ha
    rw [hwork]
    rcases hcases with ⟨hzero, _⟩ | ⟨hval, (hfails | hfails) | hnone⟩
    · exact .inl hzero
    · exact .inr ⟨-1, hval, by decide, hfault ⟨_, hfails⟩⟩
    · exact .inr ⟨-1, hval, by decide, hfault ⟨_, hfails⟩⟩
    · refine .inr ⟨-1, hval, by decide, hrejects
        ⟨chunkAt p data b t, chunkAt_mem hn hne hthread, ?_⟩⟩
      rw [chunkAt, length_slice_of_le hfit]
      exact hnone

theorem compWorked (hn : data.length < 2 ^ 63)
    (hne : data.length ≠ p.maxBytesPerBatch)
    (hthread : p.Full data.length b t ∨ p.Last data.length b t)
    (ha : Worked CompThreadArgs.returnVal
      ((compJob p.toThreadPlan lzma env data.length (some data)).work b t
        (compSlotAt p data b t)) a) :
    ∃ props out, Compressed lzma (chunkAt p data b t) a props out := by
  obtain ⟨hfit, _⟩ := irReadlen_cases hn hne hthread
  obtain ⟨a', ha', hcases⟩ := @compressChunk_cases lzma data (p.offset b t)
    (p.irReadlen data.length b t) (env.fails (.freadInput b t))
    (env.fails (.lzma b t)) hfit
  obtain ⟨hsome, hzero⟩ := ha
  obtain rfl : a = a' := Option.some.inj (hsome.symm.trans ha')
  rcases hcases with ⟨_, hgood⟩ | ⟨hval, _⟩
  · exact hgood
  · rw [hzero] at hval
    cases hval

theorem length_chunkAt (hn : data.length < 2 ^ 63)
    (hne : data.length ≠ p.maxBytesPerBatch)
    (hthread : p.Full data.length b t ∨ p.Last data.length b t) :
    (chunkAt p data b t).length = p.irReadlen data.length b t ∧
      (chunkAt p data b t).length < 2 ^ 63 := by
  obtain ⟨hfit, _⟩ := irReadlen_cases hn hne hthread
  rw [chunkAt, length_slice_of_le hfit]
  exact ⟨rfl, by omega⟩

/-- The chunk of a thread is appended to those the container holds. -/
theorem triple_useCompWork_chunk (hn : data.length < 2 ^ 63)
    (hne : data.length ≠ p.maxBytesPerBatch)
    (hfault : env.Faulty → ∀ s, E (.ret (-1)) s)
    (hthread : p.Full data.length b t ∨ p.Last data.length b t)
    (hpos : 0 < p.irReadlen data.length b t)
    (ha : Worked CompThreadArgs.returnVal
      ((compJob p.toThreadPlan lzma env data.length (some data)).work b t
        (compSlotAt p data b t)) a) (chunks : List Bytes) :
    Triple (Contained lzma chunks) (useCompWork env b t a)
      (fun _ => Contained lzma (chunks ++ [chunkAt p data b t])) E := by
  obtain ⟨props, out, hdone⟩ := compWorked hn hne hthread ha
  obtain ⟨hlen, hlt⟩ := length_chunkAt hn hne hthread
  exact triple_useCompWork hdone hlt
    (List.length_pos_iff.mp (by rw [hlen]; exact hpos)) hfault chunks

theorem compFullChunks (hn : data.length < 2 ^ 63)
    (hne : data.length ≠ p.maxBytesPerBatch)
    (hfault : env.Faulty → ∀ s, E (.ret (-1)) s) :
    FullChunksUsed p data.length
      (compJob p.toThreadPlan lzma env data.length (some data))
      (compSlotAt p data) (ChunksDone p lzma data) E := by
  intro b t hfull a ha
  have hlen := p.irReadlen_of_full hn hne hfull
  have hpos := p.threadMaxMem_pos
  have huse := triple_useCompWork_chunk hn hne hfault (.inl hfull) (by omega) ha
    (wholeChunks p.threadMaxMem data (p.offset b t / p.threadMaxMem))
  rw [chunkAt, hlen, ← wholeChunks_offset] at huse
  exact huse

end Threads

section Files

variable {p : ValidPlan} {lzma : Lzma} {env : Env} {x : FileData}
  {E : Exit → IoState → Prop}

/-- The output stream is opened before the batches and closed after them. -/
theorem triple_compFileWith_of {stSize : Int} {input : Option Bytes}
    {P R : IoState → Prop} (hP : LogFree P) (hR : LogFree R)
    (hfault : env.Faulty → ∀ s, E (.ret (-1)) s)
    (hrun : Triple P (runBatches p.toThreadPlan env stSize
      (compJob p.toThreadPlan lzma env stSize input)) (fun _ => R) E) :
    Triple P (compFileWith p.toThreadPlan lzma env stSize input) (fun _ => R)
      E := by
  refine Triple.bind (triple_call hfault _) fun _ => ?_
  refine Triple.bind (triple_emit hP _) fun _ => ?_
  exact Triple.bind hrun fun _ => triple_emit hR _

theorem contained_empty (lzma : Lzma) :
    Contained lzma [] IoState.empty := ⟨[], holds_nil lzma, written_empty⟩

/-- All chunks of the file are held when the last thread has something to
read. -/
theorem triple_compFileWith (hne : x.size ≠ p.maxBytesPerBatch)
    (hnb : (x.size / p.maxBytesPerBatch + 1) % 2 ^ 32 ≠ 0)
    (hpos : 0 < p.lastLen x.size)
    (hfault : env.Faulty → ∀ s, E (.ret (-1)) s)
    (hrejects : lzma.Rejects (fileChunks p x.bytes) → ∀ s, E (.ret (-1)) s) :
    Triple (Contained lzma [])
      (compFileWith p.toThreadPlan lzma env x.size (some x.bytes))
      (fun _ => Contained lzma (fileChunks p x.bytes)) E := by
  refine triple_compFileWith_of logFree_contained logFree_contained hfault ?_
  rw [← chunksDone_zero p lzma x.bytes]
  refine triple_runBatches (ChunksDone p lzma x.bytes)
    (fun _ => logFree_contained) hfault x.length_lt hne
    (numBatches_pos hne hnb) (compThreadsRun x.length_lt hne hfault hrejects)
    (compFullChunks x.length_lt hne hfault) fun b t hlast a ha => ?_
  have hlen := p.irReadlen_of_last x.length_lt hne hlast
  have huse := triple_useCompWork_chunk x.length_lt hne hfault (.inr hlast)
    (by rw [hlen]; exact hpos) ha
    (wholeChunks p.threadMaxMem x.bytes (p.offset b t / p.threadMaxMem))
  rw [chunkAt, hlen, ← fileChunks_offset hne hlast] at huse
  exact huse

/-- A file whose last thread has nothing to read, or no element in the table,
is not compressed. -/
theorem triple_compFileWith_fails
    (hnb : (x.size / p.maxBytesPerBatch + 1) % 2 ^ 32 ≠ 0)
    (hbad : x.size = p.maxBytesPerBatch ∨ p.lastLen x.size = 0) :
    Triple (Contained lzma [])
      (compFileWith p.toThreadPlan lzma env x.size (some x.bytes))
      (fun _ _ => False) NonZero := by
  have hfault : env.Faulty → ∀ s, NonZero (.ret (-1)) s := fun _ => nonZero_ret
  refine triple_compFileWith_of logFree_contained (logFree_const False) hfault ?_
  by_cases hne : x.size = p.maxBytesPerBatch
  · have hsize : (x.size : Int) = p.maxBytesPerBatch := congrArg _ hne
    rw [hsize]
    refine triple_runBatches_overflow nonZero_undefined fun t _ => ?_
    have hset := @triple_setCompArgs p env NonZero x.bytes 0 t (Contained lzma [])
      logFree_contained hfault p.maxBytesPerBatch
    exact hset.post fun _ _ hs => hs.2
  · have hzero := hbad.resolve_left hne
    rw [← chunksDone_zero p lzma x.bytes]
    refine triple_runBatches (R := fun _ => False) (ChunksDone p lzma x.bytes)
      (fun _ => logFree_contained) hfault x.length_lt hne
      (numBatches_pos hne hnb)
      (compThreadsRun x.length_lt hne hfault fun _ => nonZero_ret)
      (compFullChunks x.length_lt hne hfault) fun b t hlast a ha => ?_
    obtain ⟨props, out, hdone⟩ := compWorked x.length_lt hne (.inr hlast) ha
    obtain ⟨hlen, _⟩ := length_chunkAt x.length_lt hne (.inr hlast)
    rw [p.irReadlen_of_last x.length_lt hne hlast, hzero] at hlen
    rw [List.eq_nil_of_length_eq_zero hlen] at hdone
    exact triple_useCompWork_empty hdone hfault nonZero_ret (logFree_const False)

/-- Without a batch nothing is written, and zero is returned. -/
theorem triple_compFileWith_none
    (hnb : (x.size / p.maxBytesPerBatch + 1) % 2 ^ 32 = 0) :
    Triple (Written [])
      (compFileWith p.toThreadPlan lzma env x.size (some x.bytes))
      (fun _ => Written []) (FaultOnly env) := by
  refine triple_compFileWith_of logFree_outIs logFree_outIs faultOnly_ret ?_
  rw [runBatches, numBatches_eq_zero hnb]
  exact Triple.pure fun _ hs => hs

end Files

/-- `comp_file` on a file that exists. -/
def compFileOf (lzma : Lzma) (env : Env) (x : FileData) :
    EStateM.Result Exit IoState PUnit :=
  compFile lzma env x.size (some x.bytes) .empty

/-- The lengths for which the last thread of `comp_file` has something to
read. -/
def LastReads (p : ValidPlan) (n : Nat) : Prop :=
  n % p.threadMaxMem ≠ 0 ∨ 2 ^ 32 ≤ n / p.maxBytesPerBatch

theorem lastReads_iff {p : ValidPlan} {n : Nat}
    (hnb : (n / p.maxBytesPerBatch + 1) % 2 ^ 32 ≠ 0) :
    LastReads p n ↔ n ≠ p.maxBytesPerBatch ∧ 0 < p.lastLen n := by
  constructor
  · rintro (hmod | hbig)
    · refine ⟨ne_maxBytesPerBatch hmod, ?_⟩
      unfold ValidPlan.lastLen
      omega
    · constructor
      · intro heq
        rw [heq, Nat.div_self p.maxBytesPerBatch_pos] at hbig
        omega
      · have hle := @le_lastLen_of_not_fits p n (by omega)
        omega
  · rintro ⟨_, hpos⟩
    by_contra hnot
    obtain ⟨hmod, hbig⟩ := not_or.mp hnot
    have hne : n / p.maxBytesPerBatch + 1 ≠ 2 ^ 32 := by
      intro heq
      rw [heq, Nat.mod_self] at hnb
      exact hnb rfl
    rw [lastLen_of_fits (by omega)] at hpos
    exact hmod (Nat.ne_of_gt hpos)

/-- The returns of `comp_file`: zero comes with the records of all chunks, or with an
empty one when the number of batches was narrowed to zero. -/
theorem compFileOf_zero {lzma : Lzma} {env : Env} {x : FileData}
    (h : exitCode (compFileOf lzma env x) = some 0) :
    (x.size / 64000000 + 1) % 2 ^ 32 ≠ 0 ∧ LastReads compPlan x.size ∧
        Holds lzma (finalState (compFileOf lzma env x)).out
          (fileChunks compPlan x.bytes) ∨
      (x.size / 64000000 + 1) % 2 ^ 32 = 0 ∧
        (finalState (compFileOf lzma env x)).out = [] := by
  by_cases hnb : (x.size / 64000000 + 1) % 2 ^ 32 = 0
  · right
    have hrun := @triple_compFileWith_none compPlan lzma env x hnb
    have hnotRet : ∀ s, ¬ FaultOnly env (.ret 0) s := by
      rintro s ⟨hret, _⟩
      cases hret
    exact ⟨hnb, (exitCode_zero_imp hrun written_empty hnotRet h).1⟩
  · left
    by_cases hreads : LastReads compPlan x.size
    · obtain ⟨hne, hpos⟩ := (@lastReads_iff compPlan x.size hnb).mp hreads
      have hrun := @triple_compFileWith compPlan lzma env x NonZero hne hnb hpos
        (fun _ => nonZero_ret) (fun _ => nonZero_ret)
      obtain ⟨c, hc, hout, _⟩ := exitCode_zero_imp hrun (contained_empty lzma)
        (fun _ hs => hs rfl) h
      refine ⟨hnb, hreads, ?_⟩
      rw [compFileOf, compFile, hout]
      exact hc
    · have hbad : x.size = compPlan.maxBytesPerBatch ∨
          compPlan.lastLen x.size = 0 := by
        by_contra hnot
        obtain ⟨hne, hzero⟩ := not_or.mp hnot
        exact hreads ((lastReads_iff hnb).mpr ⟨hne, Nat.pos_of_ne_zero hzero⟩)
      have hrun := @triple_compFileWith_fails compPlan lzma env x hnb hbad
      exact (exitCode_zero_imp hrun (contained_empty lzma) (fun _ hs => hs rfl)
        h).elim

/-- In an unfailing environment, and with a library that compresses every
chunk, such files are compressed. -/
theorem compFileOf_reliable {lzma : Lzma} {x : FileData}
    (hlzma : ¬ lzma.Rejects (fileChunks compPlan x.bytes)) (env : ReliableEnv)
    (hnb : (x.size / 64000000 + 1) % 2 ^ 32 ≠ 0)
    (hreads : LastReads compPlan x.size) :
    exitCode (compFileOf lzma env.toEnv x) = some 0 ∧
      Holds lzma (finalState (compFileOf lzma env.toEnv x)).out
        (fileChunks compPlan x.bytes) := by
  obtain ⟨hne, hpos⟩ := (@lastReads_iff compPlan x.size hnb).mp hreads
  have hrun := @triple_compFileWith compPlan lzma env.toEnv x
    (FaultOnly env.toEnv) hne hnb hpos faultOnly_ret
    fun hrejects => absurd hrejects hlzma
  obtain ⟨hcode, c, hc, hout, _⟩ := exitCode_zero hrun (contained_empty lzma)
    fun e s hs => env.not_faulty hs.2
  refine ⟨hcode, ?_⟩
  rw [compFileOf, compFile, hout]
  exact hc

/-- The records of all chunks are a container of the file. -/
theorem Holds.describes {lzma : Lzma} {c x : Bytes}
    (h : Holds lzma c (fileChunks compPlan x))
    (hnb : (x.length / 64000000 + 1) % 2 ^ 32 ≠ 0)
    (hreads : LastReads compPlan x.length) : Describes lzma c x := by
  obtain ⟨hne, hpos⟩ := (@lastReads_iff compPlan x.length hnb).mp hreads
  obtain ⟨hflatten, hnil⟩ := @fileChunks_spec compPlan x hne
    (numBatches_pos hne hnb) hpos
  exact ⟨_, hflatten, hnil, h⟩

/-- What `LzmaCompress` makes of `"a"`, and of no bytes, with the parameters of
`comp.h`; other inputs are stored behind six bytes. -/
def packBytes (src : Bytes) : Bytes :=
  if src = [] then [0, 0, 0, 0, 0]
  else if src = [97] then [0, 48, 127, 252, 0, 0]
  else [0, 0, 0, 0, 0, 0] ++ src

def unpackBytes (destLen : Nat) (data : Bytes) : Bytes :=
  if destLen = 0 then []
  else if data = [0, 48, 127, 252, 0, 0] then [97]
  else data.drop 6

theorem unpackBytes_packBytes (src : Bytes) :
    unpackBytes src.length (packBytes src) = src := by
  unfold packBytes
  split
  · rename_i hnil
    rw [hnil]
    rfl
  · rename_i hne
    split
    · rename_i ha
      rw [ha]
      rfl
    · rw [unpackBytes, if_neg (by simpa using hne), if_neg (by simp)]
      rfl

theorem length_packBytes_le (src : Bytes) :
    (packBytes src).length ≤ src.length + 6 := by
  unfold packBytes
  split
  · exact Nat.le_add_left 5 _
  · split
    · exact Nat.le_add_left 6 _
    · simp

/-- A library that undoes what it does, and does it in the room it is given. -/
def Lzma.storing : Lzma where
  compress destLen src :=
    if (packBytes src).length ≤ destLen then
      some ([0x5D, 0, 0, 0, 1], packBytes src)
    else none
  uncompress destLen data _ :=
    if (unpackBytes destLen data).length ≤ destLen then
      some (unpackBytes destLen data)
    else none
  length_props h := by
    split at h
    · cases h
      rfl
    · cases h
  length_data h := by
    split at h
    · cases h
      assumption
    · cases h
  data_ne_nil h := by
    split at h
    · cases h
      unfold packBytes
      split <;> [simp; split <;> simp]
    · cases h
  length_plain h := by
    split at h
    · cases h
      assumption
    · cases h

theorem storing_not_rejects (chunks : List Bytes) :
    ¬ Lzma.storing.Rejects chunks := by
  rintro ⟨chunk, _, hnone⟩
  have hle := length_packBytes_le chunk
  simp only [Lzma.storing] at hnone
  rw [if_pos (by unfold roomFor; omega)] at hnone
  cases hnone

/-- `comp_file` leaves a container of the whole file exactly when there is a
batch and its last thread has something to read. -/
theorem compFile_complete_iff (lzma : Lzma) (x : FileData)
    (hlzma : ¬ lzma.Rejects (fileChunks compPlan x.bytes)) :
    (∀ env : ReliableEnv, exitCode (compFileOf lzma env.toEnv x) = some 0 ∧
      Describes lzma (finalState (compFileOf lzma env.toEnv x)).out x.bytes) ↔
      (x.size / 64000000 + 1) % 2 ^ 32 ≠ 0 ∧
        (x.size % 8000000 ≠ 0 ∨ 2 ^ 32 ≤ x.size / 64000000) := by
  constructor
  · intro hall
    obtain ⟨hcode, hdesc⟩ := hall inOrderEnv
    rcases compFileOf_zero hcode with ⟨hnb, hreads, _⟩ | ⟨hnb, hnil⟩
    · exact ⟨hnb, hreads⟩
    · rw [hnil] at hdesc
      have hempty : x.size = 0 := by rw [FileData.size, hdesc.eq_nil]; rfl
      rw [hempty] at hnb
      cases hnb
  · rintro ⟨hnb, hreads⟩ env
    obtain ⟨hcode, hholds⟩ := compFileOf_reliable hlzma env hnb hreads
    exact ⟨hcode, hholds.describes hnb hreads⟩

/-- The file that holds `"a"`. -/
def fileOfA : FileData where
  bytes := [97]
  length_lt := by decide

theorem compFile_complete_a :
    exitCode (compFileOf .storing inOrderEnv.toEnv fileOfA) = some 0 ∧
      Describes .storing
        (finalState (compFileOf .storing inOrderEnv.toEnv fileOfA)).out
        fileOfA.bytes :=
  (compFile_complete_iff .storing fileOfA (storing_not_rejects _)).mpr (by decide)
    inOrderEnv

/-- The empty file is not compressed. -/
theorem compFile_incomplete_empty :
    ¬ ∀ lzma : Lzma,
      ¬ lzma.Rejects (fileChunks compPlan (FileData.zeros 0 (by decide)).bytes) →
      ∀ env : ReliableEnv,
        exitCode (compFileOf lzma env.toEnv (.zeros 0 (by decide))) = some 0 ∧
          Describes lzma (finalState (compFileOf lzma env.toEnv
            (.zeros 0 (by decide)))).out
            (FileData.zeros 0 (by decide)).bytes := by
  intro hall
  obtain ⟨hcode, _⟩ := hall .storing (storing_not_rejects _) inOrderEnv
  rcases compFileOf_zero hcode with ⟨_, hmod | hbig, _⟩ | ⟨hnb, _⟩
  · exact hmod rfl
  · exact absurd hbig (by decide)
  · cases hnb

end EcFtp
