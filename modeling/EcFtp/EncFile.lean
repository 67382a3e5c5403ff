/-
`enc_file` on a whole file.  It encrypts a file whose last thread has something
to read; every other length ends in an empty item, in a table too short, in a
counter overflow, or in no batch at all.
-/
import EcFtp.EncChunks

namespace EcFtp

open ByteStrings Exec

section Slots

variable (p : BlockPlan) (data : Bytes) (avars : EncAesVars)

/-- The slot `enc_file` fills in for thread `t` of batch `b`. -/
def encSlot (b t : Nat) : EncThreadArgs :=
  let len := p.irReadlen data.length b t
  .fresh data (p.offset b t) len (16 * ((len + 15) / 16)) none avars

/-- The slot `dec_file` fills in for thread `t` of batch `b`. -/
def decSlot (b t : Nat) : EncThreadArgs :=
  let len := p.irReadlen data.length b t
  .fresh data (p.offset b t) len len
    (some (if p.isLast data.length b t then 1 else 0)) avars

end Slots

section Threads

variable {p : BlockPlan} {env : Env} {E : Exit → IoState → Prop}
  {data : Bytes} {avars : EncAesVars} {b t : Nat}

theorem triple_setEncArgs {P : IoState → Prop} (hP : LogFree P)
    (hfault : env.Faulty → ∀ s, E (.ret (-1)) s) (stSize : Int)
    (allocLen : Bool → Nat → Nat) (padded : Bool → Option Int) :
    Triple P (setEncArgs p.toThreadPlan env stSize (some data) avars allocLen
        padded b t)
      (fun a s => a = .fresh data (p.offset b t) (p.irReadlen stSize b t)
        (allocLen (p.isLast stSize b t) (p.irReadlen stSize b t))
        (padded (p.isLast stSize b t)) avars ∧ P s) E := by
  refine Triple.bind (triple_openReader hP hfault _) fun f => ?_
  refine Triple.assume fun hf => ?_
  refine Triple.bind (triple_call hfault _) fun _ => ?_
  refine Triple.bind (triple_call hfault _) fun _ => ?_
  refine Triple.pure fun s hs => ⟨?_, hs⟩
  rw [hf, p.seekOffset_eq, seekSet_of_nat]
  rfl

/-- `outbuf` is allocated for the chunk and the padding of its stranded
bytes. -/
theorem encAllocLen_eq (hn : data.length < 2 ^ 63)
    (hne : data.length ≠ p.maxBytesPerBatch)
    (hthread : p.Full data.length b t ∨ p.Last data.length b t) :
    encAllocLen p.toThreadPlan (p.isLast data.length b t)
        (p.irReadlen data.length b t) =
      16 * ((p.irReadlen data.length b t + 15) / 16) := by
  rcases hthread with hfull | hlast
  · obtain ⟨q, hq⟩ := p.block_dvd
    rw [p.isLast_of_full hn hne hfull, p.irReadlen_of_full hn hne hfull]
    simp only [encAllocLen, Bool.false_eq_true, ↓reduceIte]
    omega
  · have hle := p.offset_of_last hne hlast
    rw [p.isLast_of_last hn hne hlast, p.irReadlen_of_last hn hne hlast]
    simp only [encAllocLen, ↓reduceIte]
    split <;> rw [toSizeT_of_nat (by omega)] <;> omega

/-- The threads of `enc_file`: they encrypt, fail to read, or overflow on a
chunk of `2 ^ 31` bytes. -/
theorem encThreadsRun (hn : data.length < 2 ^ 63)
    (hne : data.length ≠ p.maxBytesPerBatch)
    (hfault : env.Faulty → ∀ s, E (.ret (-1)) s)
    (hundef : 2 ^ 31 ≤ p.lastLen data.length → ∀ s, E .undefined s) :
    ThreadsRun p.toValidPlan data.length
      (encJob p.toThreadPlan env data.length (some data) avars)
      (encSlot p data avars) E where
  setArgs b t hthread P hP := by
    have hset := @triple_setEncArgs p env E data avars b t P hP hfault
      data.length (encAllocLen p.toThreadPlan) fun _ => none
    rw [encAllocLen_eq hn hne hthread] at hset
    exact hset
  work b t hthread := by
    obtain ⟨hfit, hlen⟩ := irReadlen_cases hn hne hthread
    have hsize : p.irReadlen data.length b t < 2 ^ 63 := by omega
    by_cases hint : 16 * (p.irReadlen data.length b t / 16) < 2 ^ 31
    · obtain ⟨a, ha, hcases⟩ := encryptChunk_outcome avars
        (env.fails (.freadInput b t)) none hfit hsize hint
      have hwork : (encJob p.toThreadPlan env data.length (some data) avars).work
          b t (encSlot p data avars b t) = some a := ha
      rw [hwork]
      rcases hcases with ⟨hzero, _⟩ | ⟨hfails, hval⟩
      · exact .inl hzero
      · exact .inr ⟨-1, hval, by decide, hfault ⟨_, hfails⟩⟩
    · have hK := threadMaxMem_lt p.toValidPlan
      have hundef' : ∀ s, E .undefined s := by
        rcases hlen with hK' | ⟨_, hlast⟩
        · omega
        · exact hundef (by omega)
      rcases encryptChunk_overflow avars
        (16 * ((p.irReadlen data.length b t + 15) / 16))
        (env.fails (.freadInput b t)) none hfit (by omega) with
        hnone | ⟨hfails, a, hval, ha⟩
      · have hwork : (encJob p.toThreadPlan env data.length (some data)
            avars).work b t (encSlot p data avars b t) = none := hnone
        rw [hwork]
        exact hundef'
      · have hwork : (encJob p.toThreadPlan env data.length (some data)
            avars).work b t (encSlot p data avars b t) = some a := ha
        rw [hwork]
        exact .inr ⟨-1, hval, by decide, hfault ⟨_, hfails⟩⟩

theorem encWorked (hn : data.length < 2 ^ 63)
    (hne : data.length ≠ p.maxBytesPerBatch)
    (hthread : p.Full data.length b t ∨ p.Last data.length b t)
    (hint : p.irReadlen data.length b t < 2 ^ 31) {a : EncThreadArgs}
    (ha : Worked EncThreadArgs.returnVal
      ((encJob p.toThreadPlan env data.length (some data) avars).work b t
        (encSlot p data avars b t)) a) :
    Encrypted avars
      (slice data (p.offset b t) (p.irReadlen data.length b t)) a := by
  obtain ⟨hfit, _⟩ := irReadlen_cases hn hne hthread
  obtain ⟨a', ha', hcases⟩ := encryptChunk_outcome avars
    (env.fails (.freadInput b t)) none hfit (by omega) (by omega)
  obtain ⟨hsome, hzero⟩ := ha
  obtain rfl : a = a' := Option.some.inj (hsome.symm.trans ha')
  rcases hcases with ⟨_, hgood⟩ | ⟨_, hval⟩
  · exact hgood
  · rw [hzero] at hval
    cases hval

theorem block_dvd_offset (p : BlockPlan) (b t : Nat) : 16 ∣ p.offset b t := by
  have hK := p.block_dvd
  have hB : 16 ∣ p.maxBytesPerBatch := Nat.dvd_mul_right_of_dvd hK _
  exact Nat.dvd_add (Nat.dvd_mul_left_of_dvd hB b) (Nat.dvd_mul_left_of_dvd hK t)

theorem encryptBlocks_append {x : Bytes} (h : 16 ∣ x.length) (rest : Bytes) :
    encryptBlocks avars (x ++ rest) =
      encryptBlocks avars x ++ encryptBlocks avars rest :=
  mapBlocks_append (by decide) _ h rest

theorem dvd_length_take_offset (h : p.offset b t ≤ data.length) :
    16 ∣ (data.take (p.offset b t)).length := by
  rw [List.length_take, Nat.min_eq_left h]
  exact block_dvd_offset p b t

/-- The work on a whole chunk is appended to the output. -/
theorem triple_useEncWork_full (hn : data.length < 2 ^ 63)
    (hne : data.length ≠ p.maxBytesPerBatch)
    (hfault : env.Faulty → ∀ s, E (.ret (-1)) s)
    (hfull : p.Full data.length b t) {a : EncThreadArgs}
    (ha : Worked EncThreadArgs.returnVal
      ((encJob p.toThreadPlan env data.length (some data) avars).work b t
        (encSlot p data avars b t)) a) :
    Triple (Written (encryptBlocks avars (data.take (p.offset b t))))
      (useEncWork p.toThreadPlan env data.length b t a)
      (fun _ => Written (encryptBlocks avars
        (data.take (p.offset b t + p.threadMaxMem)))) E := by
  have hK := threadMaxMem_lt p.toValidPlan
  have hlen := p.irReadlen_of_full hn hne hfull
  have hle := p.offset_of_full hne hfull
  have henc := encWorked hn hne (.inl hfull) (by omega) ha
  rw [hlen] at henc
  have hchunk := @length_slice_of_le _ data (p.offset b t) p.threadMaxMem
    (by omega)
  have hwhole : padStranded (slice data (p.offset b t) p.threadMaxMem) =
      slice data (p.offset b t) p.threadMaxMem := by
    rw [padStranded, if_pos (by rw [hchunk]; exact Nat.mod_eq_zero_of_dvd p.block_dvd)]
  have hload := henc.load
  rw [hwhole] at hload
  have hpos := p.threadMaxMem_pos
  have hout : a.outbufLen = p.threadMaxMem := by
    rw [henc.outbufLen, hwhole, hchunk]
  rw [← take_append_slice,
    encryptBlocks_append (dvd_length_take_offset (by omega))]
  refine Triple.bind (triple_write (by omega) hload
    fun hfails s => hfault ⟨_, hfails⟩ s) fun _ => ?_
  rw [addPadding, p.isLast_of_full hn hne hfull]
  exact triple_emit logFree_outIs _

/-- The padded plain text: a last chunk of whole blocks gets a block of its
own, another one is filled up. -/
theorem padStranded_append (x : Bytes) :
    padStranded x ++ (if x.length % 16 = 0 then List.replicate 16 16 else []) =
      x ++ padding x.length := by
  unfold padStranded padding
  split
  · rename_i hwhole
    rw [hwhole]
    rfl
  · simp

/-- The block of padding reads the same in both orders. -/
theorem encrypt_padding_block :
    (encrypt (Vector.replicate 16 16) avars.rkeys avars.sbox).toList =
      encryptBytes avars (List.replicate 16 16) := by
  have hblock : toBlock (List.replicate 16 16) = Vector.replicate 16 16 := by
    decide
  have hcolumns : toColumnOrder (Vector.replicate 16 16) =
      Vector.replicate 16 16 := by
    decide
  rw [encryptBytes, encryptText, hblock, hcolumns]

/-- The last thread adds a block of padding to a file of whole blocks. -/
theorem triple_addPadding (hn : data.length < 2 ^ 63)
    (hne : data.length ≠ p.maxBytesPerBatch)
    (hfault : env.Faulty → ∀ s, E (.ret (-1)) s)
    (hlast : p.Last data.length b t) {a : EncThreadArgs} {x : Bytes}
    (henc : Encrypted avars x a) (o : Bytes) :
    Triple (Written o) (addPadding p.toThreadPlan env data.length b t a)
      (fun _ => Written (o ++ encryptBlocks avars
        (if x.length % 16 = 0 then List.replicate 16 16 else []))) E := by
  rw [addPadding, p.isLast_of_last hn hne hlast, henc.padded, henc.aesVars]
  by_cases hwhole : x.length % 16 = 0
  · have hload := load_filled_all
      (encrypt (Vector.replicate 16 16) avars.rkeys avars.sbox).toList 0
    have hblock : encryptBlocks avars (List.replicate 16 16) =
        (encrypt (Vector.replicate 16 16) avars.rkeys avars.sbox).toList := by
      rw [encryptBlocks, mapBlocks_block (by decide) _ (by decide),
        encrypt_padding_block]
    simp only [hwhole, ↓reduceIte, ne_eq, zero_ne_one, not_false_eq_true]
    rw [hblock]
    rw [Vector.length_toList] at hload
    exact triple_write (by decide) hload fun hfails s => hfault ⟨_, hfails⟩ s
  · have hnil : encryptBlocks avars [] = [] := mapBlocks_nil 16 _
    simp only [hwhole, ↓reduceIte, ne_eq, not_true_eq_false, hnil,
      List.append_nil]
    exact Triple.pure fun _ hs => hs

/-- The last thread's work and the padding complete the ciphertext. -/
theorem triple_useEncWork_last (hn : data.length < 2 ^ 63)
    (hne : data.length ≠ p.maxBytesPerBatch)
    (hpos : 0 < p.lastLen data.length)
    (hint : p.lastLen data.length < 2 ^ 31)
    (hfault : env.Faulty → ∀ s, E (.ret (-1)) s)
    (hlast : p.Last data.length b t) {a : EncThreadArgs}
    (ha : Worked EncThreadArgs.returnVal
      ((encJob p.toThreadPlan env data.length (some data) avars).work b t
        (encSlot p data avars b t)) a) :
    Triple (Written (encryptBlocks avars (data.take (p.offset b t))))
      (useEncWork p.toThreadPlan env data.length b t a)
      (fun _ => Written
        (encryptBlocks avars (data ++ padding data.length))) E := by
  have hlen := p.irReadlen_of_last hn hne hlast
  have hoff := p.offset_of_last hne hlast
  have henc := encWorked hn hne (.inr hlast) (by omega) ha
  rw [hlen] at henc
  have hchunk := @length_slice_of_le _ data (p.offset b t)
    (p.lastLen data.length) (by omega)
  have hdvd := block_dvd_offset p b t
  have hprefix : 16 ∣ (data.take (p.offset b t)).length :=
    dvd_length_take_offset (by omega)
  have hmod : (slice data (p.offset b t) (p.lastLen data.length)).length % 16 =
      data.length % 16 := by
    rw [hchunk]
    omega
  have hdata : data.take (p.offset b t) ++
      slice data (p.offset b t) (p.lastLen data.length) = data := by
    rw [take_append_slice, hoff, List.take_length]
  have hpadding : padding (slice data (p.offset b t)
      (p.lastLen data.length)).length = padding data.length := by
    rw [padding, hmod, padding]
  have htext : data ++ padding data.length = data.take (p.offset b t) ++
      (padStranded (slice data (p.offset b t) (p.lastLen data.length)) ++
        if data.length % 16 = 0 then List.replicate 16 16 else []) := by
    rw [← hmod, padStranded_append, hpadding, ← List.append_assoc, hdata]
  have hstranded : 16 ∣ (padStranded
      (slice data (p.offset b t) (p.lastLen data.length))).length :=
    ⟨_, length_padStranded _⟩
  have hout : 0 < a.outbufLen := by
    rw [henc.outbufLen, length_padStranded]
    omega
  rw [htext, encryptBlocks_append hprefix, encryptBlocks_append hstranded]
  refine Triple.bind (triple_write hout henc.load
    fun hfails s => hfault ⟨_, hfails⟩ s) fun _ => ?_
  have hpad := triple_addPadding hn hne hfault hlast henc
    (encryptBlocks avars (data.take (p.offset b t)) ++
      encryptBlocks avars (padStranded
        (slice data (p.offset b t) (p.lastLen data.length))))
  rw [hmod, List.append_assoc] at hpad
  refine Triple.bind (R := fun _ => Written _) ?_
    fun _ => triple_emit logFree_outIs _
  exact hpad

/-- A last thread with nothing to read hands `fwrite` an empty item. -/
theorem triple_useEncWork_empty (hn : data.length < 2 ^ 63)
    (hne : data.length ≠ p.maxBytesPerBatch)
    (hzero : p.lastLen data.length = 0) (hexit : ∀ s, E (.ret (-1)) s)
    (hlast : p.Last data.length b t) {a : EncThreadArgs}
    (ha : Worked EncThreadArgs.returnVal
      ((encJob p.toThreadPlan env data.length (some data) avars).work b t
        (encSlot p data avars b t)) a) {o : Bytes}
    {Q : PUnit → IoState → Prop} :
    Triple (Written o) (useEncWork p.toThreadPlan env data.length b t a) Q E := by
  have hlen := p.irReadlen_of_last hn hne hlast
  have henc := encWorked hn hne (.inr hlast) (by omega) ha
  have hout : a.outbufLen = 0 := by
    rw [henc.outbufLen, length_padStranded, length_slice, hlen, hzero]
    omega
  refine Triple.bind_stop ?_
  rw [hout]
  exact triple_fwriteItem_empty hexit

end Threads

section Files

variable {p : BlockPlan} {env : Env} {E : Exit → IoState → Prop}
  {key : Key} {avars : EncAesVars} {x : FileData}

/-- The output stream is opened before the batches and closed after them. -/
theorem triple_cryptFile {plan : ThreadPlan} {stSize : Int} {P R : IoState → Prop}
    {job : EncAesVars → FileJob EncThreadArgs} (hP : LogFree P) (hR : LogFree R)
    (hfault : env.Faulty → ∀ s, E (.ret (-1)) s)
    (havars : encAesVars key = some avars)
    (hrun : Triple P (runBatches plan env stSize (job avars)) (fun _ => R) E) :
    Triple P (cryptFile plan env stSize key job) (fun _ => R) E := by
  unfold cryptFile
  refine Triple.bind (triple_call hfault _) fun _ => ?_
  refine Triple.bind (triple_emit hP _) fun _ => ?_
  rw [havars]
  exact Triple.bind hrun fun _ => triple_emit hR _

/-- The padded file is encrypted block by block, unless a library call
fails. -/
theorem triple_encFileWith (havars : encAesVars key = some avars)
    (hfit : x.size / p.maxBytesPerBatch + 1 < 2 ^ 32)
    (hpos : x.size % p.threadMaxMem ≠ 0) :
    Triple (Written []) (encFileWith p.toThreadPlan env x.size (some x.bytes) key)
      (fun _ => Written (encryptBlocks avars (x.bytes ++ padding x.size)))
      (FaultOnly env) := by
  have hne : x.bytes.length ≠ p.maxBytesPerBatch := ne_maxBytesPerBatch hpos
  have hlen : p.lastLen x.bytes.length = x.bytes.length % p.threadMaxMem :=
    lastLen_of_fits hfit
  have hK := threadMaxMem_lt p.toValidPlan
  have hlt := Nat.mod_lt x.bytes.length p.threadMaxMem_pos
  have hlastPos : 0 < p.lastLen x.bytes.length := by
    rw [hlen]
    exact Nat.pos_of_ne_zero hpos
  have hrun := triple_runBatches (E := FaultOnly env)
    (fun off => Written (encryptBlocks avars (x.bytes.take off)))
    (fun _ => logFree_outIs) faultOnly_ret x.length_lt hne
    (numBatches_pos_of_fits hne hfit)
    (encThreadsRun x.length_lt hne faultOnly_ret
      fun hbig => absurd hbig (by omega))
    (fun b t hfull a ha =>
      triple_useEncWork_full x.length_lt hne faultOnly_ret hfull ha)
    (fun b t hlast a ha => triple_useEncWork_last x.length_lt hne hlastPos
      (by omega) faultOnly_ret hlast ha)
  rw [List.take_zero, encryptBlocks, mapBlocks_nil] at hrun
  exact triple_cryptFile logFree_outIs logFree_outIs faultOnly_ret havars hrun

/-- The last thread of a file of `2 ^ 31` unread bytes does not return zero. -/
theorem not_encWorked_of_long (hne : x.bytes.length ≠ p.maxBytesPerBatch)
    (hlong : 2 ^ 31 ≤ p.lastLen x.bytes.length) {b t : Nat}
    (hlast : p.Last x.bytes.length b t) (a : EncThreadArgs) :
    ¬ Worked EncThreadArgs.returnVal
      ((encJob p.toThreadPlan env x.bytes.length (some x.bytes) avars).work b t
        (encSlot p x.bytes avars b t)) a := by
  rintro ⟨hsome, hzero⟩
  have hlen := p.irReadlen_of_last x.length_lt hne hlast
  obtain ⟨hfit, _⟩ := irReadlen_cases x.length_lt hne (.inr hlast)
  rcases encryptChunk_overflow avars
    (16 * ((p.irReadlen x.bytes.length b t + 15) / 16))
    (env.fails (.freadInput b t)) none hfit (by omega) with
    hnone | ⟨_, a', hval, ha'⟩
  · cases hnone.symm.trans hsome
  · obtain rfl : a' = a := Option.some.inj (ha'.symm.trans hsome)
    cases hval.symm.trans hzero

/-- A file whose last thread has nothing to read, or more than an `int` can
count, or no element in the table, is not encrypted. -/
theorem triple_encFileWith_fails (havars : encAesVars key = some avars)
    (hnb : (x.size / p.maxBytesPerBatch + 1) % 2 ^ 32 ≠ 0)
    (hbad : ¬ (x.size % p.threadMaxMem ≠ 0 ∧
      x.size / p.maxBytesPerBatch + 1 < 2 ^ 32)) :
    Triple (Written []) (encFileWith p.toThreadPlan env x.size (some x.bytes) key)
      (fun _ _ => False) NonZero := by
  have hfault : env.Faulty → ∀ s, NonZero (.ret (-1)) s := fun _ => nonZero_ret
  refine triple_cryptFile logFree_outIs (logFree_const False) hfault havars ?_
  by_cases hne : x.bytes.length = p.maxBytesPerBatch
  · have hsize : (x.size : Int) = p.maxBytesPerBatch := congrArg _ hne
    rw [hsize]
    refine triple_runBatches_overflow nonZero_undefined fun t _ => ?_
    have hset := @triple_setEncArgs p env NonZero x.bytes avars 0 t (Written [])
      logFree_outIs hfault p.maxBytesPerBatch (encAllocLen p.toThreadPlan)
      fun _ => none
    exact hset.post fun _ _ hs => hs.2
  · have hfull := fun b t hfull a ha => @triple_useEncWork_full p env NonZero
      x.bytes avars b t x.length_lt hne hfault hfull a ha
    have hrun := @encThreadsRun p env NonZero x.bytes avars x.length_lt hne hfault
      fun _ => nonZero_undefined
    have hstart : Written [] = Written (encryptBlocks avars (x.bytes.take 0)) := by
      rw [List.take_zero, encryptBlocks, mapBlocks_nil]
    rw [hstart]
    refine triple_runBatches (R := fun _ => False)
      (fun off => Written (encryptBlocks avars (x.bytes.take off)))
      (fun _ => logFree_outIs) hfault x.length_lt hne
      (numBatches_pos hne hnb) hrun hfull fun b t hlast a ha => ?_
    by_cases hfit : x.size / p.maxBytesPerBatch + 1 < 2 ^ 32
    · have hzero : p.lastLen x.bytes.length = 0 := by
        rw [lastLen_of_fits hfit]
        by_contra hpos
        exact hbad ⟨hpos, hfit⟩
      exact triple_useEncWork_empty x.length_lt hne hzero nonZero_ret hlast ha
    · have hlong : 2 ^ 32 ≤ p.lastLen x.bytes.length :=
        le_lastLen_of_not_fits hfit
      exact absurd ha (not_encWorked_of_long hne (by omega) hlast a)

/-- Without a batch nothing is written, and zero is returned. -/
theorem triple_cryptFile_none {plan : ThreadPlan} {stSize : Int}
    {job : EncAesVars → FileJob EncThreadArgs} {P : IoState → Prop}
    (hP : LogFree P) (havars : encAesVars key = some avars)
    (hnb : plan.numBatches stSize = 0) :
    Triple P (cryptFile plan env stSize key job) (fun _ => P)
      (FaultOnly env) := by
  refine triple_cryptFile hP hP faultOnly_ret havars ?_
  rw [runBatches, hnb]
  exact Triple.pure fun _ hs => hs

end Files

/-- `enc_file` on a file that exists. -/
def encFileOf (env : Env) (x : FileData) (key : Key) :
    EStateM.Result Exit IoState PUnit :=
  encFile env x.size (some x.bytes) key .empty

/-- The ciphertext of `x`: its blocks and those of its padding, encrypted. -/
def cipherText (key : Key) (x : Bytes) : Option Bytes :=
  (encAesVars key).map fun avars => encryptBlocks avars (x ++ padding x.length)

section Returns

variable {p : BlockPlan} {env : Env} {x : FileData} {key : Key}

/-- The returns of `enc_file`: zero comes with the ciphertext, or with an empty
file when the number of batches was narrowed to zero. -/
theorem encFileWith_zero
    (h : exitCode (encFileWith p.toThreadPlan env x.size (some x.bytes) key
      .empty) = some 0) :
    x.size % p.threadMaxMem ≠ 0 ∧ x.size / p.maxBytesPerBatch + 1 < 2 ^ 32 ∧
        some (finalState (encFileWith p.toThreadPlan env x.size (some x.bytes)
          key .empty)).out = cipherText key x.bytes ∨
      (x.size / p.maxBytesPerBatch + 1) % 2 ^ 32 = 0 ∧
        (finalState (encFileWith p.toThreadPlan env x.size (some x.bytes)
          key .empty)).out = [] := by
  obtain ⟨avars, havars, _⟩ := encAesVars_inverse key
  have hnotRet : ∀ s, ¬ FaultOnly env (.ret 0) s := by
    rintro s ⟨hret, _⟩
    cases hret
  by_cases hnb : (x.size / p.maxBytesPerBatch + 1) % 2 ^ 32 = 0
  · right
    have hrun := @triple_cryptFile_none env key avars p.toThreadPlan x.size
      (encJob p.toThreadPlan env x.size (some x.bytes)) (Written [])
      logFree_outIs havars (numBatches_eq_zero hnb)
    exact ⟨hnb, (exitCode_zero_imp hrun written_empty hnotRet h).1⟩
  · left
    by_cases hgood : x.size % p.threadMaxMem ≠ 0 ∧
        x.size / p.maxBytesPerBatch + 1 < 2 ^ 32
    · have hrun := @triple_encFileWith p env key avars x havars hgood.2 hgood.1
      have hout := exitCode_zero_imp hrun written_empty hnotRet h
      refine ⟨hgood.1, hgood.2, ?_⟩
      rw [cipherText, havars]
      exact congrArg some hout.1
    · have hrun := @triple_encFileWith_fails p env key avars x havars hnb hgood
      exact (exitCode_zero_imp hrun written_empty (fun _ hs => hs rfl) h).elim

/-- Without a batch `enc_file` writes nothing and returns zero. -/
theorem encFileWith_none (env : ReliableEnv)
    (hnb : (x.size / p.maxBytesPerBatch + 1) % 2 ^ 32 = 0) :
    exitCode (encFileWith p.toThreadPlan env.toEnv x.size (some x.bytes) key
        .empty) = some 0 ∧
      (finalState (encFileWith p.toThreadPlan env.toEnv x.size (some x.bytes)
        key .empty)).out = [] := by
  obtain ⟨avars, havars, _⟩ := encAesVars_inverse key
  have hrun := @triple_cryptFile_none env.toEnv key avars p.toThreadPlan
    x.size (encJob p.toThreadPlan env.toEnv x.size (some x.bytes))
    (Written []) logFree_outIs havars (numBatches_eq_zero hnb)
  have hout := exitCode_zero hrun written_empty fun e s hs => env.not_faulty hs.2
  exact ⟨hout.1, hout.2.1⟩

end Returns

theorem encFileOf_zero {env : Env} {x : FileData} {key : Key}
    (h : exitCode (encFileOf env x key) = some 0) :
    x.size % 4194304 ≠ 0 ∧ x.size / 16777216 + 1 < 2 ^ 32 ∧
        some (finalState (encFileOf env x key)).out = cipherText key x.bytes ∨
      (x.size / 16777216 + 1) % 2 ^ 32 = 0 ∧
        (finalState (encFileOf env x key)).out = [] :=
  @encFileWith_zero encPlan env x key h

theorem encFileOf_none (env : ReliableEnv) {x : FileData} (key : Key)
    (hnb : (x.size / 16777216 + 1) % 2 ^ 32 = 0) :
    exitCode (encFileOf env.toEnv x key) = some 0 ∧
      (finalState (encFileOf env.toEnv x key)).out = [] :=
  @encFileWith_none encPlan x key env hnb

/-- In an unfailing environment the ciphertext is complete when the last thread
has something to read. -/
theorem encFileOf_reliable (env : ReliableEnv) {x : FileData} (key : Key)
    (hpos : x.size % 4194304 ≠ 0) (hfit : x.size / 16777216 + 1 < 2 ^ 32) :
    exitCode (encFileOf env.toEnv x key) = some 0 ∧
      some (finalState (encFileOf env.toEnv x key)).out =
        cipherText key x.bytes := by
  obtain ⟨avars, havars, _⟩ := encAesVars_inverse key
  have hrun := @triple_encFileWith encPlan env.toEnv key avars x havars hfit hpos
  have hout := exitCode_zero hrun written_empty fun e s hs => env.not_faulty hs.2
  rw [cipherText, havars]
  exact ⟨hout.1, congrArg some hout.2.1⟩

theorem length_cipherText {key : Key} {x c : Bytes}
    (h : some c = cipherText key x) : c.length = 16 * (x.length / 16 + 1) := by
  obtain ⟨avars, havars, _⟩ := encAesVars_inverse key
  rw [cipherText, havars] at h
  rw [Option.some.inj h, length_encryptBlocks]
  simp [padding]
  omega

/-- `enc_file` leaves a complete ciphertext exactly when the length is not a
multiple of the thread size and the number of batches fits its type. -/
theorem encFile_complete_iff (x : FileData) (key : Key) :
    (∀ env : ReliableEnv, exitCode (encFileOf env.toEnv x key) = some 0 ∧
      some (finalState (encFileOf env.toEnv x key)).out =
        cipherText key x.bytes ∧
      (finalState (encFileOf env.toEnv x key)).out.length =
        16 * (x.size / 16 + 1)) ↔
      x.size % 4194304 ≠ 0 ∧ x.size / 16777216 + 1 < 2 ^ 32 := by
  constructor
  · intro hall
    obtain ⟨hcode, _, hlen⟩ := hall inOrderEnv
    rcases encFileOf_zero hcode with ⟨hpos, hfit, _⟩ | ⟨_, hnil⟩
    · exact ⟨hpos, hfit⟩
    · rw [hnil] at hlen
      cases hlen
  · rintro ⟨hpos, hfit⟩ env
    obtain ⟨hcode, hout⟩ := encFileOf_reliable env key hpos hfit
    exact ⟨hcode, hout, length_cipherText hout⟩

/-- A file of one whole chunk is not encrypted. -/
theorem encFile_incomplete_zeros :
    ¬ ∀ env : ReliableEnv,
      exitCode (encFileOf env.toEnv (.zeros 4194304 (by decide))
          (Vector.replicate 4 0)) = some 0 ∧
        some (finalState (encFileOf env.toEnv (.zeros 4194304 (by decide))
          (Vector.replicate 4 0))).out =
          cipherText (Vector.replicate 4 0)
            (FileData.zeros 4194304 (by decide)).bytes ∧
        (finalState (encFileOf env.toEnv (.zeros 4194304 (by decide))
          (Vector.replicate 4 0))).out.length = 16 * (4194304 / 16 + 1) := by
  intro hall
  rcases encFileOf_zero (hall inOrderEnv).1 with ⟨hpos, _⟩ | ⟨hnb, _⟩
  · rw [FileData.size, FileData.length_zeros] at hpos
    exact hpos rfl
  · rw [FileData.size, FileData.length_zeros] at hnb
    cases hnb

end EcFtp
