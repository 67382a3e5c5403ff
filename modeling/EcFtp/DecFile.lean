/-
`dec_file` on a whole file of any bytes, and on what `enc_file` wrote.  The
last thread takes the number of padding bytes from the data; every length and
every such number is followed to the code the function returns.
-/
import EcFtp.EncFile

namespace EcFtp

open ByteStrings Exec

section Threads

variable {p : BlockPlan} {env : Env} {E : Exit → IoState → Prop}
  {data : Bytes} {avars : EncAesVars} {b t : Nat}

/-- The threads of `dec_file`: they decrypt, fail to read, or overflow on a
chunk of `2 ^ 31` bytes. -/
theorem decThreadsRun (hn : data.length < 2 ^ 63)
    (hne : data.length ≠ p.maxBytesPerBatch)
    (hfault : env.Faulty → ∀ s, E (.ret (-1)) s)
    (hundef : 2 ^ 31 ≤ p.lastLen data.length → ∀ s, E .undefined s) :
    ThreadsRun p.toValidPlan data.length
      (decJob p.toThreadPlan env data.length (some data) avars)
      (decSlot p data avars) E where
  setArgs b t hthread P hP := by
    have hset := @triple_setEncArgs p env E data avars b t P hP hfault data.length
      (fun last irReadlen => if last then irReadlen else p.threadMaxMem)
      fun last => some (if last then 1 else 0)
    have halloc : (if p.isLast data.length b t then
        p.irReadlen data.length b t else p.threadMaxMem) =
        p.irReadlen data.length b t := by
      rcases hthread with hfull | hlast
      · rw [p.isLast_of_full hn hne hfull, p.irReadlen_of_full hn hne hfull]
        rfl
      · rw [p.isLast_of_last hn hne hlast]
        rfl
    simp only [halloc] at hset
    exact hset
  work b t hthread := by
    obtain ⟨hfit, hlen⟩ := irReadlen_cases hn hne hthread
    by_cases hint : 16 * (p.irReadlen data.length b t / 16) < 2 ^ 31
    · obtain ⟨a, ha, hcases⟩ := decryptChunk_outcome avars
        (env.fails (.freadInput b t))
        (if p.isLast data.length b t then 1 else 0) hfit (by omega) hint
      have hwork : (decJob p.toThreadPlan env data.length (some data) avars).work
          b t (decSlot p data avars b t) = some a := ha
      rw [hwork]
      rcases hcases with ⟨hzero, _⟩ | ⟨hfails, hval⟩
      · exact .inl hzero
      · exact .inr ⟨-1, hval, by decide, hfault ⟨_, hfails⟩⟩
    · have hK := threadMaxMem_lt p.toValidPlan
      have hundef' : ∀ s, E .undefined s := by
        rcases hlen with hK' | ⟨_, hlast⟩
        · omega
        · exact hundef (by omega)
      rcases decryptChunk_overflow avars (p.irReadlen data.length b t)
        (env.fails (.freadInput b t))
        (some (if p.isLast data.length b t then 1 else 0)) hfit (by omega) with
        hnone | ⟨hfails, a, hval, ha⟩
      · have hwork : (decJob p.toThreadPlan env data.length (some data)
            avars).work b t (decSlot p data avars b t) = none := hnone
        rw [hwork]
        exact hundef'
      · have hwork : (decJob p.toThreadPlan env data.length (some data)
            avars).work b t (decSlot p data avars b t) = some a := ha
        rw [hwork]
        exact .inr ⟨-1, hval, by decide, hfault ⟨_, hfails⟩⟩

theorem decWorked (hn : data.length < 2 ^ 63)
    (hne : data.length ≠ p.maxBytesPerBatch)
    (hthread : p.Full data.length b t ∨ p.Last data.length b t) {a : EncThreadArgs}
    (ha : Worked EncThreadArgs.returnVal
      ((decJob p.toThreadPlan env data.length (some data) avars).work b t
        (decSlot p data avars b t)) a) :
    16 * (p.irReadlen data.length b t / 16) < 2 ^ 31 ∧
      Decrypted avars (if p.isLast data.length b t then 1 else 0)
        (slice data (p.offset b t) (p.irReadlen data.length b t)) a := by
  obtain ⟨hfit, _⟩ := irReadlen_cases hn hne hthread
  obtain ⟨hsome, hzero⟩ := ha
  by_cases hint : 16 * (p.irReadlen data.length b t / 16) < 2 ^ 31
  · obtain ⟨a', ha', hcases⟩ := decryptChunk_outcome avars
      (env.fails (.freadInput b t))
      (if p.isLast data.length b t then 1 else 0) hfit (by omega) hint
    obtain rfl : a = a' := Option.some.inj (hsome.symm.trans ha')
    rcases hcases with ⟨_, hgood⟩ | ⟨_, hval⟩
    · exact ⟨hint, hgood⟩
    · rw [hzero] at hval
      cases hval
  · rcases decryptChunk_overflow avars (p.irReadlen data.length b t)
      (env.fails (.freadInput b t))
      (some (if p.isLast data.length b t then 1 else 0)) hfit (by omega) with
      hnone | ⟨_, a', hval, ha'⟩
    · cases hnone.symm.trans hsome
    · obtain rfl : a' = a := Option.some.inj (ha'.symm.trans hsome)
      cases hval.symm.trans hzero

theorem decryptBlocks_append {x : Bytes} (h : 16 ∣ x.length) (rest : Bytes) :
    decryptBlocks avars (x ++ rest) =
      decryptBlocks avars x ++ decryptBlocks avars rest :=
  mapBlocks_append (by decide) _ h rest

/-- A call of `fwrite` that stays within its block, hands it no byte that was
not stored, and leaves out at most one block of padding. -/
def SafeWrite (w : Buffer × Nat) : Prop :=
  w.2 ≤ w.1.length ∧ w.1.length ≤ w.2 + 16 ∧ w.1.load 0 w.2 ≠ none

/-- The assertion `W` about the calls of `fwrite` survives a safe one. -/
def Extends (W : List (Buffer × Nat) → Prop) : Prop :=
  ∀ ws w, W ws → SafeWrite w → W (ws ++ [w])

/-- A chunk of whole blocks is written up to its length; the write is safe when
at most one block is left out. -/
theorem Decrypted.safeWrite {padded : Int} {x : Bytes} {a : EncThreadArgs}
    (h : Decrypted avars padded x a) (hwhole : x.length % 16 = 0)
    (hle : a.outbufLen ≤ x.length) :
    a.outbuf.load 0 a.outbufLen =
        some ((decryptBlocks avars x).take a.outbufLen) ∧
      (SafeWrite (a.outbuf, a.outbufLen) ↔ x.length ≤ a.outbufLen + 16) := by
  have hplain : (decryptBlocks avars x).length = x.length := by
    rw [length_decryptBlocks]
    omega
  have hload : a.outbuf.load 0 a.outbufLen =
      some ((decryptBlocks avars x).take a.outbufLen) := by
    rw [h.outbuf, load_filled (by omega), slice_zero_eq_take]
  have hlen : a.outbuf.length = x.length := by
    rw [h.outbuf, length_filled, hplain, hwhole, Nat.add_zero]
  refine ⟨hload, ?_⟩
  rw [SafeWrite, hlen, hload]
  constructor
  · rintro ⟨_, htrim, _⟩
    exact htrim
  · intro htrim
    exact ⟨hle, htrim, Option.some_ne_none _⟩

theorem triple_useDecWork {W W' : List (Buffer × Nat) → Prop} {o bs : Bytes}
    {a : EncThreadArgs} (hpos : 0 < a.outbufLen)
    (hload : a.outbuf.load 0 a.outbufLen = some bs)
    (hwrite : ∀ ws, W ws → W' (ws ++ [(a.outbuf, a.outbufLen)]))
    (hfault : env.Faulty → ∀ s, E (.ret (-1)) s) :
    Triple (OutIs o W) (useDecWork env b t a) (fun _ => OutIs (o ++ bs) W') E :=
  Triple.bind (triple_fwriteItem hpos hload hwrite fun hfails s _ =>
    hfault ⟨_, hfails⟩ s) fun _ => triple_emit logFree_outIs _

/-- The work on a whole chunk is appended to the output, by a safe write. -/
theorem triple_useDecWork_full {W : List (Buffer × Nat) → Prop} (hW : Extends W)
    (hn : data.length < 2 ^ 63) (hne : data.length ≠ p.maxBytesPerBatch)
    (hfault : env.Faulty → ∀ s, E (.ret (-1)) s)
    (hfull : p.Full data.length b t) {a : EncThreadArgs}
    (ha : Worked EncThreadArgs.returnVal
      ((decJob p.toThreadPlan env data.length (some data) avars).work b t
        (decSlot p data avars b t)) a) :
    Triple (OutIs (decryptBlocks avars (data.take (p.offset b t))) W)
      (useDecWork env b t a)
      (fun _ => OutIs (decryptBlocks avars
        (data.take (p.offset b t + p.threadMaxMem))) W) E := by
  have hle := p.offset_of_full hne hfull
  obtain ⟨_, hdec⟩ := decWorked hn hne (.inl hfull) ha
  rw [p.irReadlen_of_full hn hne hfull, p.isLast_of_full hn hne hfull] at hdec
  have hchunk := @length_slice_of_le _ data (p.offset b t) p.threadMaxMem
    (by omega)
  have hmod : (slice data (p.offset b t) p.threadMaxMem).length % 16 = 0 := by
    rw [hchunk]
    exact Nat.mod_eq_zero_of_dvd p.block_dvd
  have hlen : a.outbufLen =
      (slice data (p.offset b t) p.threadMaxMem).length := by
    rw [hdec.outbufLen, trimmedLen_of_not (by simp)]
  obtain ⟨hload, hsafe⟩ := hdec.safeWrite hmod (Nat.le_of_eq hlen)
  have hplain : (decryptBlocks avars
      (slice data (p.offset b t) p.threadMaxMem)).length ≤ a.outbufLen := by
    rw [length_decryptBlocks]
    omega
  rw [List.take_of_length_le hplain] at hload
  rw [← take_append_slice,
    decryptBlocks_append (dvd_length_take_offset (by omega))]
  have hpos := p.threadMaxMem_pos
  exact triple_useDecWork (by omega) hload
    (fun ws hws => hW ws _ hws (hsafe.mpr (by omega))) hfault

end Threads

section Files

variable {p : BlockPlan} {env : Env} {E : Exit → IoState → Prop}
  {key : Key} {avars : EncAesVars} {c : FileData}

/-- `dec_file` from what is done with the work of its last thread. -/
theorem triple_decFileWith_of_last {W : List (Buffer × Nat) → Prop}
    {R : IoState → Prop} (hW : Extends W) (hR : LogFree R)
    (havars : encAesVars key = some avars)
    (hne : c.size ≠ p.maxBytesPerBatch)
    (hnb : (c.size / p.maxBytesPerBatch + 1) % 2 ^ 32 ≠ 0)
    (hfault : env.Faulty → ∀ s, E (.ret (-1)) s)
    (hundef : 2 ^ 31 ≤ p.lastLen c.size → ∀ s, E .undefined s)
    (hlast : ∀ b t, p.Last c.size b t → 16 * (p.lastLen c.size / 16) < 2 ^ 31 →
      ∀ a, Decrypted avars 1 (slice c.bytes (p.offset b t) (p.lastLen c.size)) a →
        Triple (OutIs (decryptBlocks avars (c.bytes.take (p.offset b t))) W)
          (useDecWork env b t a) (fun _ => R) E) :
    Triple (OutIs [] W) (decFileWith p.toThreadPlan env c.size (some c.bytes) key)
      (fun _ => R) E := by
  have hstart : OutIs [] W =
      OutIs (decryptBlocks avars (c.bytes.take 0)) W := by
    rw [List.take_zero, decryptBlocks, mapBlocks_nil]
  refine triple_cryptFile logFree_outIs hR hfault havars ?_
  rw [hstart]
  refine triple_runBatches
    (fun off => OutIs (decryptBlocks avars (c.bytes.take off)) W)
    (fun _ => logFree_outIs) hfault c.length_lt hne (numBatches_pos hne hnb)
    (decThreadsRun c.length_lt hne hfault hundef) ?_ ?_
  · intro b t hfull a ha
    exact triple_useDecWork_full hW c.length_lt hne hfault hfull ha
  · intro b t hend a ha
    obtain ⟨hint, hdec⟩ := decWorked c.length_lt hne (.inr hend) ha
    rw [p.irReadlen_of_last c.length_lt hne hend] at hint hdec
    rw [p.isLast_of_last c.length_lt hne hend] at hdec
    exact hlast b t hend hint a hdec

/-- The last byte of the decryption of the last block of a file. -/
def lastPadByte (avars : EncAesVars) (c : Bytes) : Nat :=
  ((decryptBytes avars (c.drop (c.length - 16))).getLastD 0).toNat

theorem getLastD_append {xs ys : Bytes} (h : ys ≠ []) :
    (xs ++ ys).getLastD 0 = ys.getLastD 0 := by
  rcases List.eq_nil_or_concat ys with rfl | ⟨init, last, rfl⟩
  · exact absurd rfl h
  · rw [List.concat_eq_append, ← List.append_assoc]
    simp

/-- The last thread reads the number of padding bytes off the last block. -/
theorem numPadBytes_eq {x : Bytes} (hwhole : x.length % 16 = 0)
    (hpos : x ≠ []) : numPadBytes avars x = lastPadByte avars x := by
  have hlen := List.length_pos_iff.mpr hpos
  have hdvd : 16 ∣ (x.take (x.length - 16)).length := by
    rw [List.length_take]
    omega
  have hblock : (x.drop (x.length - 16)).length = 16 := by
    rw [List.length_drop]
    omega
  have hne : decryptBytes avars (x.drop (x.length - 16)) ≠ [] := by
    apply List.length_pos_iff.mp
    rw [length_decryptBytes]
    decide
  have hsplit := @decryptBlocks_append avars _ hdvd (x.drop (x.length - 16))
  rw [List.take_append_drop] at hsplit
  have hlast : decryptBlocks avars (x.drop (x.length - 16)) =
      decryptBytes avars (x.drop (x.length - 16)) :=
    mapBlocks_block (by decide) _ hblock
  rw [numPadBytes, hsplit, hlast, getLastD_append hne, lastPadByte]

section LastThread

variable {data : Bytes} {b t : Nat} {a : EncThreadArgs}

/-- The number of padding bytes of the last chunk is that of the file. -/
theorem numPadBytes_last (hne : data.length ≠ p.maxBytesPerBatch)
    (hlast : p.Last data.length b t) (hwhole : data.length % 16 = 0)
    (hpos : 0 < p.lastLen data.length) :
    numPadBytes avars (slice data (p.offset b t) (p.lastLen data.length)) =
      lastPadByte avars data := by
  have hoff := p.offset_of_last hne hlast
  have hdvd := block_dvd_offset p b t
  have hlen : (data.drop (p.offset b t)).length = p.lastLen data.length := by
    rw [List.length_drop]
    omega
  have hchunk : slice data (p.offset b t) (p.lastLen data.length) =
      data.drop (p.offset b t) := by
    rw [slice, ← hlen, List.take_length]
  have hend : p.offset b t + (p.lastLen data.length - 16) =
      data.length - 16 := by
    omega
  rw [hchunk, numPadBytes_eq (by omega) (List.length_pos_iff.mp (by omega)),
    lastPadByte, lastPadByte, List.drop_drop, hlen, hend]

/-- The length the last thread hands to `fwrite`. -/
theorem trimmedLen_last (hne : data.length ≠ p.maxBytesPerBatch)
    (hlast : p.Last data.length b t) (hwhole : data.length % 16 = 0)
    (hpos : 0 < p.lastLen data.length)
    (hdec : Decrypted avars 1
      (slice data (p.offset b t) (p.lastLen data.length)) a) :
    a.outbufLen = toSizeT (p.lastLen data.length - lastPadByte avars data) := by
  have hoff := p.offset_of_last hne hlast
  have hdvd := block_dvd_offset p b t
  have hlen := @length_slice_of_le _ data (p.offset b t)
    (p.lastLen data.length) (by omega)
  have hmod : (slice data (p.offset b t) (p.lastLen data.length)).length % 16 =
      0 := by
    omega
  have hchunk : slice data (p.offset b t) (p.lastLen data.length) ≠ [] :=
    List.length_pos_iff.mp (by omega)
  rw [hdec.outbufLen, trimmedLen, if_pos ⟨rfl, hmod, hchunk⟩, hlen,
    numPadBytes_last hne hlast hwhole hpos]

section Use

variable {E : Exit → IoState → Prop}
  (hne : data.length ≠ p.maxBytesPerBatch) (hlast : p.Last data.length b t)
  (hdec : Decrypted avars 1
    (slice data (p.offset b t) (p.lastLen data.length)) a)

include hne hlast hdec

/-- The last thread writes what the padding byte leaves of its chunk. -/
theorem triple_useDecWork_last {W W' : List (Buffer × Nat) → Prop}
    (hn : data.length < 2 ^ 63) (hwhole : data.length % 16 = 0)
    (hpad : lastPadByte avars data < p.lastLen data.length)
    (hwrite : ∀ ws w, W ws → (SafeWrite w ↔ lastPadByte avars data ≤ 16) →
      W' (ws ++ [w]))
    (hfault : env.Faulty → ∀ s, E (.ret (-1)) s) :
    Triple (OutIs (decryptBlocks avars (data.take (p.offset b t))) W)
      (useDecWork env b t a)
      (fun _ => OutIs ((decryptBlocks avars data).take
        (data.length - lastPadByte avars data)) W') E := by
  have hoff := p.offset_of_last hne hlast
  have hdvd := block_dvd_offset p b t
  have hchunk := @length_slice_of_le _ data (p.offset b t)
    (p.lastLen data.length) (by omega)
  have hlen : a.outbufLen =
      p.lastLen data.length - lastPadByte avars data := by
    rw [trimmedLen_last hne hlast hwhole (by omega) hdec, toSizeT]
    omega
  obtain ⟨hload, hsafe⟩ := hdec.safeWrite (by omega) (by omega)
  have hprefix : (decryptBlocks avars (data.take (p.offset b t))).length =
      p.offset b t := by
    rw [length_decryptBlocks, List.length_take]
    omega
  have hsplit : decryptBlocks avars data =
      decryptBlocks avars (data.take (p.offset b t)) ++
        decryptBlocks avars
          (slice data (p.offset b t) (p.lastLen data.length)) := by
    rw [← decryptBlocks_append (dvd_length_take_offset (by omega)),
      take_append_slice, hoff, List.take_length]
  have hout : (decryptBlocks avars data).take
        (data.length - lastPadByte avars data) =
      decryptBlocks avars (data.take (p.offset b t)) ++
        (decryptBlocks avars
          (slice data (p.offset b t) (p.lastLen data.length))).take
            a.outbufLen := by
    have hcut : data.length - lastPadByte avars data =
        (decryptBlocks avars (data.take (p.offset b t))).length +
          a.outbufLen := by
      omega
    rw [hcut, hsplit, List.take_length_add_append]
  rw [hout]
  refine triple_useDecWork (by omega) hload (fun ws hws => ?_) hfault
  refine hwrite ws _ hws (hsafe.trans ?_)
  omega

/-- With nothing left to write the last thread makes `dec_file` return `-1`. -/
theorem triple_useDecWork_empty {P : IoState → Prop}
    {Q : PUnit → IoState → Prop}
    (hempty : p.lastLen data.length = 0 ∨ data.length % 16 = 0 ∧
      lastPadByte avars data = p.lastLen data.length)
    (hret : ∀ s, E (.ret (-1)) s) :
    Triple P (useDecWork env b t a) Q E := by
  have hlen : a.outbufLen = 0 := by
    by_cases hzero : p.lastLen data.length = 0
    · rw [hdec.outbufLen, hzero]
      rfl
    · obtain ⟨hwhole, hpad⟩ := hempty.resolve_left hzero
      rw [trimmedLen_last hne hlast hwhole (by omega) hdec, toSizeT]
      omega
  refine Triple.bind_stop ?_
  rw [hlen]
  exact triple_fwriteItem_empty hret

/-- Stranded bytes, or a padding byte above the length of the chunk, make the
last thread write bytes that were never stored. -/
theorem triple_useDecWork_undefined {P : IoState → Prop}
    {Q : PUnit → IoState → Prop} (hn : data.length < 2 ^ 63)
    (hpos : 0 < p.lastLen data.length)
    (hbad : data.length % 16 ≠ 0 ∨
      p.lastLen data.length < lastPadByte avars data)
    (hundef : ∀ s, E .undefined s) :
    Triple P (useDecWork env b t a) Q E := by
  have hoff := p.offset_of_last hne hlast
  have hdvd := block_dvd_offset p b t
  have hchunk := @length_slice_of_le _ data (p.offset b t)
    (p.lastLen data.length) (by omega)
  have hplain : (decryptBlocks avars (slice data (p.offset b t)
      (p.lastLen data.length))).length = 16 * (p.lastLen data.length / 16) := by
    rw [length_decryptBlocks, hchunk]
  have hbyte : lastPadByte avars data < 256 := UInt8.toNat_lt _
  have hlong : 16 * (p.lastLen data.length / 16) < a.outbufLen := by
    by_cases hwhole : data.length % 16 = 0
    · rw [trimmedLen_last hne hlast hwhole hpos hdec, toSizeT]
      omega
    · rw [hdec.outbufLen, trimmedLen_of_not (by omega)]
      omega
  have hload : a.outbuf.load 0 a.outbufLen = none := by
    rw [hdec.outbuf]
    exact load_filled_eq_none (by omega)
  exact Triple.bind_stop
    (triple_fwriteItem_undefined (by omega) hload hundef)

end Use

end LastThread

section Outcomes

variable {W W' : List (Buffer × Nat) → Prop}

/-- `dec_file` strips the padding and writes the rest, unless a library call
fails. -/
theorem triple_decFileWith (hW : Extends W)
    (hwrite : ∀ ws w, W ws → (SafeWrite w ↔ lastPadByte avars c.bytes ≤ 16) →
      W' (ws ++ [w]))
    (havars : encAesVars key = some avars)
    (hfit : c.size / p.maxBytesPerBatch + 1 < 2 ^ 32)
    (hwhole : c.size % 16 = 0)
    (hpad : lastPadByte avars c.bytes < c.size % p.threadMaxMem)
    (hfault : env.Faulty → ∀ s, E (.ret (-1)) s) :
    Triple (OutIs [] W) (decFileWith p.toThreadPlan env c.size (some c.bytes) key)
      (fun _ => OutIs ((decryptBlocks avars c.bytes).take
        (c.size - lastPadByte avars c.bytes)) W') E := by
  have hne : c.size ≠ p.maxBytesPerBatch := ne_maxBytesPerBatch (by omega)
  have hlen : p.lastLen c.size = c.size % p.threadMaxMem := lastLen_of_fits hfit
  have hK := threadMaxMem_lt p.toValidPlan
  have hlt := Nat.mod_lt c.size p.threadMaxMem_pos
  refine triple_decFileWith_of_last hW logFree_outIs havars hne
    (succ_mod_ne_zero hfit) hfault (fun hbig => absurd hbig (by omega)) ?_
  intro b t hlast _ a hdec
  exact triple_useDecWork_last hne hlast hdec c.length_lt hwhole
    (hlen ▸ hpad) hwrite hfault

/-- A file whose last thread has nothing to write makes `dec_file` return
`-1`. -/
theorem triple_decFileWith_empty (havars : encAesVars key = some avars)
    (hne : c.size ≠ p.maxBytesPerBatch)
    (hfit : c.size / p.maxBytesPerBatch + 1 < 2 ^ 32)
    (hempty : c.size % p.threadMaxMem = 0 ∨ c.size % 16 = 0 ∧
      lastPadByte avars c.bytes = c.size % p.threadMaxMem)
    (hret : ∀ s, E (.ret (-1)) s) :
    Triple (Written []) (decFileWith p.toThreadPlan env c.size (some c.bytes) key)
      (fun _ _ => False) E := by
  have hlen : p.lastLen c.size = c.size % p.threadMaxMem := lastLen_of_fits hfit
  have hK := threadMaxMem_lt p.toValidPlan
  have hlt := Nat.mod_lt c.size p.threadMaxMem_pos
  refine triple_decFileWith_of_last (fun _ _ _ _ => trivial)
    (logFree_const False) havars hne (succ_mod_ne_zero hfit) (fun _ => hret)
    (fun hbig => absurd hbig (by omega)) ?_
  intro b t hlast _ a hdec
  exact triple_useDecWork_empty hne hlast hdec (hlen ▸ hempty) hret

/-- What `dec_file` does on every other file has no meaning: the table is too
short, the block loop overflows, or bytes that were never stored are
written. -/
theorem triple_decFileWith_undefined (havars : encAesVars key = some avars)
    (hnb : (c.size / p.maxBytesPerBatch + 1) % 2 ^ 32 ≠ 0)
    (hbad : c.size = p.maxBytesPerBatch ∨
      ¬ c.size / p.maxBytesPerBatch + 1 < 2 ^ 32 ∨
      c.size % p.threadMaxMem ≠ 0 ∧ (c.size % 16 ≠ 0 ∨
        c.size % p.threadMaxMem < lastPadByte avars c.bytes))
    (hfault : env.Faulty → ∀ s, E (.ret (-1)) s)
    (hundef : ∀ s, E .undefined s) :
    Triple (Written []) (decFileWith p.toThreadPlan env c.size (some c.bytes) key)
      (fun _ _ => False) E := by
  by_cases hne : c.size = p.maxBytesPerBatch
  · have hsize : (c.size : Int) = p.maxBytesPerBatch := congrArg _ hne
    refine triple_cryptFile logFree_outIs (logFree_const False) hfault havars ?_
    rw [hsize]
    refine triple_runBatches_overflow hundef fun t _ => ?_
    have hset := @triple_setEncArgs p env E c.bytes avars 0 t (Written [])
      logFree_outIs hfault p.maxBytesPerBatch
      (fun last irReadlen => if last then irReadlen else p.threadMaxMem)
      fun last => some (if last then 1 else 0)
    exact hset.post fun _ _ hs => hs.2
  · refine triple_decFileWith_of_last (fun _ _ _ _ => trivial)
      (logFree_const False) havars hne hnb hfault (fun _ => hundef) ?_
    intro b t hlast hint a hdec
    by_cases hfit : c.size / p.maxBytesPerBatch + 1 < 2 ^ 32
    · have hlen : p.lastLen c.size = c.size % p.threadMaxMem :=
        lastLen_of_fits hfit
      obtain ⟨hpos, hstored⟩ :=
        (hbad.resolve_left hne).resolve_left (not_not_intro hfit)
      have hlastPos : 0 < p.lastLen c.size := by
        rw [hlen]
        exact Nat.pos_of_ne_zero hpos
      exact triple_useDecWork_undefined hne hlast hdec c.length_lt hlastPos
        (hlen ▸ hstored) hundef
    · have hlong : 2 ^ 32 ≤ p.lastLen c.size := le_lastLen_of_not_fits hfit
      omega

end Outcomes

end Files

/-- `dec_file` on a file that exists. -/
def decFileOf (env : Env) (c : FileData) (key : Key) :
    EStateM.Result Exit IoState PUnit :=
  decFile env c.size (some c.bytes) key .empty

/-- The last byte of the last block under the key's decryption. -/
def padByteOf (key : Key) (c : Bytes) : Nat :=
  ((encAesVars key).map fun avars => lastPadByte avars c).getD 0

theorem padByteOf_eq {key : Key} {avars : EncAesVars}
    (havars : encAesVars key = some avars) (c : Bytes) :
    padByteOf key c = lastPadByte avars c := by
  rw [padByteOf, havars]
  rfl

section Returns

variable {env : Env} {key : Key} {avars : EncAesVars} {c : FileData}

theorem extends_true : Extends fun _ => True := fun _ _ _ _ => trivial

/-- Without a batch `dec_file` writes nothing and returns zero. -/
theorem decFileOf_none (env : ReliableEnv)
    (hnb : (c.size / 16777216 + 1) % 2 ^ 32 = 0) :
    exitCode (decFileOf env.toEnv c key) = some 0 ∧
      (finalState (decFileOf env.toEnv c key)).out = [] := by
  obtain ⟨avars, havars, _⟩ := encAesVars_inverse key
  have hrun := @triple_cryptFile_none env.toEnv key avars encPlan.toThreadPlan
    c.size (decJob encPlan.toThreadPlan env.toEnv c.size (some c.bytes))
    (Written []) logFree_outIs havars (numBatches_eq_zero hnb)
  have hout := exitCode_zero hrun written_empty fun e s hs => env.not_faulty hs.2
  exact ⟨hout.1, hout.2.1⟩

/-- In an unfailing environment the padding is stripped when the last thread
keeps a byte. -/
theorem decFileOf_reliable (env : ReliableEnv)
    (havars : encAesVars key = some avars)
    (hfit : c.size / 16777216 + 1 < 2 ^ 32) (hwhole : c.size % 16 = 0)
    (hpad : lastPadByte avars c.bytes < c.size % 4194304) :
    exitCode (decFileOf env.toEnv c key) = some 0 ∧
      (finalState (decFileOf env.toEnv c key)).out =
        (decryptBlocks avars c.bytes).take
          (c.size - lastPadByte avars c.bytes) := by
  have hrun := @triple_decFileWith encPlan env.toEnv (FaultOnly env.toEnv) key
    avars c (fun _ => True) (fun _ => True) extends_true
    (fun _ _ _ _ => trivial) havars hfit hwhole hpad faultOnly_ret
  have hout := exitCode_zero hrun written_empty fun e s hs => env.not_faulty hs.2
  exact ⟨hout.1, hout.2.1⟩

/-- When `dec_file` fails: it returns a nonzero code, or what it does has no
meaning. -/
theorem decFileOf_fails (havars : encAesVars key = some avars)
    (hnb : (c.size / 16777216 + 1) % 2 ^ 32 ≠ 0)
    (hbad : ¬ (c.size / 16777216 + 1 < 2 ^ 32 ∧ c.size % 16 = 0 ∧
      lastPadByte avars c.bytes < c.size % 4194304)) :
    exitCode (decFileOf env c key) ≠ some 0 := by
  have hfault : env.Faulty → ∀ s, NonZero (.ret (-1)) s := fun _ => nonZero_ret
  have hrun : Triple (Written []) (decFileWith encPlan.toThreadPlan env c.size
      (some c.bytes) key) (fun _ _ => False) NonZero := by
    by_cases hundef : c.size = 16777216 ∨ ¬ c.size / 16777216 + 1 < 2 ^ 32 ∨
        c.size % 4194304 ≠ 0 ∧ (c.size % 16 ≠ 0 ∨
          c.size % 4194304 < lastPadByte avars c.bytes)
    · exact triple_decFileWith_undefined havars hnb hundef hfault
        nonZero_undefined
    · have hne : c.size ≠ 16777216 := fun heq => hundef (.inl heq)
      have hfit : c.size / 16777216 + 1 < 2 ^ 32 := by
        by_contra hlong
        exact hundef (.inr (.inl hlong))
      refine triple_decFileWith_empty havars hne hfit ?_ nonZero_ret
      by_cases hzero : c.size % 4194304 = 0
      · exact .inl hzero
      · have hstored : ¬ (c.size % 16 ≠ 0 ∨
            c.size % 4194304 < lastPadByte avars c.bytes) :=
          fun hor => hundef (.inr (.inr ⟨hzero, hor⟩))
        right
        change c.size % 16 = 0 ∧ lastPadByte avars c.bytes = c.size % 4194304
        omega
  exact fun hcode =>
    exitCode_zero_imp hrun written_empty (fun _ hs => hs rfl) hcode

/-- The returns of `dec_file`: zero comes with the decrypted blocks less the
padding, or with an empty file when the number of batches was narrowed to
zero. -/
theorem decFileOf_zero (havars : encAesVars key = some avars)
    (h : exitCode (decFileOf env c key) = some 0) :
    (c.size / 16777216 + 1 < 2 ^ 32 ∧ c.size % 16 = 0 ∧
        lastPadByte avars c.bytes < c.size % 4194304) ∧
        (finalState (decFileOf env c key)).out =
          (decryptBlocks avars c.bytes).take
            (c.size - lastPadByte avars c.bytes) ∨
      (c.size / 16777216 + 1) % 2 ^ 32 = 0 ∧
        (finalState (decFileOf env c key)).out = [] := by
  have hnotRet : ∀ s, ¬ FaultOnly env (.ret 0) s := by
    rintro s ⟨hret, _⟩
    cases hret
  by_cases hnb : (c.size / 16777216 + 1) % 2 ^ 32 = 0
  · right
    have hrun := @triple_cryptFile_none env key avars encPlan.toThreadPlan
      c.size (decJob encPlan.toThreadPlan env c.size (some c.bytes))
      (Written []) logFree_outIs havars (numBatches_eq_zero hnb)
    exact ⟨hnb, (exitCode_zero_imp hrun written_empty hnotRet h).1⟩
  · left
    by_cases hgood : c.size / 16777216 + 1 < 2 ^ 32 ∧ c.size % 16 = 0 ∧
        lastPadByte avars c.bytes < c.size % 4194304
    · obtain ⟨hfit, hwhole, hpad⟩ := hgood
      have hrun := @triple_decFileWith encPlan env (FaultOnly env) key avars c
        (fun _ => True) (fun _ => True) extends_true (fun _ _ _ _ => trivial)
        havars hfit hwhole hpad faultOnly_ret
      exact ⟨⟨hfit, hwhole, hpad⟩,
        (exitCode_zero_imp hrun written_empty hnotRet h).1⟩
    · exact absurd h (decFileOf_fails havars hnb hgood)

/-- A run that hands `fwrite` only what was decrypted, or returns a nonzero
code. -/
def WithinBuffers (r : EStateM.Result Exit IoState PUnit) : Prop :=
  (∃ code, code ≠ 0 ∧ exitCode r = some code) ∨
    exitCode r = some 0 ∧ ∀ w ∈ (finalState r).writes, SafeWrite w

/-- Every call of `fwrite` so far was safe. -/
def AllSafe (ws : List (Buffer × Nat)) : Prop := ∀ w ∈ ws, SafeWrite w

theorem extends_allSafe : Extends AllSafe := by
  intro ws w hws hw v hv
  rcases List.mem_append.mp hv with hold | hnew
  · exact hws v hold
  · exact List.mem_singleton.mp hnew ▸ hw

theorem withinBuffers_of_triple {x : Prog PUnit} {o : Bytes}
    {P E} (h : Triple P x (fun _ => OutIs o AllSafe) E) {s : IoState} (hs : P s)
    (hE : ∀ e s, E e s → e = .ret (-1)) : WithinBuffers (x s) := by
  have hx := h.run s hs
  cases hrun : x s with
  | ok a s' =>
      rw [hrun] at hx
      exact .inr ⟨rfl, hx.2⟩
  | error e s' =>
      rw [hrun] at hx
      obtain rfl := hE e s' hx
      exact .inl ⟨-1, by decide, rfl⟩

theorem outIs_empty_allSafe : OutIs [] AllSafe IoState.empty := by
  refine ⟨rfl, ?_⟩
  intro w hw
  cases hw

theorem triple_false {x : Prog PUnit} {P E} {Q : PUnit → IoState → Prop}
    (h : Triple P x (fun _ _ => False) E) : Triple P x Q E :=
  h.post fun _ _ hs => hs.elim

/-- The bytes on which `dec_file` stays within its buffers. -/
def DecodesWithin (n pad : Nat) : Prop :=
  (n / 16777216 + 1) % 2 ^ 32 = 0 ∨
    n ≠ 16777216 ∧ n / 16777216 + 1 < 2 ^ 32 ∧
      (n % 4194304 = 0 ∨ n % 16 = 0 ∧ (pad ≤ 16 ∨ pad = n % 4194304))

theorem withinBuffers_of (havars : encAesVars key = some avars)
    (h : DecodesWithin c.size (lastPadByte avars c.bytes)) (env : Env) :
    WithinBuffers (decFileOf env c key) := by
  rcases h with hnb | ⟨hne, hfit, hpad⟩
  · have hrun := @triple_cryptFile_none env key avars encPlan.toThreadPlan
      c.size (decJob encPlan.toThreadPlan env c.size (some c.bytes))
      (OutIs [] AllSafe) logFree_outIs havars (numBatches_eq_zero hnb)
    exact withinBuffers_of_triple hrun outIs_empty_allSafe fun _ _ hs => hs.1
  · by_cases hempty : c.size % 4194304 = 0 ∨ c.size % 16 = 0 ∧
        lastPadByte avars c.bytes = c.size % 4194304
    · have hrun := @triple_decFileWith_empty encPlan env
        (fun e _ => e = .ret (-1)) key avars c havars hne hfit hempty
        fun _ => rfl
      exact withinBuffers_of_triple (o := []) (triple_false hrun)
        written_empty fun _ _ hs => hs
    · obtain ⟨hwhole, hlt, hbyte⟩ : c.size % 16 = 0 ∧
          lastPadByte avars c.bytes < c.size % 4194304 ∧
          lastPadByte avars c.bytes ≤ 16 := by
        omega
      have hrun := @triple_decFileWith encPlan env (FaultOnly env) key avars c
        AllSafe AllSafe extends_allSafe
        (fun ws w hws hw => extends_allSafe ws w hws (hw.mpr hbyte))
        havars hfit hwhole hlt faultOnly_ret
      exact withinBuffers_of_triple hrun outIs_empty_allSafe fun _ _ hs => hs.1

/-- Outside of these bytes the run has no meaning, or the last call of `fwrite`
leaves out more than a block. -/
theorem not_withinBuffers_of (havars : encAesVars key = some avars)
    (h : ¬ DecodesWithin c.size (lastPadByte avars c.bytes))
    (env : ReliableEnv) : ¬ WithinBuffers (decFileOf env.toEnv c key) := by
  have hnb : (c.size / 16777216 + 1) % 2 ^ 32 ≠ 0 := fun heq => h (.inl heq)
  by_cases hgood : c.size / 16777216 + 1 < 2 ^ 32 ∧ c.size % 16 = 0 ∧
      lastPadByte avars c.bytes < c.size % 4194304
  · obtain ⟨hfit, hwhole, hlt⟩ := hgood
    have hbyte : ¬ lastPadByte avars c.bytes ≤ 16 := by
      intro hle
      exact h (.inr ⟨by omega, hfit, .inr ⟨hwhole, .inl hle⟩⟩)
    have hrun := @triple_decFileWith encPlan env.toEnv (FaultOnly env.toEnv) key
      avars c (fun _ => True) (fun ws => ∃ w ∈ ws, ¬ SafeWrite w) extends_true
      (fun ws w _ hw => ⟨w, List.mem_append_right ws (List.mem_singleton_self w),
        fun hsafe => hbyte (hw.mp hsafe)⟩)
      havars hfit hwhole hlt faultOnly_ret
    obtain ⟨hcode, _, w, hw, hunsafe⟩ :=
      exitCode_zero hrun written_empty fun e s hs => env.not_faulty hs.2
    rintro (⟨code, hne, hval⟩ | ⟨_, hall⟩)
    · exact hne (Option.some.inj (hval.symm.trans hcode))
    · exact hunsafe (hall w hw)
  · have hundef : c.size = 16777216 ∨ ¬ c.size / 16777216 + 1 < 2 ^ 32 ∨
        c.size % 4194304 ≠ 0 ∧ (c.size % 16 ≠ 0 ∨
          c.size % 4194304 < lastPadByte avars c.bytes) := by
      unfold DecodesWithin at h
      omega
    have hrun := @triple_decFileWith_undefined encPlan env.toEnv
      (fun e _ => e = .undefined) key avars c havars hnb hundef
      (fun hfaulty => absurd hfaulty env.not_faulty) fun _ => rfl
    have hnone : exitCode (decFileOf env.toEnv c key) = none :=
      exitCode_none hrun written_empty
    rintro (⟨code, _, hval⟩ | ⟨hval, _⟩)
    · cases hnone.symm.trans hval
    · cases hnone.symm.trans hval

/-- `dec_file` stays within its buffers on received bytes exactly when it has
no batch at all, or a batch for every byte and its last thread reads nothing,
or whole blocks of which the padding byte is at most a block or the whole
chunk. -/
theorem decFile_withinBuffers_iff (c : FileData) (key : Key) :
    (∀ env, WithinBuffers (decFileOf env c key)) ↔
      DecodesWithin c.size (padByteOf key c.bytes) := by
  obtain ⟨avars, havars, _⟩ := encAesVars_inverse key
  rw [padByteOf_eq havars]
  constructor
  · intro hall
    by_contra hbad
    exact not_withinBuffers_of havars hbad inOrderEnv (hall inOrderEnv.toEnv)
  · intro h env
    exact withinBuffers_of havars h env

/-- On a file of one byte, that byte's place is written although no block was
decrypted. -/
theorem decFile_not_withinBuffers_zeros :
    ¬ WithinBuffers (decFileOf inOrderEnv.toEnv (.zeros 1 (by decide))
      (Vector.replicate 4 0)) := by
  obtain ⟨avars, havars, _⟩ := encAesVars_inverse (Vector.replicate 4 0)
  refine not_withinBuffers_of havars ?_ inOrderEnv
  rw [DecodesWithin, FileData.size, FileData.length_zeros]
  omega

end Returns

end EcFtp
