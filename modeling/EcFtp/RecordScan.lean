/-
The record scanner of `uncomp_file`: how its two positions, its reader and its header
stream move from record to record, on any file and in every run.
-/
import EcFtp.CompFile
import EcFtp.UncompSafety

namespace EcFtp

open ByteStrings Exec

/-- The bytes of a record: its header, its props and its data. -/
def EcHeader.recordLen (h : EcHeader) : Nat := ecHeaderSize + h.bodySize

/-- The sum of the sizes of the records with these headers. -/
def recordsLen (headers : List EcHeader) : Nat := (headers.map EcHeader.recordLen).sum

@[simp] theorem recordsLen_nil : recordsLen [] = 0 := rfl

@[simp] theorem recordsLen_concat (headers : List EcHeader) (h : EcHeader) :
    recordsLen (headers ++ [h]) = recordsLen headers + h.recordLen := by
  simp [recordsLen]

/-- Where `uncomp_file` stands before it reads a header, or runs a batch: the headers it
has read so far, the slots of the batch, what its loop carries, and what it has done. -/
structure Scanner where
  batch : Nat
  thread : Nat
  headers : List EcHeader
  args : List CompThreadArgs
  state : UncompState
  io : IoState

/-- Both streams are open. -/
def Scanner.start (data : Bytes) : Scanner where
  batch := 0
  thread := 0
  headers := []
  args := []
  state := ⟨.ofData data, data.length, 0⟩
  io := ⟨[], [], [.opened .header, .opened .out]⟩

section Steps

variable (lzma : Lzma) (env : Env) (data : Bytes)

/-- There is a thread left, and `while (bytes_left > 0)` has let the batch begin. -/
def Scanner.Wants (c : Scanner) : Prop :=
  c.thread < compPlan.maxThreads ∧ (c.thread = 0 → 0 < c.state.bytesLeft)

/-- What `read_ec_header` returns, and the stream it leaves. -/
def Scanner.read (c : Scanner) : Except Int EcHeader × FILE :=
  readEcHeader
    (fun field => env.fails (.freadHeader c.batch c.thread field)) c.state.inFile

/-- The header `h` is read in full. -/
def Scanner.Reads (c : Scanner) (h : EcHeader) (inFile : FILE) : Prop :=
  c.Wants ∧ c.read env = (.ok h, inFile)

/-- STA2 to STA7 for the record with the header `h`. -/
def Scanner.setUp (c : Scanner) (h : EcHeader) (inFile : FILE) :
    EStateM.Result Exit IoState (CompThreadArgs × UncompState) :=
  setUncompArgs env data c.batch c.thread h { c.state with inFile } c.io

/-- The batch has a record for each thread, or the file has ended. -/
inductive Scanner.Full (c : Scanner) : FILE → Prop
  | all (h : c.thread = compPlan.maxThreads) : c.Full c.state.inFile
  | atEnd {code : Int} {inFile : FILE} (hwants : c.Wants)
      (hread : c.read env = (.error code, inFile)) (heof : inFile.eof = true) :
        c.Full inFile

/-- A record is set up, or the threads of a batch run and their work is used. -/
inductive ScanStep : Scanner → Scanner → Prop
  | record {c : Scanner} {h : EcHeader} {inFile : FILE} {arg : CompThreadArgs}
      {state : UncompState} {io : IoState} (hread : c.Reads env h inFile)
      (hset : c.setUp env data h inFile = .ok (arg, state) io) :
      ScanStep c { batch := c.batch, thread := c.thread + 1, headers := c.headers ++ [h],
                   args := c.args ++ [arg], state, io }
  | batch {c : Scanner} {inFile : FILE} {io : IoState} (hfull : c.Full env inFile)
      (hrun : runUncompThreads lzma env c.batch c.args c.io = .ok ⟨⟩ io) :
      ScanStep c { batch := c.batch + 1, thread := 0, headers := c.headers, args := [],
                   state := { c.state with inFile }, io }

/-- What the scanner comes to, from record to record. -/
def Scans : Scanner → Scanner → Prop := Relation.ReflTransGen (ScanStep lzma env data)

end Steps

section Reading

variable {f f' : FILE} {fails : Bool} {size : Nat} {bs : Bytes} {hdr : EcHeader}

/-- The end of the file is only seen there. -/
def FILE.SawEnd (f : FILE) : Prop := f.eof = true → f.data.length ≤ f.pos

theorem readField_sawEnd (hf : f.SawEnd) (fails : Bool) (size : Nat) :
    (readField fails size f).2.SawEnd ∧ (readField fails size f).2.data = f.data := by
  cases fails with
  | true => exact ⟨hf, rfl⟩
  | false =>
      refine ⟨fun heof => ?_, rfl⟩
      have hlen := length_slice f.data f.pos size
      have heof : (f.eof || decide ((slice f.data f.pos size).length < size)) = true :=
        heof
      change f.data.length ≤ f.pos + (slice f.data f.pos size).length
      rcases (Bool.or_eq_true _ _).mp heof with hold | hshort
      · have := hf hold
        omega
      · have := of_decide_eq_true hshort
        omega

/-- A field that is read in full lies within the file. -/
theorem readField_some (hsize : 0 < size) (h : readField fails size f = (some bs, f')) :
    f.pos + size ≤ f.data.length ∧ f'.pos = f.pos + size ∧ f'.data = f.data := by
  cases fails with
  | true =>
      have hnone :
          (if ([] : Bytes).length = size then some ([] : Bytes) else none) = some bs :=
        congrArg Prod.fst h
      simp [Nat.ne_of_lt hsize] at hnone
  | false =>
      have hlen := length_slice f.data f.pos size
      have hsome :
          (if (slice f.data f.pos size).length = size then some (slice f.data f.pos size)
          else none) = some bs := congrArg Prod.fst h
      have hfile : (f.read size).2 = f' := congrArg Prod.snd h
      by_cases hfull : (slice f.data f.pos size).length = size
      · rw [← hfile]
        exact ⟨by omega, congrArg (f.pos + ·) hfull, rfl⟩
      · rw [if_neg hfull] at hsome
        cases hsome

/-- Whatever comes of reading a header, the stream is one on the same file. -/
theorem readEcHeader_sawEnd (hf : f.SawEnd) (fails : Nat → Bool) :
    (readEcHeader fails f).2.SawEnd ∧ (readEcHeader fails f).2.data = f.data := by
  have hread₀ := readField_sawEnd hf (fails 0) 1
  unfold readEcHeader
  generalize readField (fails 0) 1 f = r₀ at hread₀ ⊢
  rcases r₀ with ⟨_ | compressed, f₀⟩
  · exact hread₀
  · have hread₁ := readField_sawEnd hread₀.1 (fails 1) 8
    rw [hread₀.2] at hread₁
    simp only
    generalize readField (fails 1) 8 f₀ = r₁ at hread₁ ⊢
    rcases r₁ with ⟨_ | origSize, f₁⟩
    · exact hread₁
    · have hread₂ := readField_sawEnd hread₁.1 (fails 2) 8
      rw [hread₁.2] at hread₂
      simp only
      generalize readField (fails 2) 8 f₁ = r₂ at hread₂ ⊢
      rcases r₂ with ⟨_ | procSize, f₂⟩
      · exact hread₂
      · exact hread₂

/-- A header that is read in full lies within the file. -/
theorem readEcHeader_ok {fails : Nat → Bool} (h : readEcHeader fails f = (.ok hdr, f')) :
    f.pos + ecHeaderSize ≤ f.data.length ∧ f'.pos = f.pos + ecHeaderSize ∧
      f'.data = f.data := by
  unfold readEcHeader at h
  rcases hread₀ : readField (fails 0) 1 f with ⟨_ | compressed, f₀⟩
  · rw [hread₀] at h
    cases h
  · obtain ⟨hfit₀, hpos₀, hdata₀⟩ := readField_some (by decide) hread₀
    simp only [hread₀] at h
    rcases hread₁ : readField (fails 1) 8 f₀ with ⟨_ | origSize, f₁⟩
    · rw [hread₁] at h
      cases h
    · obtain ⟨hfit₁, hpos₁, hdata₁⟩ := readField_some (by decide) hread₁
      simp only [hread₁] at h
      rcases hread₂ : readField (fails 2) 8 f₁ with ⟨_ | procSize, f₂⟩
      · rw [hread₂] at h
        cases h
      · obtain ⟨hfit₂, hpos₂, hdata₂⟩ := readField_some (by decide) hread₂
        simp only [hread₂] at h
        obtain rfl : f₂ = f' := congrArg Prod.snd h
        rw [hdata₁, hdata₀] at hfit₂
        unfold ecHeaderSize
        refine ⟨by omega, by omega, hdata₂.trans (hdata₁.trans hdata₀)⟩

end Reading

section SetUp

variable {env : Env} {data : Bytes} {b t : Nat} {h : EcHeader} {u : UncompState}

/-- What STA2 to STA7 have done where they fall through. -/
structure SetsUp (env : Env) (data : Bytes) (b t : Nat) (h : EcHeader) (u : UncompState)
    (res : CompThreadArgs × UncompState) : Prop where
  malloc : env.fails (.mallocInbuf b t h.procSize) = false
  reader : res.1.inputReader = (FILE.ofData data).seekSet (u.advance ecHeaderSize).curPos
  sought : (u.inFile.seekCur (toOffT h.bodySize)).1 = 0
  state : res.2 = UncompState.advance
    { (u.advance ecHeaderSize).advance h.numPropsBytes with
      inFile := (u.inFile.seekCur (toOffT h.bodySize)).2 } h.procSize

theorem SetsUp.procSize_lt {res : CompThreadArgs × UncompState}
    (hset : SetsUp env data b t h u res)
    (hmalloc : ∀ b t size, 2 ^ 47 ≤ size → env.fails (.mallocInbuf b t size) = true) :
    h.procSize < 2 ^ 47 := by
  by_contra hlarge
  have hfails := hmalloc b t h.procSize (by omega)
  rw [hset.malloc] at hfails
  cases hfails

theorem triple_setsUp :
    Triple (fun _ => True) (setUncompArgs env data b t h u)
      (fun res _ => SetsUp env data b t h u res) fun _ _ => True := by
  have hseek : Triple (fun _ => True) (seekNext env b t h (u.advance ecHeaderSize))
      (fun state _ => ((u.inFile.seekCur (toOffT h.bodySize)).1 = 0 ∧
        state =
          UncompState.advance { (u.advance ecHeaderSize).advance h.numPropsBytes with
          inFile := (u.inFile.seekCur (toOffT h.bodySize)).2 } h.procSize) ∧ True)
      fun _ _ => True := by
    refine Triple.bind (triple_returnIf fun _ _ => trivial) fun _ => ?_
    refine Triple.assume fun hsought => Triple.pure fun _ _ => ⟨⟨?_, rfl⟩, trivial⟩
    exact bne_eq_false_iff_eq.mp (Bool.or_eq_false_iff.mp hsought).1
  refine (triple_setUncompArgs_of (logFree_const True) (fun _ _ => trivial) hseek).post ?_
  rintro res _ ⟨⟨hmalloc, harg, hsought, hstate⟩, _⟩
  exact ⟨hmalloc, congrArg CompThreadArgs.inputReader harg, hsought, hstate⟩

theorem setsUp_of_ok {res : CompThreadArgs × UncompState} {s s' : IoState}
    (hset : setUncompArgs env data b t h u s = .ok res s') :
    SetsUp env data b t h u res := by
  have hrun := (@triple_setsUp env data b t h u).run s trivial
  rw [hset] at hrun
  exact hrun

end SetUp

section Positions

variable {lzma : Lzma} {env : Env} {data : Bytes} {c c' : Scanner} {h : EcHeader}
  {inFile : FILE}

/-- The scanner is behind the records whose headers it has read: its positions and its
stream say so, unless the stream has met the end of the file. -/
structure Scanner.OnRecords (data : Bytes) (c : Scanner) : Prop where
  curPos : c.state.curPos = recordsLen c.headers
  bytesLeft : c.state.bytesLeft = data.length - recordsLen c.headers
  lt : recordsLen c.headers < 2 ^ 63
  file : c.state.inFile.data = data
  sawEnd : c.state.inFile.SawEnd
  pos : c.state.inFile.pos = recordsLen c.headers ∨ data.length ≤ c.state.inFile.pos

theorem onRecords_start (data : Bytes) : (Scanner.start data).OnRecords data where
  curPos := rfl
  bytesLeft := by simp [Scanner.start]
  lt := by simp [Scanner.start]
  file := rfl
  sawEnd := fun heof => by cases heof
  pos := .inl rfl

/-- A header that is read in full is the next one. -/
theorem Scanner.OnRecords.reads (hc : c.OnRecords data) (hread : c.Reads env h inFile) :
    recordsLen c.headers + ecHeaderSize ≤ data.length ∧
      inFile.pos = recordsLen c.headers + ecHeaderSize ∧ inFile.data = data := by
  obtain ⟨hfit, hpos, hdata⟩ := readEcHeader_ok hread.2
  rw [hc.file] at hfit hdata
  unfold ecHeaderSize at *
  rcases hc.pos with hat | hend
  · rw [hat] at hfit hpos
    exact ⟨hfit, hpos, hdata⟩
  · omega

/-- The positions of the loop at `pos`. -/
def stateAt (data : Bytes) (f : FILE) (pos : Nat) : UncompState where
  inFile := f
  bytesLeft := data.length - pos
  curPos := pos

/-- The signed positions do not overflow. -/
theorem advance_stateAt (hn : data.length < 2 ^ 63) (f : FILE) {pos len : Nat}
    (hlt : pos + len < 2 ^ 63) :
    (stateAt data f pos).advance len = stateAt data f (pos + len) := by
  have hleft :
      toOffT ((data.length : Int) - pos - len) = data.length - (pos + len : Nat) := by
    rw [toOffT_eq (by omega) (by omega)]
    omega
  have hcur : toOffT ((pos : Int) + len) = (pos + len : Nat) := by
    rw [toOffT_eq (by omega) (by omega)]
    omega
  simp only [UncompState.advance, stateAt, hleft, hcur]

theorem Scanner.OnRecords.state_eq (hc : c.OnRecords data) (f : FILE) :
    { c.state with inFile := f } = stateAt data f (recordsLen c.headers) := by
  change (⟨f, c.state.bytesLeft, c.state.curPos⟩ : UncompState) = _
  rw [hc.curPos, hc.bytesLeft, stateAt]

/-- Where a seek of less than `2 ^ 48` bytes goes. -/
theorem seekCur_eq {f : FILE} {len : Nat} (hlen : len < 2 ^ 48)
    (hsought : (f.seekCur (toOffT len)).1 = 0) :
    f.pos + len < 2 ^ 63 ∧ (f.seekCur (toOffT len)).2 = ⟨f.data, f.pos + len, false⟩ := by
  rw [toOffT_eq (by omega) (by omega)] at hsought ⊢
  unfold FILE.seekCur at hsought ⊢
  by_cases hrefused : (f.pos : Int) + len < 0 ∨ 2 ^ 63 ≤ (f.pos : Int) + len
  · rw [if_pos hrefused] at hsought
    cases hsought
  · rw [if_neg hrefused]
    exact ⟨by omega, rfl⟩

/-- Setting up a record takes the scanner behind it. -/
theorem Scanner.OnRecords.setUp (hc : c.OnRecords data) (hn : data.length < 2 ^ 63)
    (hread : c.Reads env h inFile) (hproc : h.procSize < 2 ^ 47)
    {res : CompThreadArgs × UncompState}
    (hset : SetsUp env data c.batch c.thread h { c.state with inFile } res) :
    res.1.inputReader.pos = recordsLen c.headers + ecHeaderSize ∧
      recordsLen (c.headers ++ [h]) < 2 ^ 63 ∧
      res.2 = stateAt data ⟨data, recordsLen (c.headers ++ [h]), false⟩
        (recordsLen (c.headers ++ [h])) := by
  obtain ⟨hfit, hpos, hdata⟩ := hc.reads hread
  have hprops : h.numPropsBytes ≤ 5 := by
    unfold EcHeader.numPropsBytes lzmaPropsSize
    split
    · rfl
    · exact Nat.zero_le 5
  have hbody : h.bodySize = h.numPropsBytes + h.procSize := rfl
  have hlen : recordsLen (c.headers ++ [h]) =
      recordsLen c.headers + ecHeaderSize + h.numPropsBytes + h.procSize := by
    rw [recordsLen_concat, EcHeader.recordLen, hbody]
    omega
  obtain ⟨hlt, hseek⟩ := seekCur_eq (by omega) hset.sought
  change inFile.pos + h.bodySize < 2 ^ 63 at hlt
  change (inFile.seekCur (toOffT h.bodySize)).2 =
    ⟨inFile.data, inFile.pos + h.bodySize, false⟩
    at hseek
  have hend : inFile.pos + h.bodySize = recordsLen (c.headers ++ [h]) := by omega
  rw [hdata, hend] at hseek
  have hheader :=
    @advance_stateAt data hn inFile (recordsLen c.headers) ecHeaderSize (by omega)
  have hprops := @advance_stateAt data hn inFile (recordsLen c.headers + ecHeaderSize)
    h.numPropsBytes (by omega)
  refine ⟨?_, by omega, ?_⟩
  · rw [hset.reader, hc.state_eq, hheader, stateAt, seekSet_of_nat]
  · rw [hset.state, hc.state_eq, hheader, hprops, hlen]
    change UncompState.advance (stateAt data (inFile.seekCur (toOffT h.bodySize)).2 _) _ =
      _
    rw [hseek, advance_stateAt hn _ (by omega), hlen]

theorem onRecords_stateAt {headers : List EcHeader} {batch thread : Nat}
    {args : List CompThreadArgs} {io : IoState} (hlt : recordsLen headers < 2 ^ 63) :
    Scanner.OnRecords data ⟨batch, thread, headers, args,
      stateAt data ⟨data, recordsLen headers, false⟩ (recordsLen headers), io⟩ where
  curPos := rfl
  bytesLeft := rfl
  lt := hlt
  file := rfl
  sawEnd := fun heof => by cases heof
  pos := .inl rfl

/-- Every step keeps the scanner behind its records. -/
theorem ScanStep.onRecords (hn : data.length < 2 ^ 63)
    (hmalloc : ∀ b t size, 2 ^ 47 ≤ size → env.fails (.mallocInbuf b t size) = true)
    (hstep : ScanStep lzma env data c c') (hc : c.OnRecords data) :
    c'.OnRecords data := by
  induction hstep with
  | @record h inFile arg state io hread hset =>
      have hsets := setsUp_of_ok hset
      obtain ⟨_, hlt, hstate⟩ := hc.setUp hn hread (hsets.procSize_lt hmalloc) hsets
      have hstate : state = _ := hstate
      rw [hstate]
      exact onRecords_stateAt hlt
  | @batch inFile io hfull _ =>
      have hfile : inFile.SawEnd ∧ inFile.data = data ∧
          (inFile.pos = recordsLen c.headers ∨ data.length ≤ inFile.pos) := by
        induction hfull with
        | all _ => exact ⟨hc.sawEnd, hc.file, hc.pos⟩
        | @atEnd code inFile _ hread heof =>
            have hafter := readEcHeader_sawEnd hc.sawEnd
              fun field => env.fails (.freadHeader c.batch c.thread field)
            have hread : readEcHeader (fun field => env.fails
              (.freadHeader c.batch c.thread field)) c.state.inFile =
                (.error code, inFile) := hread
            rw [hread, hc.file] at hafter
            refine ⟨hafter.1, hafter.2, .inr ?_⟩
            rw [← hafter.2]
            exact hafter.1 heof
      exact ⟨hc.curPos, hc.bytesLeft, hc.lt, hfile.2.1, hfile.1, hfile.2.2⟩

theorem Scans.onRecords (hn : data.length < 2 ^ 63)
    (hmalloc : ∀ b t size, 2 ^ 47 ≤ size → env.fails (.mallocInbuf b t size) = true)
    (hscans : Scans lzma env data (.start data) c) : c.OnRecords data := by
  induction hscans with
  | refl => exact onRecords_start data
  | tail _ hstep ih => exact hstep.onRecords hn hmalloc ih

end Positions

section Runs

variable (lzma : Lzma) (env : Env) (data : Bytes)

/-- How the loop of `uncomp_file` comes to its end at `c`. -/
inductive Scanner.Ends (c : Scanner) : EStateM.Result Exit IoState PUnit → Prop
  | done (hthread : c.thread = 0) (hleft : c.state.bytesLeft ≤ 0) : c.Ends (.ok ⟨⟩ c.io)
  | unread {code : Int} {inFile : FILE} (hwants : c.Wants)
      (hread : c.read env = (.error code, inFile)) (heof : inFile.eof = false) :
      c.Ends (.error (.ret (-1)) c.io)
  | unset {h : EcHeader} {inFile : FILE} {e : Exit} {io : IoState}
      (hread : c.Reads env h inFile) (hset : c.setUp env data h inFile = .error e io) :
      c.Ends (.error e io)
  | unused {inFile : FILE} {e : Exit} {io : IoState} (hfull : c.Full env inFile)
      (hrun : runUncompThreads lzma env c.batch c.args c.io = .error e io) :
      c.Ends (.error e io)

variable {lzma env data} {c : Scanner}

/-- Setting up the threads of a batch is a run of the scanner. -/
theorem setUncompThreads_scans (k : Nat) (hk : c.thread + k = compPlan.maxThreads)
    (hbegin : c.thread = 0 → 0 < c.state.bytesLeft) :
    match setUncompThreads env data c.batch k c.thread c.state c.io with
    | .ok (args, state) io => ∃ c', Scans lzma env data c c' ∧ c'.Full env state.inFile ∧
        c'.batch = c.batch ∧ c'.args = c.args ++ args ∧
        state = { c'.state with inFile := state.inFile } ∧ c'.io = io
    | .error e io => ∃ c', Scans lzma env data c c' ∧
      c'.Ends lzma env data (.error e io) := by
  induction k generalizing c with
  | zero => exact ⟨c, .refl, .all hk, rfl, (List.append_nil _).symm, rfl, rfl⟩
  | succ k ih =>
      have hwants : c.Wants := ⟨by omega, hbegin⟩
      unfold setUncompThreads
      rcases hread :
        readEcHeader (fun field => env.fails (.freadHeader c.batch c.thread field))
        c.state.inFile with ⟨code | h, inFile⟩
      · cases heof : inFile.eof with
        | true =>
            simp only [heof, ↓reduceIte]
            exact ⟨c, .refl, .atEnd hwants hread heof, rfl,
              (List.append_nil _).symm, rfl, rfl⟩
        | false =>
            simp only [heof]
            exact ⟨c, .refl, .unread hwants hread heof⟩
      · simp only
        cases hset :
          setUncompArgs env data c.batch c.thread h { c.state with inFile } c.io with
        | error e io =>
            rw [bind_of_error hset]
            exact ⟨c, .refl, .unset ⟨hwants, hread⟩ hset⟩
        | ok res io =>
            obtain ⟨arg, state⟩ := res
            rw [bind_of_ok hset]
            have hstep : ScanStep lzma env data c _ := .record ⟨hwants, hread⟩ hset
            have hrest :=
              @ih ⟨c.batch, c.thread + 1, c.headers ++ [h], c.args ++ [arg], state, io⟩
              (by simp only; omega) (by simp)
            simp only at hrest ⊢
            cases hrun : setUncompThreads env data c.batch k (c.thread + 1) state io with
            | error e io' =>
                rw [hrun] at hrest
                obtain ⟨c', hscans, hends⟩ := hrest
                rw [bind_of_error hrun]
                exact ⟨c', .head hstep hscans, hends⟩
            | ok res io' =>
                rw [hrun] at hrest
                obtain ⟨c', hscans, hfull, hbatch, hargs, hstate, hio⟩ := hrest
                rw [bind_of_ok hrun]
                refine ⟨c', .head hstep hscans, hfull, hbatch, ?_, hstate, hio⟩
                rw [hargs, List.append_assoc]
                rfl

/-- So is the loop over the batches. -/
theorem uncompLoop_scans (fuel : Nat) (hthread : c.thread = 0) (hargs : c.args = [])
    (hfuel : ∀ s, uncompLoop lzma env data fuel c.batch c.state c.io ≠
      .error .outOfFuel s) :
    ∃ c', Scans lzma env data c c' ∧
      c'.Ends lzma env data (uncompLoop lzma env data fuel c.batch c.state c.io) := by
  induction fuel generalizing c with
  | zero => exact absurd rfl (hfuel c.io)
  | succ fuel ih =>
      unfold uncompLoop at hfuel ⊢
      by_cases hleft : 0 < c.state.bytesLeft
      · rw [if_pos hleft] at hfuel ⊢
        have hset := @setUncompThreads_scans lzma env data c compPlan.maxThreads
          (by rw [hthread, Nat.zero_add]) fun _ => hleft
        rw [hthread] at hset
        cases hrun :
          setUncompThreads env data c.batch compPlan.maxThreads 0 c.state c.io with
        | error e io =>
            rw [hrun] at hset
            rw [bind_of_error hrun]
            exact hset
        | ok res io =>
            obtain ⟨args, state⟩ := res
            rw [hrun] at hset
            rw [bind_of_ok hrun] at hfuel ⊢
            simp only at hset hfuel ⊢
            obtain ⟨c', hscans, hfull, hbatch, hargs', hstate, rfl⟩ := hset
            rw [hargs, List.nil_append] at hargs'
            rw [← hbatch, ← hargs'] at hfuel ⊢
            cases hthreads : runUncompThreads lzma env c'.batch c'.args c'.io with
            | error e io =>
                rw [bind_of_error hthreads]
                exact ⟨c', hscans, .unused hfull hthreads⟩
            | ok _ io =>
                rw [bind_of_ok hthreads] at hfuel ⊢
                have hstep : ScanStep lzma env data c' _ := .batch hfull hthreads
                rw [← hstate] at hstep
                obtain ⟨c'', hmore, hends⟩ := @ih
                  ⟨c'.batch + 1, 0, c'.headers, [], state, io⟩ rfl rfl hfuel
                exact ⟨c'', hscans.trans (.head hstep hmore), hends⟩
      · rw [if_neg hleft]
        exact ⟨c, .refl, .done hthread (by omega)⟩

end Runs

/-- A run of `uncomp_file` with both streams open is a run of the scanner. -/
theorem uncompFileOf_scans (lzma : Lzma) (env : Env) (x : FileData)
    (hin : env.fails .fopenIn = false) (hout : env.fails .fopenOut = false) :
    ∃ c r, Scans lzma env x.bytes (.start x.bytes) c ∧ c.Ends lzma env x.bytes r ∧
      uncompFileOf lzma env x = match r with
        | .ok _ io => emit (.closed .out) io
        | .error e io => .error e io := by
  have hrun : uncompFileOf lzma env x =
      (uncompLoop lzma env x.bytes (x.bytes.length + 1) 0
        ⟨.ofData x.bytes, x.bytes.length, 0⟩
        >>= fun _ => emit (.closed .out)) (Scanner.start x.bytes).io := by
    unfold uncompFileOf uncompFile
    rw [hin, hout]
    rfl
  have hloop :=
    @uncompLoop_scans lzma env x.bytes (.start x.bytes) (x.bytes.length + 1) rfl rfl
    fun s hfuel => uncompFileOf_not_outOfFuel lzma env x s
      (hrun.trans (bind_of_error hfuel))
  obtain ⟨c, hscans, hends⟩ := hloop
  refine ⟨c, _, hscans, hends, hrun.trans ?_⟩
  generalize hres :
    uncompLoop lzma env x.bytes (x.bytes.length + 1) (Scanner.start x.bytes).batch
    (Scanner.start x.bytes).state (Scanner.start x.bytes).io = r
  cases r with
  | ok _ io => exact bind_of_ok hres
  | error e io => exact bind_of_error hres

/-- In every run over a file, wherever a header is read in full: the two positions add up
to the size of the file, the reader starts behind the header, and setting up the record
takes the header stream to the next record and the positions with it. -/
theorem recordScan_positions (lzma : Lzma) (env : Env) (x : FileData)
    (hmalloc : ∀ b t size, 2 ^ 47 ≤ size → env.fails (.mallocInbuf b t size) = true)
    {c : Scanner} (hscans : Scans lzma env x.bytes (.start x.bytes) c) {h : EcHeader}
    {inFile : FILE} (hread : c.Reads env h inFile) :
    c.state.curPos + c.state.bytesLeft = x.size ∧
      (∀ reader io, openReader env (some x.bytes)
          (UncompState.advance { c.state with inFile } ecHeaderSize).curPos c.batch
            c.thread
          c.io = .ok reader io → reader.pos = recordsLen c.headers + ecHeaderSize) ∧
      ∀ arg state io, c.setUp env x.bytes h inFile = .ok (arg, state) io →
        arg.inputReader.pos = recordsLen c.headers + ecHeaderSize ∧
          state.curPos + state.bytesLeft = x.size ∧
          state.inFile.pos = recordsLen (c.headers ++ [h]) ∧
          c.state.curPos < state.curPos := by
  have hc := hscans.onRecords x.length_lt hmalloc
  refine ⟨?_, ?_, ?_⟩
  · rw [hc.curPos, hc.bytesLeft]
    exact add_sub_cancel _ _
  · intro reader io hopen
    obtain ⟨hfit, _⟩ := hc.reads hread
    have hlt := x.length_lt
    have hreader := (@triple_openReader env x.bytes c.batch c.thread (fun _ => True)
      (fun _ _ => True) (logFree_const True) (fun _ _ => trivial)
      (UncompState.advance { c.state with inFile } ecHeaderSize).curPos).run c.io trivial
    rw [hopen, hc.state_eq, advance_stateAt hlt inFile (by omega),
      stateAt, seekSet_of_nat]
      at hreader
    rw [hreader.1]
  · intro arg state io hset
    have hsets := setsUp_of_ok hset
    obtain ⟨hreader, _, hstate⟩ :=
      hc.setUp x.length_lt hread (hsets.procSize_lt hmalloc) hsets
    have hstate : state = _ := hstate
    have hlen :
        recordsLen (c.headers ++ [h]) = recordsLen c.headers + (17 + h.bodySize) :=
      recordsLen_concat _ _
    rw [hstate, stateAt, hc.curPos]
    refine ⟨hreader, add_sub_cancel _ _, rfl, ?_⟩
    simp only
    omega

/-- Whether `malloc` is asked for `2 ^ 47` bytes or more. -/
def asksForMuch : CallSite → Bool
  | .mallocInbuf _ _ size => decide (2 ^ 47 ≤ size)
  | .mallocOutbuf _ _ size => decide (2 ^ 47 ≤ size)
  | _ => false

/-- Such blocks are refused, and nothing else. -/
def smallBlocksEnv : Env := { inOrderEnv.toEnv with fails := asksForMuch }

/-- Two records, each of the byte `a`, which is stored as it is. -/
def twoRecordsOfA : FileData where
  bytes := [0, 1, 0, 0, 0, 0, 0, 0, 0, 1, 0, 0, 0, 0, 0, 0, 0, 97,
    0, 1, 0, 0, 0, 0, 0, 0, 0, 1, 0, 0, 0, 0, 0, 0, 0, 97]
  length_lt := by decide

/-- Where the scanner is before the second record. -/
def atSecondRecord : Scanner where
  batch := 0
  thread := 1
  headers := [⟨0, 1, 1⟩]
  args := [uncompSlot ⟨0, 1, 1⟩ ⟨twoRecordsOfA.bytes, 17, false⟩]
  state := ⟨⟨twoRecordsOfA.bytes, 18, false⟩, 18, 18⟩
  io := ⟨[], [], [.opened .header, .opened .out, .opened (.reader 0 0)]⟩

theorem recordScan_positions_second :
    atSecondRecord.state.curPos + atSecondRecord.state.bytesLeft = twoRecordsOfA.size ∧
      (∀ reader io, openReader smallBlocksEnv (some twoRecordsOfA.bytes)
          (UncompState.advance { atSecondRecord.state with
            inFile := ⟨twoRecordsOfA.bytes, 35, false⟩ } ecHeaderSize).curPos 0 1
          atSecondRecord.io = .ok reader io → reader.pos = 18 + 17) ∧
      ∀ arg state io, atSecondRecord.setUp smallBlocksEnv twoRecordsOfA.bytes ⟨0, 1, 1⟩
          ⟨twoRecordsOfA.bytes, 35, false⟩ = .ok (arg, state) io →
        arg.inputReader.pos = 18 + 17 ∧
          state.curPos + state.bytesLeft = twoRecordsOfA.size ∧
          state.inFile.pos = 36 ∧ atSecondRecord.state.curPos < state.curPos := by
  have hfirst : Scanner.Reads smallBlocksEnv (.start twoRecordsOfA.bytes) ⟨0, 1, 1⟩
      ⟨twoRecordsOfA.bytes, 17, false⟩ :=
        ⟨⟨by decide, fun _ => by decide⟩, by decide +kernel⟩
  have hstep :
      ScanStep .storing smallBlocksEnv twoRecordsOfA.bytes (.start twoRecordsOfA.bytes)
      atSecondRecord := .record hfirst rfl
  exact recordScan_positions .storing smallBlocksEnv twoRecordsOfA
    (fun _ _ size hsize => decide_eq_true hsize) (.single hstep)
    ⟨⟨by decide, fun hzero => by cases hzero⟩, by decide +kernel⟩

end EcFtp
