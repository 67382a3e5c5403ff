/-
What a run leaves in which some calls fail.  Whichever of the checked calls fail, the
four file functions do what they do when nothing fails, and at most stop early: the bytes
in the output file and the calls of `fwrite` are the first ones of the run without a
failure, and a function that returns zero has met none.
-/
import EcFtp.CutShort
import EcFtp.RecordScan
import EcFtp.StreamBalance

namespace EcFtp

open ByteStrings Exec WorkerOrder

/-- One state comes before another one: what was done by then is the beginning of what
was done in the end. -/
instance : Preorder IoState where
  le s s' := s.out <+: s'.out ∧ s.writes <+: s'.writes
  le_refl _ := ⟨List.prefix_rfl, List.prefix_rfl⟩
  le_trans _ _ _ h h' := ⟨h.1.trans h'.1, h.2.trans h'.2⟩

/-- The threads finish in the same order, and nothing fails. -/
def Env.faultless (env : Env) : Env := { env with fails := fun _ => false }

/-- A run that may return `-1` early. -/
abbrev Short {α : Type} (p q : Prog α) : Prop := CutShort (fun e => e = .ret (-1)) p q

section Calls

variable {env : Env} {buf : Buffer} {len : Nat}

theorem short_emit (event : Event) : Short (emit event) (emit event) :=
  CutShort.modify fun _ => ⟨List.prefix_rfl, List.prefix_rfl⟩

theorem short_returnIf (c : Bool) : Short (returnIf c) (returnIf c) := CutShort.exitIf c _

theorem short_call (site : CallSite) :
    Short (returnIf (env.fails site)) (returnIf (env.faultless.fails site)) :=
  CutShort.exitIf_false _ rfl

/-- A write that fails leaves the output file as it was. -/
theorem short_fwriteItem (fails : Bool) (buf : Buffer) (len : Nat) :
    Short (fwriteItem fails buf len) (fwriteItem false buf len) := by
  intro s
  have hwrites : s.writes <+: s.writes ++ [(buf, len)] := List.prefix_append _ _
  rw [fwriteItem_run, fwriteItem_run]
  by_cases hlen : len = 0
  · simp only [hlen, ↓reduceIte]
    exact ⟨⟨List.prefix_rfl, hlen ▸ hwrites⟩, .inl trivial⟩
  · simp only [hlen, ↓reduceIte]
    cases buf.load 0 len with
    | none => exact ⟨⟨List.prefix_rfl, hwrites⟩, .inl rfl⟩
    | some bs =>
        have hout : s.out <+: s.out ++ bs := List.prefix_append _ _
        refine ⟨⟨hout, hwrites⟩, ?_⟩
        cases fails with
        | true => exact .inr ⟨_, _, rfl, rfl, hout, List.prefix_rfl⟩
        | false => exact .inl rfl

theorem short_openReader {input : Option Bytes} (pos : Int) (b t : Nat) :
    Short (openReader env input pos b t) (openReader env.faultless input pos b t) := by
  cases input with
  | none => exact CutShort.throw _
  | some data =>
      refine CutShort.bind (short_call _) fun _ => ?_
      exact CutShort.bind (short_emit _) fun _ => CutShort.pure _

/-- One field of a header, and the check of what the call returned. -/
theorem short_fwriteField {fails : Bool} {field : Bytes} {code : Int}
    {next next' : Prog Int}
    (hfield : field ≠ []) (hcode : code ≠ 0)
    (hnext : Short (next >>= fun res => returnIf (res != 0))
      (next' >>= fun res => returnIf (res != 0))) :
    Short (fwriteField fails field code next >>= fun res => returnIf (res != 0))
      (fwriteField false field code next' >>= fun res => returnIf (res != 0)) := by
  intro s
  have hlen : field.length ≠ 0 := mt List.length_eq_zero_iff.mp hfield
  have hload := load_filled_all field 0
  have hfalls : ∀ n : Prog Int,
      (fwriteField false field code n >>= fun res => returnIf (res != 0)) s =
        (n >>= fun res => returnIf (res != 0))
          { s with writes := s.writes ++ [(filled field 0, field.length)],
                   out := s.out ++ field } := by
    intro n
    rw [fwriteField, bind_assoc, bind_of_ok (fwrite_run hlen hload s)]
    rfl
  obtain ⟨hgrows, hcut⟩ := hnext { s with
    writes := s.writes ++ [(filled field 0, field.length)], out := s.out ++ field }
  have hstart : s ≤ endState ((fwriteField false field code next' >>=
      fun res => returnIf (res != 0)) s) := by
    rw [hfalls]
    refine le_trans ?_ hgrows
    exact ⟨List.prefix_append _ _, List.prefix_append _ _⟩
  refine ⟨hstart, ?_⟩
  cases fails with
  | false =>
      rw [hfalls, hfalls]
      exact hcut
  | true =>
      refine .inr ⟨.ret (-1), { s with
        writes := s.writes ++ [(filled field 0, field.length)] }, ?_, rfl, ?_⟩
      · rw [fwriteField, bind_assoc, bind_of_ok (fwrite_run hlen hload s)]
        have hleaves : (code != 0) = true := by simpa using hcode
        simp only [↓reduceIte, List.append_nil]
        change returnIf (code != 0) _ = _
        rw [hleaves]
        rfl
      · rw [hfalls]
        refine le_trans ?_ hgrows
        exact ⟨List.prefix_append _ _, List.prefix_rfl⟩

theorem short_writeEcHeader (fails : Nat → Bool) (h : EcHeader) :
    Short (writeEcHeader fails h >>= fun res => returnIf (res != 0))
      (writeEcHeader (fun _ => false) h >>= fun res => returnIf (res != 0)) := by
  refine short_fwriteField (List.cons_ne_nil _ _) (by decide) ?_
  refine short_fwriteField (List.cons_ne_nil _ _) (by decide) ?_
  refine short_fwriteField (List.cons_ne_nil _ _) (by decide) ?_
  exact CutShort.bind (CutShort.pure _) fun _ => short_returnIf _

end Calls

section Workers

variable {σ : Type} {returnVal : σ → Option Int}

/-- A thread does the same work, or reports that it could not. -/
def ReportsAlike (returnVal : σ → Option Int) (o o' : Option σ) : Prop :=
  o = o' ∨ ∃ a v, o = some a ∧ returnVal a = some v ∧ v ≠ 0

theorem ReportsAlike.same {o : Option σ} : ReportsAlike returnVal o o := .inl rfl

/-- A read that fails moves nothing; of no bytes it cannot fail. -/
theorem readBytes_true (ret : Buffer) (numBytes : Nat) (f : FILE) :
    readBytes true ret numBytes f = readBytes false ret numBytes f ∨
      readBytes true ret numBytes f = some (-1, ret, f) := by
  have hstore : ret.store 0 [] = some ret := by simp [Buffer.store]
  cases numBytes with
  | zero =>
      left
      simp [readBytes, FILE.read, ByteStrings.slice]
  | succ n =>
      right
      simp [readBytes, hstore]

/-- A worker that begins with a read, and goes on when it got all its bytes. -/
theorem reports_read (bad : Buffer → FILE → σ) (rest rest' : Buffer → FILE → Option σ)
    (fails : Bool) (ret : Buffer) (numBytes : Nat) (f : FILE)
    (hbad : ∀ buf f, returnVal (bad buf f) = some (-1))
    (hrest : ∀ buf f, ReportsAlike returnVal (rest buf f) (rest' buf f)) :
    ReportsAlike returnVal
      ((readBytes fails ret numBytes f).bind fun r =>
        if r.1 ≠ 0 then some (bad r.2.1 r.2.2) else rest r.2.1 r.2.2)
      ((readBytes false ret numBytes f).bind fun r =>
        if r.1 ≠ 0 then some (bad r.2.1 r.2.2) else rest' r.2.1 r.2.2) := by
  have hgoes : ReportsAlike returnVal
      ((readBytes false ret numBytes f).bind fun r =>
        if r.1 ≠ 0 then some (bad r.2.1 r.2.2) else rest r.2.1 r.2.2)
      ((readBytes false ret numBytes f).bind fun r =>
        if r.1 ≠ 0 then some (bad r.2.1 r.2.2) else rest' r.2.1 r.2.2) := by
    cases readBytes false ret numBytes f with
    | none => exact .same
    | some r =>
        by_cases hres : r.1 ≠ 0
        · simp only [Option.bind_some, if_pos hres]
          exact .same
        · simp only [Option.bind_some, if_neg hres]
          exact hrest _ _
  cases fails with
  | false => exact hgoes
  | true =>
      rcases readBytes_true ret numBytes f with hsame | hfails
      · rw [hsame]
        exact hgoes
      · right
        rw [hfails]
        exact ⟨_, -1, rfl, hbad _ _, by decide⟩

theorem reports_readThen (step : EncThreadArgs → Option EncThreadArgs) (fails : Bool)
    (t : EncThreadArgs) :
    ReportsAlike EncThreadArgs.returnVal (readThen step fails t)
      (readThen step false t) :=
  reports_read
    (fun inbuf inputReader => { t with inbuf, inputReader, returnVal := some (-1) })
    (fun inbuf inputReader => step { t with inbuf, inputReader }) _
      fails t.inbuf t.irReadlen
    t.inputReader (fun _ _ => rfl) fun _ _ => .same

variable {lzma : Lzma}

theorem reports_compressData (lzmaFails : Bool) (t : CompThreadArgs) :
    ReportsAlike CompThreadArgs.returnVal (compressData lzma lzmaFails t)
      (compressData lzma false t) := by
  cases lzmaFails with
  | false => exact .same
  | true =>
      unfold compressData
      cases t.inbuf.load 0 t.irReadlen with
      | none => exact .same
      | some src => exact .inr ⟨_, -1, rfl, rfl, by decide⟩

theorem reports_compress (readFails lzmaFails : Bool) (t : CompThreadArgs) :
    ReportsAlike CompThreadArgs.returnVal (compressChunkOfFile lzma readFails lzmaFails t)
      (compressChunkOfFile lzma false false t) :=
  @reports_read _ CompThreadArgs.returnVal
    (fun inbuf inputReader => { t with inbuf, inputReader, returnVal := some (-1) })
    (fun inbuf inputReader => compressData lzma lzmaFails { t with inbuf, inputReader })
    (fun inbuf inputReader => compressData lzma false { t with inbuf, inputReader })
    readFails t.inbuf t.irReadlen t.inputReader (fun _ _ => rfl)
    fun _ _ => reports_compressData _ _

theorem reports_setupOutbuf (lzmaFails : Bool) (h : EcHeader) (t : CompThreadArgs) :
    ReportsAlike CompThreadArgs.returnVal (setupOutbuf lzma lzmaFails h t)
      (setupOutbuf lzma false h t) := by
  cases lzmaFails with
  | false => exact .same
  | true =>
      unfold setupOutbuf
      split
      · cases t.inbuf.load 0 t.irReadlen with
        | none => exact .same
        | some src =>
            cases t.props.load 0 t.propsLen with
            | none => exact .same
            | some props => exact .inr ⟨_, -1, rfl, rfl, by decide⟩
      · exact .same

theorem reports_uncompressData (readFails lzmaFails : Bool) (h : EcHeader)
    (t : CompThreadArgs) :
    ReportsAlike CompThreadArgs.returnVal (uncompressData lzma readFails lzmaFails h t)
      (uncompressData lzma false false h t) :=
  @reports_read _ CompThreadArgs.returnVal
    (fun inbuf inputReader => { t with inbuf, inputReader, returnVal := some (-1) })
    (fun inbuf inputReader => setupOutbuf lzma lzmaFails h { t with inbuf, inputReader })
    (fun inbuf inputReader => setupOutbuf lzma false h { t with inbuf, inputReader })
    readFails t.inbuf t.irReadlen t.inputReader (fun _ _ => rfl)
    fun _ _ => reports_setupOutbuf _ _ _

theorem reports_uncompress (propsFails readFails lzmaFails : Bool) (t : CompThreadArgs) :
    ReportsAlike CompThreadArgs.returnVal
      (uncompressChunkOfFile lzma propsFails readFails lzmaFails t)
      (uncompressChunkOfFile lzma false false false t) := by
  unfold uncompressChunkOfFile
  cases t.echeader with
  | none => exact .same
  | some h =>
      simp only [Option.bind_eq_bind, Option.bind_some]
      split
      · exact reports_read
          (fun props inputReader =>
            { t with props, inputReader, echeader := some h, returnVal := some (-1) })
          (fun props inputReader => uncompressData lzma readFails lzmaFails h
            { t with props, inputReader, echeader := some h })
          (fun props inputReader => uncompressData lzma false false h
            { t with props, inputReader, echeader := some h })
          propsFails t.props t.propsLen t.inputReader (fun _ _ => rfl)
          fun _ _ => reports_uncompressData _ _ _ _
      · exact reports_uncompressData _ _ _ _

/-- What a worker leaves that begins with a read: its return value is set. -/
theorem returned_read {bad : Buffer → FILE → σ} {rest : Buffer → FILE → Option σ}
    {fails : Bool} {ret : Buffer} {numBytes : Nat} {f : FILE} {a : σ}
    (hbad : ∀ buf f, returnVal (bad buf f) = some (-1))
    (hrest : ∀ buf f a, rest buf f = some a → ∃ v, returnVal a = some v)
    (h : ((readBytes fails ret numBytes f).bind fun r =>
      if r.1 ≠ 0 then some (bad r.2.1 r.2.2) else rest r.2.1 r.2.2) = some a) :
    ∃ v, returnVal a = some v := by
  obtain ⟨r, _, h⟩ := Option.bind_eq_some_iff.mp h
  split at h
  · cases h
    exact ⟨-1, hbad _ _⟩
  · exact hrest _ _ _ h

theorem returned_readThen {step : EncThreadArgs → Option EncThreadArgs} {fails : Bool}
    {t a : EncThreadArgs} (hstep : ∀ t a, step t = some a → ∃ v, a.returnVal = some v)
    (h : readThen step fails t = some a) : ∃ v, a.returnVal = some v :=
  @returned_read _ EncThreadArgs.returnVal
    (fun inbuf inputReader => { t with inbuf, inputReader, returnVal := some (-1) })
    (fun inbuf inputReader => step { t with inbuf, inputReader }) _ _ _ _ _
    (fun _ _ => rfl) (fun _ _ a ha => hstep _ a ha) h

theorem returned_encryptData {t a : EncThreadArgs} (h : encryptData t = some a) :
    ∃ v, a.returnVal = some v := by
  unfold encryptData at h
  obtain ⟨outbuf, _, h⟩ := Option.bind_eq_some_iff.mp h
  split at h
  · obtain ⟨stranded, _, h⟩ := Option.bind_eq_some_iff.mp h
    obtain ⟨outbuf, _, h⟩ := Option.bind_eq_some_iff.mp h
    cases h
    exact ⟨0, rfl⟩
  · cases h
    exact ⟨0, rfl⟩

theorem returned_decryptData {t a : EncThreadArgs} (h : decryptData t = some a) :
    ∃ v, a.returnVal = some v := by
  unfold decryptData at h
  obtain ⟨out, _, h⟩ := Option.bind_eq_some_iff.mp h
  cases h
  exact ⟨0, rfl⟩

theorem returned_compress {readFails lzmaFails : Bool} {t a : CompThreadArgs}
    (h : compressChunkOfFile lzma readFails lzmaFails t = some a) :
    ∃ v, a.returnVal = some v := by
  refine @returned_read _ CompThreadArgs.returnVal
    (fun inbuf inputReader => { t with inbuf, inputReader, returnVal := some (-1) })
    (fun inbuf inputReader => compressData lzma lzmaFails { t with inbuf, inputReader })
    _ _ _ _ _ (fun _ _ => rfl) (fun inbuf f a ha => ?_) h
  obtain ⟨src, _, ha⟩ := Option.bind_eq_some_iff.mp ha
  generalize (if lzmaFails then none else lzma.compress _ src) = out at ha
  cases out with
  | none =>
      cases ha
      exact ⟨-1, rfl⟩
  | some out =>
      obtain ⟨propsBuf, _, ha⟩ := Option.bind_eq_some_iff.mp ha
      obtain ⟨outbuf, _, ha⟩ := Option.bind_eq_some_iff.mp ha
      cases ha
      exact ⟨0, rfl⟩

theorem returned_setupOutbuf {lzmaFails : Bool} {hdr : EcHeader} {t a : CompThreadArgs}
    (h : setupOutbuf lzma lzmaFails hdr t = some a) : ∃ v, a.returnVal = some v := by
  unfold setupOutbuf at h
  split at h
  · obtain ⟨src, _, h⟩ := Option.bind_eq_some_iff.mp h
    obtain ⟨props, _, h⟩ := Option.bind_eq_some_iff.mp h
    generalize (if lzmaFails then none else lzma.uncompress _ src props) = plain at h
    cases plain with
    | none =>
        cases h
        exact ⟨-1, rfl⟩
    | some plain =>
        obtain ⟨outbuf, _, h⟩ := Option.bind_eq_some_iff.mp h
        cases h
        exact ⟨0, rfl⟩
  · cases h
    exact ⟨0, rfl⟩

theorem returned_uncompressData {readFails lzmaFails : Bool} {hdr : EcHeader}
    {t a : CompThreadArgs} (h : uncompressData lzma readFails lzmaFails hdr t = some a) :
    ∃ v, a.returnVal = some v :=
  @returned_read _ CompThreadArgs.returnVal
    (fun inbuf inputReader => { t with inbuf, inputReader, returnVal := some (-1) })
    (fun inbuf inputReader => setupOutbuf lzma lzmaFails hdr
      { t with inbuf, inputReader })
    _ _ _ _ _ (fun _ _ => rfl) (fun _ _ _ ha => returned_setupOutbuf ha) h

theorem returned_uncompress {propsFails readFails lzmaFails : Bool} {t a : CompThreadArgs}
    (h : uncompressChunkOfFile lzma propsFails readFails lzmaFails t = some a) :
    ∃ v, a.returnVal = some v := by
  unfold uncompressChunkOfFile at h
  obtain ⟨hdr, _, h⟩ := Option.bind_eq_some_iff.mp h
  split at h
  · exact @returned_read _ CompThreadArgs.returnVal
      (fun props inputReader => { t with props, inputReader, returnVal := some (-1) })
      (fun props inputReader =>
        uncompressData lzma readFails lzmaFails hdr { t with props, inputReader })
      _ _ _ _ _ (fun _ _ => rfl) (fun _ _ _ ha => returned_uncompressData ha) h
  · exact returned_uncompressData h

end Workers

section Threads

variable {σ : Type} {env : Env} {work work' : Nat → σ → Option σ}
  {returnVal : σ → Option Int}

/-- Checks of what the same thread reports. -/
theorem short_checkReturn {l l' : List σ} {t : Nat}
    (h : ReportsAlike returnVal l[t]? l'[t]?) :
    Short (checkReturn returnVal l t) (checkReturn returnVal l' t) := by
  have hself : Short (checkReturn returnVal l' t) (checkReturn returnVal l' t) := by
    unfold checkReturn
    cases l'[t]?.bind returnVal with
    | none => exact CutShort.throw _
    | some v => exact short_returnIf _
  rcases h with hsame | ⟨a, v, ha, hv, hne⟩
  · unfold checkReturn at hself ⊢
    rw [hsame]
    exact hself
  · have hleaves : checkReturn returnVal l t = throw (.ret (-1)) := by
      have hcond : (v != 0) = true := by simpa using hne
      unfold checkReturn
      rw [ha, Option.bind_some, hv]
      change returnIf (v != 0) = _
      rw [hcond]
      rfl
    rw [hleaves]
    exact CutShort.leave rfl hself

/-- The threads are joined, and asked what they report. -/
def checkAll (returnVal : σ → Option Int) (b n : Nat) (l : List σ) : Prog PUnit := do
  (List.range n).forM fun t => emit (.ran b t)
  checkReturn returnVal l (n - 1)
  (List.range (n - 1)).forM fun t => do
    emit (.joined b t)
    checkReturn returnVal l t

theorem short_checkAll {l l' : List σ}
    (h : ∀ t : Nat, ReportsAlike returnVal l[t]? l'[t]?)
    (b n : Nat) :
    Short (checkAll returnVal b n l) (checkAll returnVal b n l') := by
  refine CutShort.bind (CutShort.forM (fun t => short_emit _) _) fun _ => ?_
  refine CutShort.bind (short_checkReturn (h _)) fun _ => ?_
  refine CutShort.forM (fun t => ?_) _
  exact CutShort.bind (short_emit _) fun _ => short_checkReturn (h t)

/-- A table with a thread in it that reports a failure is not returned. -/
theorem checkAll_not_ok {n t : Nat} {ran : Nat → σ} (ht : t < n)
    (hfails : returnVal (ran t) ≠ some 0) (b : Nat) (s : IoState)
    (u : PUnit) (s' : IoState) :
    checkAll returnVal b n ((List.range n).map ran) s ≠ .ok u s' := by
  intro hok
  obtain ⟨e, s₁, hleft⟩ := (@decided_afterWork _ returnVal b n ran (by omega)).stops
    (fun h => hfails (h t ht)) s
  have hrun : ((checkAll returnVal b n ((List.range n).map ran) >>= fun _ =>
      pure ((List.range n).map ran)) : Prog (List σ)) s = .error e s₁ := by
    rw [← hleft]
    unfold checkAll
    simp only [bind_assoc]
  rw [bind_of_ok hok] at hrun
  cases hrun

/-- A table all of whose threads report something: the checks write nothing, and leave
with `-1` or not at all. -/
theorem triple_checkAll {n : Nat} {ran : Nat → σ} (hn : 0 < n)
    (hval : ∀ t < n, ∃ v, returnVal (ran t) = some v) (b : Nat) (s : IoState) :
    Triple (fun s' => s' ≤ s) (checkAll returnVal b n ((List.range n).map ran))
      (fun _ s' => s' ≤ s) fun e s' => e = .ret (-1) ∧ s' ≤ s := by
  have hfree : LogFree fun s' => s' ≤ s := fun _ _ hs => hs
  have hcheck : ∀ t < n, Triple (fun s' => s' ≤ s)
      (checkReturn returnVal ((List.range n).map ran) t) (fun _ s' => s' ≤ s)
      fun e s' => e = .ret (-1) ∧ s' ≤ s := by
    intro t ht
    obtain ⟨v, hv⟩ := hval t ht
    unfold checkReturn
    rw [getElem?_map_range ran ht, Option.bind_some, hv]
    exact Triple.exitIf (fun _ _ hs => ⟨rfl, hs⟩) fun _ _ hs => hs
  refine Triple.bind (R := fun _ s' => s' ≤ s) ?_ fun _ => ?_
  · exact Triple.forM_range (fun _ s' => s' ≤ s) fun t _ => triple_emit hfree _
  refine Triple.bind (R := fun _ s' => s' ≤ s) (hcheck (n - 1) (by omega)) fun _ => ?_
  refine Triple.forM_range (fun _ s' => s' ≤ s) fun t ht => ?_
  exact Triple.bind (R := fun _ s' => s' ≤ s) (triple_emit hfree _) fun _ =>
    hcheck t (by omega)

/-- What the checks are followed by does not matter when a thread reports a failure. -/
theorem short_of_failed {n t : Nat} {ran ran' : Nat → σ} (ht : t < n)
    (hfails : returnVal (ran t) ≠ some 0)
    (h : ∀ t < n, ReportsAlike returnVal (some (ran t)) (some (ran' t))) (b : Nat) :
    Short (checkAll returnVal b n ((List.range n).map ran) >>= fun _ =>
        (pure ((List.range n).map ran) : Prog (List σ)))
      (checkAll returnVal b n ((List.range n).map ran') >>= fun _ =>
        pure ((List.range n).map ran')) := by
  have hslots : ∀ t : Nat, ReportsAlike returnVal ((List.range n).map ran)[t]?
      ((List.range n).map ran')[t]? := by
    intro t
    by_cases ht : t < n
    · rw [getElem?_map_range ran ht, getElem?_map_range ran' ht]
      exact h t ht
    · rw [List.getElem?_eq_none (by simp; omega), List.getElem?_eq_none (by simp; omega)]
      exact .same
  refine CutShort.bind_stop (fun _ => pure ((List.range n).map ran'))
    (fun s u s' => checkAll_not_ok ht hfails b s u s') ?_
  exact CutShort.bind (short_checkAll hslots b n) fun _ => CutShort.pure _

/-- The slots of a table, by their index. -/
theorem exists_slot {l : List σ} (h : l ≠ []) :
    ∃ slot : Nat → σ, l = (List.range l.length).map slot := by
  obtain ⟨a, rest, rfl⟩ := List.exists_cons_of_ne_nil h
  refine ⟨fun t => (a :: rest).getD t a, List.ext_getElem (by simp) fun t ht _ => ?_⟩
  rw [List.getElem_map, List.getElem_range, List.getD_eq_getElem _ _ ht]

/-- The work of the threads, and the checks behind it. -/
def workAndCheck (work : Nat → σ → Option σ) (returnVal : σ → Option Int) (b : Nat)
    (order : List Nat) (args : List σ) : Prog (List σ) :=
  match runOrder work order args with
  | none => throw .undefined
  | some ran => checkAll returnVal b ran.length ran >>= fun _ => pure ran

theorem short_workAndCheck
    (hval : ∀ t a a', work t a = some a' → ∃ v, returnVal a' = some v)
    (hwork : ∀ t a, ReportsAlike returnVal (work t a) (work' t a))
    (b : Nat) {order : List Nat}
    {slot : Nat → σ} {n : Nat} (hn : 0 < n) (horder : order.Perm (List.range n)) :
    Short (workAndCheck work returnVal b order ((List.range n).map slot))
      (workAndCheck work' returnVal b order ((List.range n).map slot)) := by
  unfold workAndCheck
  by_cases hnone : ∃ t < n, work t (slot t) = none
  · obtain ⟨t, ht, hnone⟩ := hnone
    have hnone' : work' t (slot t) = none := by
      rcases hwork t (slot t) with hsame | ⟨a, _, ha, _⟩
      · exact hsame ▸ hnone
      · cases hnone.symm.trans ha
    rw [runOrder_eq_none horder ht hnone, runOrder_eq_none horder ht hnone']
    exact CutShort.throw _
  · let ran : Nat → σ := fun t => (work t (slot t)).getD (slot t)
    let ran' : Nat → σ := fun t => (work' t (slot t)).getD (slot t)
    have hran : ∀ t < n, work t (slot t) = some (ran t) := by
      intro t ht
      cases hres : work t (slot t) with
      | none => exact absurd ⟨t, ht, hres⟩ hnone
      | some a => simp [ran, hres]
    have hvals : ∀ t < n, ∃ v, returnVal (ran t) = some v :=
      fun t ht => hval t _ _ (hran t ht)
    rw [runOrder_eq_some horder hran]
    simp only [List.length_map, List.length_range]
    by_cases hnone' : ∃ t < n, work' t (slot t) = none
    · -- a thread that could not begin reports it, where its work would have no meaning
      obtain ⟨t, ht, hnone'⟩ := hnone'
      rw [runOrder_eq_none horder ht hnone']
      have hfails : returnVal (ran t) ≠ some 0 := by
        rcases hwork t (slot t) with hsame | ⟨a, v, ha, hv, hne⟩
        · cases (hran t ht).symm.trans (hsame.trans hnone')
        · obtain rfl : ran t = a := Option.some.inj ((hran t ht).symm.trans ha)
          rw [hv]
          simpa using hne
      intro s
      refine ⟨le_rfl, .inr ?_⟩
      have hchecks := (triple_checkAll hn hvals b s).run s le_rfl
      cases hrun : checkAll returnVal b n ((List.range n).map ran) s with
      | ok u s' => exact absurd hrun (checkAll_not_ok ht hfails b s u s')
      | error e s' =>
          rw [hrun] at hchecks
          exact ⟨e, s', bind_of_error hrun, hchecks.1, hchecks.2⟩
    · have hran' : ∀ t < n, work' t (slot t) = some (ran' t) := by
        intro t ht
        cases hres : work' t (slot t) with
        | none => exact absurd ⟨t, ht, hres⟩ hnone'
        | some a => simp [ran', hres]
      have hreports : ∀ t < n, ReportsAlike returnVal (some (ran t)) (some (ran' t)) := by
        intro t ht
        rw [← hran t ht, ← hran' t ht]
        exact hwork t (slot t)
      rw [runOrder_eq_some horder hran']
      simp only [List.length_map, List.length_range]
      by_cases hall : ∀ t < n, ran t = ran' t
      · have hsame : (List.range n).map ran = (List.range n).map ran' :=
          List.map_congr_left fun t ht => hall t (List.mem_range.mp ht)
        rw [hsame]
        exact CutShort.bind (short_checkAll (fun _ => .same) b n) fun _ => CutShort.pure _
      · simp only [not_forall] at hall
        obtain ⟨t, ht, hne⟩ := hall
        refine short_of_failed ht ?_ hreports b
        rcases hreports t ht with hsame | ⟨a, v, ha, hv, hv0⟩
        · exact absurd (Option.some.inj hsame) hne
        · obtain rfl := Option.some.inj ha
          rw [hv]
          simpa using hv0

/-- The threads of a batch, when each of them does its work or reports that it could
not. -/
theorem short_runThreads
    (hval : ∀ t a a', work t a = some a' → ∃ v, returnVal a' = some v)
    (hwork : ∀ t a, ReportsAlike returnVal (work t a) (work' t a))
    (b : Nat) (args : List σ) :
    Short (runThreads env work returnVal b args)
      (runThreads env.faultless work' returnVal b args) := by
  have hcreate : ∀ t, Short (do
        returnIf (env.fails (.pthreadCreate b t))
        emit (.created b t)) (do
        returnIf (env.faultless.fails (.pthreadCreate b t))
        emit (.created b t)) :=
    fun t => CutShort.bind (short_call _) fun _ => short_emit _
  have hrest : ∀ (env : Env) (work : Nat → σ → Option σ),
    runThreads env work returnVal b args =
      ((List.range (args.length - 1)).forM fun t => do
        returnIf (env.fails (.pthreadCreate b t))
        emit (.created b t)) >>= fun _ =>
      workAndCheck work returnVal b (env.order b args.length) args := by
    intro env work
    unfold runThreads workAndCheck
    cases runOrder work (env.order b args.length) args with
    | none => rfl
    | some ran => simp only [checkAll, bind_assoc]
  rw [hrest, hrest]
  refine CutShort.bind (CutShort.forM hcreate _) fun _ => ?_
  have horder := env.order_perm b args.length
  by_cases hargs : args = []
  · subst hargs
    have hnil : env.order b 0 = [] := List.perm_nil.mp horder
    have hnil' : env.faultless.order b 0 = [] := hnil
    simp only [workAndCheck, List.length_nil, hnil, hnil', runOrder]
    exact CutShort.bind (short_checkAll (fun _ => .same) b 0) fun _ => CutShort.pure _
  · obtain ⟨slot, hslot⟩ := exists_slot hargs
    have hpos := List.length_pos_iff.mpr hargs
    have hshort :=
      @short_workAndCheck _ work work' returnVal hval hwork b _ slot _ hpos horder
    rw [← hslot] at hshort
    exact hshort

end Threads

section Files

variable {σ : Type} {env : Env} {p : ThreadPlan} {stSize : Int} {input : Option Bytes}
  {lzma : Lzma}

/-- The three stages of a thread, with and without failures. -/
structure ShortJob (job job' : FileJob σ) : Prop where
  returnVal : job'.returnVal = job.returnVal
  setArgs : ∀ b t, Short (job.setArgs b t) (job'.setArgs b t)
  reports : ∀ b t a a', job.work b t a = some a' → ∃ v, job.returnVal a' = some v
  work : ∀ b t a, ReportsAlike job.returnVal (job.work b t a) (job'.work b t a)
  useWork : ∀ b t a, Short (job.useWork b t a) (job'.useWork b t a)

theorem short_useThreads {useWork useWork' : Nat → σ → Prog PUnit}
    (huse : ∀ t a, Short (useWork t a) (useWork' t a)) (n : Nat) (args : List σ) :
    Short (useThreads useWork n args) (useThreads useWork' n args) := by
  refine CutShort.forM (fun t => ?_) _
  cases args[t]? with
  | none => exact CutShort.throw _
  | some a => exact huse t a

theorem short_runBatches {job job' : FileJob σ} (h : ShortJob job job') :
    Short (runBatches p env stSize job) (runBatches p env.faultless stSize job') := by
  refine CutShort.forM (fun b => ?_) _
  refine CutShort.ite (CutShort.throw _) (CutShort.bind (CutShort.mapM (fun t => ?_) _)
    fun args => ?_)
  · exact CutShort.ite (h.setArgs b t) (CutShort.throw _)
  · rw [h.returnVal]
    refine CutShort.bind (short_runThreads (h.reports b) (h.work b) b args) fun ran => ?_
    exact short_useThreads (h.useWork b) _ ran

theorem short_setCompArgs (b t : Nat) :
    Short (setCompArgs p env stSize input b t)
      (setCompArgs p env.faultless stSize input b t) := by
  refine CutShort.bind (short_openReader _ _ _) fun _ => ?_
  refine CutShort.bind (short_call _) fun _ => CutShort.bind (short_call _) fun _ => ?_
  exact CutShort.bind (short_call _) fun _ => CutShort.pure _

theorem short_writeChunk (b t : Nat) (arg : CompThreadArgs) (outbuf : Buffer) :
    Short (writeChunk env b t arg outbuf) (writeChunk env.faultless b t arg outbuf) := by
  refine CutShort.ite (short_fwriteItem _ _ _) ?_
  exact CutShort.bind (short_fwriteItem _ _ _) fun _ => short_fwriteItem _ _ _

theorem short_useCompWork (b t : Nat) (arg : CompThreadArgs) :
    Short (useCompWork env b t arg) (useCompWork env.faultless b t arg) := by
  unfold useCompWork
  split
  · rename_i h outbuf _ _
    have hheader := CutShort.bind (short_writeEcHeader
      (fun field => env.fails (.fwriteHeader b t field)) h) fun _ : PUnit =>
      CutShort.bind (@short_writeChunk env b t arg outbuf) fun _ =>
        short_emit (.closed (.reader b t))
    simp only [bind_assoc] at hheader
    exact hheader
  · exact CutShort.throw _

theorem short_compJob :
    ShortJob (compJob p lzma env stSize input)
      (compJob p lzma env.faultless stSize input) where
  returnVal := rfl
  setArgs := short_setCompArgs
  reports _ _ _ _ h := returned_compress h
  work _ _ _ := reports_compress _ _ _
  useWork b t a := short_useCompWork b t a

theorem short_setEncArgs (avars : EncAesVars) (allocLen : Bool → Nat → Nat)
    (padded : Bool → Option Int) (b t : Nat) :
    Short (setEncArgs p env stSize input avars allocLen padded b t)
      (setEncArgs p env.faultless stSize input avars allocLen padded b t) := by
  refine CutShort.bind (short_openReader _ _ _) fun _ => ?_
  refine CutShort.bind (short_call _) fun _ => ?_
  exact CutShort.bind (short_call _) fun _ => CutShort.pure _

theorem short_addPadding (b t : Nat) (arg : EncThreadArgs) :
    Short (addPadding p env stSize b t arg)
      (addPadding p env.faultless stSize b t arg) := by
  unfold addPadding
  refine CutShort.ite ?_ (CutShort.pure _)
  cases arg.padded with
  | none => exact CutShort.throw _
  | some padded => exact CutShort.ite (short_fwriteItem _ _ _) (CutShort.pure _)

theorem short_encJob (avars : EncAesVars) :
    ShortJob (encJob p env stSize input avars)
      (encJob p env.faultless stSize input avars) where
  returnVal := rfl
  setArgs b t := short_setEncArgs avars (encAllocLen p) (fun _ => none) b t
  reports _ _ _ _ h := @returned_readThen encryptData _ _ _
    (fun _ _ h => returned_encryptData h) h
  work _ _ _ := reports_readThen _ _ _
  useWork b t a := by
    refine CutShort.bind (short_fwriteItem _ _ _) fun _ => ?_
    exact CutShort.bind (short_addPadding b t a) fun _ => short_emit _

theorem short_decJob (avars : EncAesVars) :
    ShortJob (decJob p env stSize input avars)
      (decJob p env.faultless stSize input avars) where
  returnVal := rfl
  setArgs b t := short_setEncArgs avars
    (fun last irReadlen => if last then irReadlen else p.threadMaxMem)
    (fun last => some (if last then 1 else 0)) b t
  reports _ _ _ _ h := @returned_readThen decryptData _ _ _
    (fun _ _ h => returned_decryptData h) h
  work _ _ _ := reports_readThen _ _ _
  useWork _ _ _ := CutShort.bind (short_fwriteItem _ _ _) fun _ => short_emit _

theorem short_compFile :
    Short (compFile lzma env stSize input)
      (compFile lzma env.faultless stSize input) := by
  refine CutShort.bind (short_call _) fun _ => CutShort.bind (short_emit _) fun _ => ?_
  exact CutShort.bind (short_runBatches short_compJob) fun _ => short_emit _

/-- `enc_file` and `dec_file` around their batches. -/
theorem short_cryptFile {key : Key} {job job' : EncAesVars → FileJob EncThreadArgs}
    (h : ∀ avars, ShortJob (job avars) (job' avars)) :
    Short (cryptFile p env stSize key job)
      (cryptFile p env.faultless stSize key job') := by
  refine CutShort.bind (short_call _) fun _ => CutShort.bind (short_emit _) fun _ => ?_
  refine CutShort.bind ?_ fun _ => short_emit _
  cases encAesVars key with
  | none => exact CutShort.throw _
  | some avars => exact short_runBatches (h avars)

end Files

section Uncomp

variable {lzma : Lzma} {env : Env} {data : Bytes} {f : FILE}

/-- A field that cannot be read for a failure leaves the stream as it was; at the end it
would not be read anyway. -/
theorem readField_true (hf : f.SawEnd) {size : Nat} (hsize : 0 < size) :
    readField true size f = readField false size f ∨
      readField true size f = (none, f) ∧ f.eof = false := by
  have hfails : readField true size f = (none, f) := by
    simp [readField, Nat.ne_of_lt hsize]
  obtain ⟨data, pos, eof⟩ := f
  cases eof with
  | false => exact .inr ⟨hfails, rfl⟩
  | true =>
      left
      have hend : data.length ≤ pos := hf rfl
      have hnil : slice data pos size = [] := by
        apply List.eq_nil_of_length_eq_zero
        rw [length_slice]
        omega
      rw [hfails]
      simp [readField, FILE.read, hnil, Nat.ne_of_lt hsize]

/-- A header that cannot be read for a failure leaves the loop, or is at the end. -/
theorem readEcHeader_short (hf : f.SawEnd) (fails : Nat → Bool) :
    readEcHeader fails f = readEcHeader (fun _ => false) f ∨
      ∃ code f', readEcHeader fails f = (.error code, f') ∧ f'.eof = false := by
  have hfield : ∀ (g : FILE) (k size : Nat), g.SawEnd → 0 < size →
      readField (fails k) size g = readField false size g ∨
        readField (fails k) size g = (none, g) ∧ g.eof = false := by
    intro g k size hg hsize
    cases fails k with
    | false => exact .inl rfl
    | true => exact readField_true hg hsize
  unfold readEcHeader
  rcases hfield f 0 1 hf (by decide) with hsame₀ | ⟨hbad₀, heof₀⟩
  · rw [hsame₀]
    have hend₀ := (readField_sawEnd hf false 1).1
    rcases hread₀ : readField false 1 f with ⟨_ | compressed, f₀⟩
    · exact .inl rfl
    · rw [hread₀] at hend₀
      simp only
      rcases hfield f₀ 1 8 hend₀ (by decide) with hsame₁ | ⟨hbad₁, heof₁⟩
      · rw [hsame₁]
        have hend₁ := (readField_sawEnd hend₀ false 8).1
        rcases hread₁ : readField false 8 f₀ with ⟨_ | origSize, f₁⟩
        · exact .inl rfl
        · rw [hread₁] at hend₁
          simp only
          rcases hfield f₁ 2 8 hend₁ (by decide) with hsame₂ | ⟨hbad₂, heof₂⟩
          · rw [hsame₂]
            exact .inl rfl
          · rw [hbad₂]
            exact .inr ⟨-3, f₁, rfl, heof₂⟩
      · rw [hbad₁]
        exact .inr ⟨-2, f₀, rfl, heof₁⟩
  · rw [hbad₀]
    exact .inr ⟨-1, f, rfl, heof₀⟩

theorem short_afterSeek (b t : Nat) (h : EcHeader) (u : UncompState)
    (sought : Int × FILE) :
    Short (afterSeek env b t h u sought) (afterSeek env.faultless b t h u sought) := by
  refine CutShort.bind ?_ fun _ => CutShort.pure _
  by_cases hseek : (sought.1 != 0) = true
  · simp only [hseek, Bool.true_or]
    exact short_returnIf _
  · rw [Bool.not_eq_true] at hseek
    simp only [hseek, Bool.false_or]
    exact short_call _

theorem short_setUncompArgs (b t : Nat) (h : EcHeader) (u : UncompState) :
    Short (setUncompArgs env data b t h u)
      (setUncompArgs env.faultless data b t h u) := by
  refine CutShort.bind (short_openReader _ _ _) fun _ => ?_
  refine CutShort.bind (short_call _) fun _ => CutShort.bind (short_call _) fun _ => ?_
  refine CutShort.bind ?_ fun outbuf => ?_
  · refine CutShort.ite ?_ (CutShort.pure _)
    exact CutShort.bind (short_call _) fun _ => CutShort.pure _
  · exact CutShort.bind (short_afterSeek _ _ _ _ _) fun _ => CutShort.pure _

theorem eof_of_seekCur {off : Int} (h : (f.seekCur off).1 = 0) :
    (f.seekCur off).2.eof = false := by
  unfold FILE.seekCur at h ⊢
  split at h
  · cases h
  · rename_i hfit
    rw [if_neg hfit]

theorem advance_withFile (u : UncompState) (f : FILE) (len : Nat) :
    (UncompState.advance { u with inFile := f } len).inFile = f := rfl

/-- Behind a record the stream has been positioned again. -/
theorem SetsUp.sawEnd {b t : Nat} {h : EcHeader} {u : UncompState}
    {res : CompThreadArgs × UncompState} (hset : SetsUp env data b t h u res) :
    res.2.inFile.SawEnd := by
  obtain ⟨u', k, hstate⟩ : ∃ (u' : UncompState) (k : Nat), res.2 = UncompState.advance
      { u' with inFile := (u.inFile.seekCur (toOffT h.bodySize)).2 } k :=
        ⟨_, _, hset.state⟩
  rw [hstate, advance_withFile]
  intro heof
  cases (eof_of_seekCur hset.sought).symm.trans heof

/-- So has it behind the records of a batch. -/
theorem setUncompThreads_sawEnd {b k t : Nat} {u : UncompState}
    {res : List CompThreadArgs × UncompState} {s s' : IoState} (hu : u.inFile.SawEnd)
    (h : setUncompThreads env data b k t u s = .ok res s') : res.2.inFile.SawEnd := by
  induction k generalizing t u res s s' with
  | zero =>
      cases h
      exact hu
  | succ k ih =>
      unfold setUncompThreads at h
      have hend :=
        (readEcHeader_sawEnd hu fun field => env.fails (.freadHeader b t field)).1
      rcases hread :
        readEcHeader (fun field => env.fails (.freadHeader b t field)) u.inFile
        with ⟨_ | hdr, inFile⟩
      · rw [hread] at h hend
        by_cases heof : inFile.eof = true
        · simp only [heof, ↓reduceIte] at h
          cases h
          exact hend
        · simp only [heof, Bool.false_eq_true, ↓reduceIte] at h
          cases h
      · rw [hread] at h
        obtain ⟨⟨arg, u₁⟩, s₁, hset, h₁⟩ := ok_of_bind h
        obtain ⟨⟨args, u₂⟩, s₂, hrest, h₂⟩ := ok_of_bind h₁
        cases h₂
        have hbehind := ih (setsUp_of_ok hset).sawEnd hrest
        exact hbehind

/-- A turn of the loop over the threads, once the header of the thread was looked for. -/
def afterHeader (env : Env) (data : Bytes) (b k t : Nat) (u : UncompState) :
    Except Int EcHeader × FILE → Prog (List CompThreadArgs × UncompState)
  | (.error _, inFile) =>
      if inFile.eof then pure ([], { u with inFile }) else throw (.ret (-1))
  | (.ok h, inFile) => do
      let (arg, u) ← setUncompArgs env data b t h { u with inFile }
      let (args, u) ← setUncompThreads env data b k (t + 1) u
      pure (arg :: args, u)

theorem setUncompThreads_succ (env : Env) (b k t : Nat) (u : UncompState) :
    setUncompThreads env data b (k + 1) t u = afterHeader env data b k t u
      (readEcHeader (fun field => env.fails (.freadHeader b t field)) u.inFile) := by
  rw [setUncompThreads]
  rcases readEcHeader (fun field => env.fails (.freadHeader b t field)) u.inFile with
    ⟨_ | h, inFile⟩
  · rfl
  · rfl

theorem short_setUncompThreads (b k t : Nat) {u : UncompState} (hu : u.inFile.SawEnd) :
    Short (setUncompThreads env data b k t u)
      (setUncompThreads env.faultless data b k t u) := by
  induction k generalizing t u with
  | zero => exact CutShort.pure _
  | succ k ih =>
      rw [setUncompThreads_succ, setUncompThreads_succ]
      have hgoes : ∀ read : Except Int EcHeader × FILE,
          Short (afterHeader env data b k t u read)
            (afterHeader env.faultless data b k t u read) := by
        rintro ⟨_ | hdr, inFile⟩
        · exact CutShort.ite (CutShort.pure _) (CutShort.throw _)
        · refine CutShort.bind_of (Q := fun res => res.2.inFile.SawEnd)
            (short_setUncompArgs b t hdr _)
            (fun s res s' hset => (setsUp_of_ok hset).sawEnd) fun res hres => ?_
          exact CutShort.bind (ih (t + 1) hres) fun _ => CutShort.pure _
      rcases readEcHeader_short hu fun field => env.fails (.freadHeader b t field) with
        hsame | ⟨code, inFile, hread, heof⟩
      · rw [hsame]
        exact hgoes _
      · have hleaves : afterHeader env data b k t u (.error code, inFile) =
            throw (.ret (-1)) := by
          rw [afterHeader, heof]
          rfl
        rw [hread, hleaves]
        exact CutShort.leave rfl (hgoes _)

theorem short_useUncompWork (b t : Nat) (arg : CompThreadArgs) :
    Short (useUncompWork env b t arg) (useUncompWork env.faultless b t arg) := by
  unfold useUncompWork
  cases arg.outbuf with
  | none => exact CutShort.throw _
  | some outbuf => exact CutShort.bind (short_fwriteItem _ _ _) fun _ => short_emit _

theorem short_runUncompThreads (b : Nat) (args : List CompThreadArgs) :
    Short (runUncompThreads lzma env b args)
      (runUncompThreads lzma env.faultless b args) := by
  cases args with
  | nil => exact CutShort.throw _
  | cons arg args =>
      refine CutShort.bind (short_runThreads (fun t a a' h => returned_uncompress h)
        (fun t a => reports_uncompress _ _ _ _) b _) fun ran => ?_
      exact short_useThreads (short_useUncompWork b) _ ran

theorem short_uncompLoop (fuel b : Nat) {u : UncompState} (hu : u.inFile.SawEnd) :
    Short (uncompLoop lzma env data fuel b u)
      (uncompLoop lzma env.faultless data fuel b u) := by
  induction fuel generalizing b u with
  | zero => exact CutShort.throw _
  | succ fuel ih =>
      refine CutShort.ite ?_ (CutShort.pure _)
      refine CutShort.bind_of (Q := fun res => res.2.inFile.SawEnd)
        (short_setUncompThreads b _ 0 hu)
        (fun s res s' hset => setUncompThreads_sawEnd hu hset) fun res hres => ?_
      exact CutShort.bind (short_runUncompThreads b _) fun _ => ih (b + 1) hres

theorem short_uncompFile (stSize : Int) (input : Option Bytes) :
    Short (uncompFile lzma env stSize input)
      (uncompFile lzma env.faultless stSize input) := by
  cases input with
  | none => exact CutShort.throw _
  | some data =>
      refine CutShort.bind (short_call _) fun _ => CutShort.bind
        (short_emit _) fun _ => ?_
      refine CutShort.bind (short_call _) fun _ => CutShort.bind
        (short_emit _) fun _ => ?_
      refine CutShort.bind (short_uncompLoop _ 0 ?_) fun _ => short_emit _
      intro heof
      cases heof

end Uncomp

/-- A run is the faultless one, or returns `-1` with the beginning of its output and of
its calls of `fwrite`. -/
def StopsEarly (res res₀ : EStateM.Result Exit IoState PUnit) : Prop :=
  res = res₀ ∨ exitCode res = some (-1) ∧ (finalState res).out <+: (finalState res₀).out ∧
    (finalState res).writes <+: (finalState res₀).writes

theorem finalState_eq_endState {α : Type} (res : EStateM.Result Exit IoState α) :
    finalState res = endState res := by
  cases res <;> rfl

theorem stopsEarly_of_short {x y : Prog PUnit} (h : Short x y) (s : IoState) :
    StopsEarly (x s) (y s) := by
  rcases (h s).2 with hsame | ⟨e, s', hleft, rfl, hle⟩
  · exact .inl hsame
  · right
    rw [hleft, finalState_eq_endState (y s)]
    exact ⟨rfl, hle.1, hle.2⟩

/-- Whichever of the checked calls fail, and in whatever order the threads finish, the
file functions write the beginning of what they write when nothing fails, and all of it
unless they return `-1`. -/
theorem fileFunctions_stopEarly (lzma : Lzma) (env : Env) (stSize : Int)
    (input : Option Bytes) (key : Key) :
    StopsEarly (compFile lzma env stSize input .empty)
        (compFile lzma env.faultless stSize input .empty) ∧
      StopsEarly (uncompFile lzma env stSize input .empty)
        (uncompFile lzma env.faultless stSize input .empty) ∧
      StopsEarly (encFile env stSize input key .empty)
        (encFile env.faultless stSize input key .empty) ∧
      StopsEarly (decFile env stSize input key .empty)
        (decFile env.faultless stSize input key .empty) :=
  ⟨stopsEarly_of_short short_compFile _, stopsEarly_of_short (short_uncompFile _ _) _,
    stopsEarly_of_short (short_cryptFile short_encJob) _,
    stopsEarly_of_short (short_cryptFile short_decJob) _⟩

end EcFtp
