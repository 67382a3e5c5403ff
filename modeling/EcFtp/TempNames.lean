/-
The temporary files of the transfers on one host.  A name is free again between
the `unlink` that follows `mkstemp` and the `fopen` that makes use of the name, so
the names of two transfers differ only as long as nobody is given a name in
between.
-/
import EcFtp.FreshNames
import EcFtp.Prepare

namespace EcFtp

open Exec FreshNames

/-- `mkstemp`, which makes any name of its template, and the `unlink` behind it. -/
def tempName (template : Path) (next : Path → Calls Path) : Calls Path :=
  .mkstemp (fun fp => ∃ digits, fp = template ++ digits) fun fp => .unlink fp (next fp)

/-- `temp_compression_name`. -/
def tempCompressionCalls (filename : Path) : (Path → Calls Path) → Calls Path :=
  tempName (compressionName filename ++ "-")

/-- `temp_encryption_name`. -/
def tempEncryptionCalls (filename : Path) : (Path → Calls Path) → Calls Path :=
  tempName (filename ++ ".enc" ++ "-")

/-- `temp_recv_name`. -/
def tempRecvCalls (filename : Path) : (Path → Calls Path) → Calls Path :=
  tempEncryptionCalls (compressionName filename)

/-- `prepare_file`: `comp_file` and `enc_file` open what they write. -/
def prepareCalls (filename : Path) (next : Path → Calls Path) : Calls Path :=
  tempCompressionCalls filename fun cOutFp => .fopen cOutFp <|
    tempEncryptionCalls (compressionName filename) fun eOutFp => .fopen eOutFp <|
      .remove cOutFp <| next eOutFp

/-- `process_received_file`: `dec_file` and `uncomp_file` open what they write. -/
def processCalls (filename recvFp : Path) : Calls Path :=
  tempCompressionCalls filename fun decOutFp => .fopen decOutFp <|
    .remove recvFp <| .fopen filename <| .remove decOutFp .done

/-- The functions that transfer a file: `do_retr` and `do_stor` of a server child,
`do_get` and `do_put` of a client. -/
inductive Handler where
  | retr
  | stor
  | get
  | put
deriving Repr, DecidableEq

/-- What a handler does to the files of its host.  Only `do_get` looks whether it
could read all that was sent. -/
def Handler.calls (filename : Path) : Handler → Calls Path
  | .retr => prepareCalls filename fun preparedFp => .remove preparedFp .done
  | .stor => tempRecvCalls filename fun recvFp => .fopen recvFp <|
    processCalls filename recvFp
  | .get => tempRecvCalls filename fun recvFp => .fopen recvFp <|
      .branch (.remove recvFp .done) (processCalls filename recvFp)
  | .put => prepareCalls filename fun preparedFp => .remove preparedFp .done

section Discipline

variable {phase : Path → Phase} {template filename recvFp : Path}
  {next : Path → Calls Path}

/-- A process none of whose names waits to be opened. -/
def NoneGiven (phase : Path → Phase) : Prop := ∀ fp, phase fp ≠ .given

theorem noneGiven_unused : NoneGiven fun _ => .unused := fun _ => by simp

theorem NoneGiven.update (h : NoneGiven phase) (fp : Path) {x : Phase} (hx : x ≠ .given) :
    NoneGiven (Function.update phase fp x) := by
  intro q
  by_cases hq : q = fp
  · rw [hq, Function.update_self]
    exact hx
  · rw [Function.update_of_ne hq]
    exact h q

/-- A temporary file from its name to its first opening. -/
theorem disciplined_tempFile (h : NoneGiven phase)
    (hnext : ∀ fp, phase fp = .unused →
      Disciplined (next fp) (Function.update phase fp .opened)) :
    Disciplined (tempName template fun fp => .fopen fp (next fp)) phase := by
  refine ⟨h, fun fp hunused => ⟨Function.update_self .., ?_⟩⟩
  change Disciplined (next fp) (openName _ fp)
  simpa [openName] using hnext fp hunused

theorem openName_of_noneGiven (h : NoneGiven phase) (fp : Path) :
    openName phase fp = phase := if_neg (h fp)

theorem disciplined_processCalls (h : NoneGiven phase) (hrecv : phase recvFp = .opened) :
    Disciplined (processCalls filename recvFp) phase := by
  refine disciplined_tempFile h fun decOutFp hdec => ?_
  have hne : recvFp ≠ decOutFp := by
    rintro rfl
    rw [hrecv] at hdec
    cases hdec
  have hopened := h.update decOutFp (x := .opened) (by simp)
  have hremoved := hopened.update recvFp (x := .unused) (by simp)
  refine ⟨by rw [Function.update_of_ne hne, hrecv], ?_, ?_⟩
  · change Disciplined _ (openName _ filename)
    rw [openName_of_noneGiven hremoved]
    exact ⟨by rw [Function.update_of_ne hne.symm, Function.update_self], trivial, trivial⟩
  · change Disciplined _ (openName _ filename)
    rw [openName_of_noneGiven hopened]
    exact ⟨Function.update_self .., trivial, trivial⟩

theorem disciplined_prepareCalls :
    Disciplined (prepareCalls filename fun preparedFp => .remove preparedFp .done)
      fun _ => .unused := by
  refine disciplined_tempFile noneGiven_unused fun cOutFp _ => ?_
  refine disciplined_tempFile
    (noneGiven_unused.update cOutFp (by simp)) fun eOutFp he => ?_
  have hne : cOutFp ≠ eOutFp := by
    rintro rfl
    rw [Function.update_self] at he
    cases he
  refine ⟨?_, ⟨?_, trivial, trivial⟩, ⟨Function.update_self .., trivial, trivial⟩⟩
  · rw [Function.update_of_ne hne, Function.update_self]
  · rw [Function.update_of_ne hne.symm, Function.update_self]

theorem disciplined_handler (handler : Handler) :
    Disciplined (handler.calls filename) fun _ => .unused := by
  have hrecv :
      ∀ fp : Path, NoneGiven (Function.update (fun _ => Phase.unused) fp .opened) :=
    fun fp => noneGiven_unused.update fp (by simp)
  cases handler with
  | retr => exact disciplined_prepareCalls
  | stor =>
      refine disciplined_tempFile noneGiven_unused fun recvFp _ => ?_
      exact disciplined_processCalls (hrecv recvFp) (Function.update_self ..)
  | get =>
      refine disciplined_tempFile noneGiven_unused fun recvFp _ => ⟨?_, ?_⟩
      · exact ⟨Function.update_self .., trivial, trivial⟩
      · exact disciplined_processCalls (hrecv recvFp) (Function.update_self ..)
  | put => exact disciplined_prepareCalls

end Discipline

section Transfers

variable {ι : Type}

/-- Transfers that have not begun, each with its handler and the name of its
file, on a host with some files. -/
def startHost (files : Set Path) (handler : ι → Handler) (filename : ι → Path) :
    Host ι Path where
  files
  process i := ⟨(handler i).calls (filename i), fun _ => .unused⟩

theorem exclusive_startHost (files : Set Path) (handler : ι → Handler)
    (filename : ι → Path) :
    (startHost files handler filename).Exclusive where
  disciplined i := disciplined_handler (handler i)
  there i fp hfp := by simp [startHost] at hfp
  alone i j _ fp _ := rfl

variable [DecidableEq ι]

/-- The temporary names of two transfers differ as long as `mkstemp` makes no name
that another transfer was given and has not opened yet. -/
theorem tempNames_differ {files : Set Path} {handler : ι → Handler} {filename : ι → Path}
    {s : Host ι Path}
    (hrun : Host.ClearRuns (startHost files handler filename) s) {i j : ι}
    (hij : i ≠ j) {m n : Path} (hm : s.InUse i m) (hn : s.InUse j n) : m ≠ n :=
  ((exclusive_startHost files handler filename).runs hrun).inUse_ne hij hm hn

variable {s : Host ι Path} {i : ι} {phase : Path → Phase} {template : Path}
  {next : Path → Calls Path} {ok : Host ι Path → ι → Option Path → Prop}

/-- A transfer is given any name of the template that no file has. -/
theorem runs_tempName (hcalls : s.process i = ⟨tempName template next, phase⟩)
    (digits : Path) (hfree : template ++ digits ∉ s.files)
    (hok : ok s i (some (template ++ digits))) (hquiet : ∀ s', ok s' i none) :
    Host.RunsIf ok s (s.set i ⟨next (template ++ digits),
      Function.update phase (template ++ digits) .given⟩ s.files) := by
  let fp := template ++ digits
  have hfree : fp ∉ s.files := hfree
  let made : Process Path := ⟨.unlink fp (next fp), Function.update phase fp .made⟩
  have hmake : Host.RunsIf ok s (s.set i made (insert fp s.files)) :=
    Host.RunsIf.step hok hcalls (.mkstemp ⟨digits, rfl⟩ hfree)
  have hunlink := Host.RunsIf.step (hquiet (s.set i made (insert fp s.files)))
    (Host.set_process_self s i made _) (.unlink (Set.mem_insert fp s.files))
  simp only [Host.set_set, Host.set_files, Function.update_idem,
    Set.insert_sdiff_self_of_notMem hfree] at hunlink
  exact hmake.trans hunlink

/-- The names of the files there are. -/
def filesOf (fs : FileSystem) : Set Path := {fp | fs fp ≠ none}

theorem filesOf_write (fs : FileSystem) (fp : Path) (x : FileData) :
    filesOf (fs.write fp x) = insert fp (filesOf fs) := by
  ext q
  by_cases hq : q = fp
  · simp [filesOf, hq]
  · simp [filesOf, hq]

theorem filesOf_delete (fs : FileSystem) (fp : Path) :
    filesOf (fs.delete fp) = filesOf fs \ {fp} := by
  ext q
  by_cases hq : q = fp
  · simp [filesOf, hq]
  · simp [filesOf, hq]

/-- Transfer `i` can come to where it has `calls` left and leaves `files`, without
any other transfer going on. -/
def Reaches (s : Host ι Path) (i : ι) (calls : Calls Path) (files : Set Path) : Prop :=
  ∃ phase, Host.Runs s (s.set i ⟨calls, phase⟩ files)

variable {calls : Calls Path} {files : Set Path} {fp : Path}

theorem reaches_self (hcalls : (s.process i).calls = calls) :
    Reaches s i calls s.files := by
  subst hcalls
  refine ⟨(s.process i).phase, ?_⟩
  have hself : s.set i (s.process i) s.files = s := by simp [Host.set]
  rw [hself]
  exact Relation.ReflTransGen.refl

theorem Reaches.fopen (h : Reaches s i (.fopen fp calls) files) :
    Reaches s i calls (insert fp files) := by
  obtain ⟨phase, hrun⟩ := h
  have hopen := Host.Runs.step
    (Host.set_process_self s i ⟨.fopen fp calls, phase⟩ files) .fopen
  rw [Host.set_set] at hopen
  exact ⟨_, hrun.trans hopen⟩

theorem Reaches.remove (h : Reaches s i (.remove fp calls) files) (hfile : fp ∈ files) :
    Reaches s i calls (files \ {fp}) := by
  obtain ⟨phase, hrun⟩ := h
  have hremove := Host.Runs.step
    (Host.set_process_self s i ⟨.remove fp calls, phase⟩ files) (.remove hfile)
  rw [Host.set_set] at hremove
  exact ⟨_, hrun.trans hremove⟩

theorem Reaches.tempName (h : Reaches s i (tempName template next) files)
    (hname : ∃ digits, fp = template ++ digits) (hfree : fp ∉ files) :
    Reaches s i (next fp) files := by
  obtain ⟨phase, hrun⟩ := h
  obtain ⟨digits, rfl⟩ := hname
  have hgiven := @runs_tempName ι _ _ i _ _ _ (fun _ _ _ => True)
    (Host.set_process_self s i ⟨EcFtp.tempName template next, phase⟩ files) digits hfree
    trivial fun _ => trivial
  rw [Host.set_set] at hgiven
  exact ⟨_, hrun.trans hgiven⟩

variable {lzma : Lzma} {key : Key} {fs fs' : FileSystem}
  {filename recvFp preparedFp : Path}
  {x e : FileData}

/-- What `prepare_file` does to the files is a run of its calls. -/
theorem prepareFile_reaches {env : PrepareEnv} (hfiles : s.files = filesOf fs)
    (hcalls : (s.process i).calls = prepareCalls filename next)
    (hsource : fs filename = some x)
    (h : prepareFile lzma env filename key fs = .ok preparedFp fs') :
    Reaches s i (next preparedFp) (filesOf fs') := by
  obtain ⟨cOutFp, c, e, hname, _, hname', _, rfl⟩ := prepareFile_chain hsource h
  obtain ⟨hdigits, hcFree, _⟩ := mkstemp_ok hname
  obtain ⟨hdigits', heFree, _⟩ := mkstemp_ok hname'
  have hstart := reaches_self hcalls
  rw [hfiles] at hstart
  have hcomp := (hstart.tempName hdigits (by simpa [filesOf] using hcFree)).fopen
  rw [← filesOf_write fs cOutFp c] at hcomp
  have henc := (hcomp.tempName hdigits' (by simpa [filesOf] using heFree)).fopen
  rw [← filesOf_write _ preparedFp e] at henc
  rw [filesOf_delete]
  exact henc.remove (by simp [filesOf_write])

/-- What `process_received_file` does to the files is a run of its calls. -/
theorem processReceivedFile_reaches {env : ProcessEnv} (hrecv : fs recvFp = some e)
    (h : processReceivedFile lzma env filename recvFp key fs = .ok ⟨⟩ fs')
    (hcalls : Reaches s i (processCalls filename recvFp) (filesOf fs)) :
    Reaches s i .done (filesOf fs') := by
  obtain ⟨decOutFp, d, y, hname, hne, _, _, rfl⟩ := processReceivedFile_chain hrecv h
  obtain ⟨hdigits, hdFree, _⟩ := mkstemp_ok hname
  have hfile : ((fs.write decOutFp d).delete recvFp) decOutFp = some d := by
    rw [FileSystem.delete_of_ne hne, FileSystem.write_self]
  have hdec := (hcalls.tempName hdigits (by simpa [filesOf] using hdFree)).fopen
  rw [← filesOf_write fs decOutFp d] at hdec
  have hrecvFile : recvFp ∈ filesOf (fs.write decOutFp d) := by
    rw [filesOf_write]
    exact .inr (by simp [filesOf, hrecv])
  have hremoved := (hdec.remove hrecvFile).fopen
  rw [← filesOf_delete, ← filesOf_write _ filename y] at hremoved
  rw [filesOf_delete]
  refine hremoved.remove ?_
  rw [filesOf_write]
  exact .inr (by simp [filesOf, hfile])

end Transfers

section Children

/-- Two server children that are about to send the same file. -/
def serverChildren : Host Bool Path := startHost {"f"} (fun _ => .retr) fun _ => "f"

/-- A name the children may be given for the compressed file. -/
def compTempName (digits : Path) : Path := compressionName "f" ++ "-" ++ digits

/-- What is left of sending the file once the child has that name. -/
def compNamed (digits : Path) : Process Path where
  calls := .fopen (compTempName digits) <|
    tempEncryptionCalls (compressionName "f") fun eOutFp => .fopen eOutFp <|
      .remove (compTempName digits) <| .remove eOutFp .done
  phase := Function.update (fun _ => .unused) (compTempName digits) .given

theorem compNamed_given (digits : Path) :
    (compNamed digits).phase (compTempName digits) = .given := by
  simp [compNamed]

theorem compTempName_ne (digits : Path) : compTempName digits ∉ ({"f"} : Set Path) := by
  intro heq
  have hlen := congrArg String.length (Set.mem_singleton_iff.mp heq)
  simp only [compTempName, compressionName, String.length_append] at hlen
  have hext : ".comp".length = 5 := rfl
  have hname : "f".length = 1 := rfl
  omega

/-- The host once the first child was given a name, and then the second one. -/
def childrenNamed (first second : Path) : Host Bool Path :=
  (serverChildren.set true (compNamed first) {"f"}).set false (compNamed second) {"f"}

theorem inUse_childrenNamed (first second : Path) :
    (childrenNamed first second).InUse true (compTempName first) ∧
      (childrenNamed first second).InUse false (compTempName second) := by
  refine ⟨.inl ?_, .inl ?_⟩
  · rw [childrenNamed, Host.set_process_of_ne _ (by decide), Host.set_process_self]
    exact compNamed_given first
  · rw [childrenNamed, Host.set_process_self]
    exact compNamed_given second

theorem runs_childrenNamed {ok : Host Bool Path → Bool → Option Path → Prop}
    (first second : Path) (hok : ok serverChildren true (some (compTempName first)))
    (hok' : ok (serverChildren.set true (compNamed first) {"f"}) false
      (some (compTempName second)))
    (hquiet : ∀ i s, ok s i none) :
    Host.RunsIf ok serverChildren (childrenNamed first second) := by
  have hfirst := @runs_tempName Bool _ serverChildren true _ _ _ ok rfl first
    (compTempName_ne first) hok (hquiet true)
  have hsecond :=
    @runs_tempName Bool _ (serverChildren.set true (compNamed first) {"f"}) false
    _ _ _ ok (Host.set_process_of_ne _ (by decide) _ _) second
      (compTempName_ne second) hok'
    (hquiet false)
  exact hfirst.trans hsecond

/-- Each child has a name of its own. -/
theorem tempNames_differ_children :
    (childrenNamed "aaaaaa" "bbbbbb").InUse true (compTempName "aaaaaa") ∧
      (childrenNamed "aaaaaa" "bbbbbb").InUse false (compTempName "bbbbbb") ∧
      compTempName "aaaaaa" ≠ compTempName "bbbbbb" := by
  obtain ⟨hfirst, hsecond⟩ := inUse_childrenNamed "aaaaaa" "bbbbbb"
  refine ⟨hfirst, hsecond, tempNames_differ (runs_childrenNamed _ _ ?_ ?_ ?_) (by decide)
    hfirst hsecond⟩
  · rintro _ ⟨⟩ j _
    simp [serverChildren, startHost]
  · rintro _ ⟨⟩ j hj
    obtain rfl : j = true := by simpa using hj
    have hne : compTempName "bbbbbb" ≠ compTempName "aaaaaa" := by decide
    simp [compNamed, Function.update_of_ne hne]
  · rintro i s _ ⟨⟩

/-- The second child is given the name the first one was given just before. -/
theorem tempNames_shared : ∃ s, Host.Runs serverChildren s ∧
    ∃ fp, s.InUse true fp ∧ s.InUse false fp := by
  obtain ⟨hfirst, hsecond⟩ := inUse_childrenNamed "aaaaaa" "aaaaaa"
  exact ⟨_, runs_childrenNamed _ _ trivial trivial fun _ _ => trivial, _, hfirst, hsecond⟩

end Children

end EcFtp
