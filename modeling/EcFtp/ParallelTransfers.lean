/-
Several children of the server at work on the files of one host: what each of them
does call by call, and when none notices the others.
-/
import EcFtp.Activities
import EcFtp.FailedTransfers

namespace EcFtp

open Exec Activities
open Activities.Program (call)

/-- Programs on the files of a host on which others are at work, too. -/
abbrev FileActivity (α : Type) := Program Exit Path (Option FileData) α

section Calls

variable (lzma : Lzma) (pieces : List Nat)

/-- A file function at work: it has read its input, and its output comes into the
file some bytes after the other; `pieces` tells how much of it is there at a time. -/
def writing (creates : Bool) (reached : Nat) (res : EStateM.Result Exit IoState PUnit)
    (outputFp : Path) : List Nat → FileActivity PUnit
  | [] => call (callFile creates reached res outputFp)
  | n :: pieces => do
      call (modify fun fs : FileSystem =>
        if creates then fs.write outputFp (.clip ((finalState res).out.take n)) else fs)
      writing creates reached res outputFp pieces

def fileCall (reached : Nat) (f : FileSystem → Bool × EStateM.Result Exit IoState PUnit)
    (outputFp : Path) : FileActivity PUnit := do
  let r ← call (f <$> get)
  writing r.1 reached r.2 outputFp pieces

section FileFunctions

variable (env : Env) (unset : Int) (reached : Nat) (inputFp outputFp : Path)

def compCall : FileActivity PUnit :=
  fileCall pieces reached (fun fs => (!env.fails .fopenOut,
    compFile lzma env (fs.stSize unset inputFp) (fs.content inputFp) .empty)) outputFp

def encCall (key : Key) : FileActivity PUnit :=
  fileCall pieces reached (fun fs => (!env.fails .fopenOut,
    encFile env (fs.stSize unset inputFp) (fs.content inputFp) key .empty)) outputFp

def decCall (key : Key) : FileActivity PUnit :=
  fileCall pieces reached (fun fs => (!env.fails .fopenOut,
    decFile env (fs.stSize unset inputFp) (fs.content inputFp) key .empty)) outputFp

def uncompCall : FileActivity PUnit :=
  fileCall pieces reached (fun fs =>
    ((fs inputFp).isSome && !env.fails .fopenIn && !env.fails .fopenOut,
      uncompFile lzma env (fs.stSize unset inputFp) (fs.content inputFp) .empty)) outputFp

end FileFunctions

/-- `prepare_file`, call by call. -/
def prepareActivity (env : PrepareEnv) (filename : Path) (key : Key) :
    FileActivity Path := do
  let cOutFp ← call (tempCompressionName filename env.compDigits)
  compCall lzma pieces env.comp env.unset env.reached filename cOutFp
  let eOutFp ← call (tempEncryptionName (compressionName filename) env.encDigits)
  encCall pieces env.enc env.unset env.reached cOutFp eOutFp key
  call (remove cOutFp)
  pure eOutFp

/-- `process_received_file`, call by call. -/
def processActivity (env : ProcessEnv) (filename recvFp : Path) (key : Key) :
    FileActivity PUnit := do
  let decOutFp ← call (tempCompressionName filename env.decDigits)
  decCall pieces env.dec env.unset env.reached recvFp decOutFp key
  call (remove recvFp)
  uncompCall lzma pieces env.uncomp env.unset env.reached decOutFp filename
  call (remove decOutFp)

/-- The bytes in the file at `fp`, as `fread` gives them. -/
def readFile (fp : Path) : FileProg Bytes := (fun fs => (fs.content fp).getD []) <$> get

/-- `do_retr` on the files of its host, and the bytes it sends. -/
def doRetrSends (env : PrepareEnv) (opens : Bool) (key : Key) :
    Option Path → FileProg Bytes
  | none => throw (.ret (-1))
  | some filename => do
      let found ← (fun fs => (fs filename).isSome) <$> get
      exitIf (!found) (.ret (-1))
      let preparedFp ← prepareFile lzma env filename key
      exitIf (!opens) (.ret (-1))
      let sent ← readFile preparedFp
      remove preparedFp
      pure sent

def retrActivity (env : PrepareEnv) (opens : Bool) (key : Key) :
    Option Path → FileActivity Bytes
  | none => call (throw (.ret (-1)))
  | some filename => do
      let found ← call ((fun fs => (fs filename).isSome) <$> get)
      call (exitIf (!found) (.ret (-1)))
      let preparedFp ← prepareActivity lzma pieces env filename key
      call (exitIf (!opens) (.ret (-1)))
      let sent ← call (readFile preparedFp)
      call (remove preparedFp)
      pure sent

/-- What is received comes into its file some bytes after the other, too. -/
def receiving (bs : Bytes) (recvFp : Path) : List Nat → FileActivity PUnit
  | [] => call (modify fun fs : FileSystem => fs.write recvFp (.clip bs))
  | n :: pieces => do
      call (modify fun fs : FileSystem => fs.write recvFp (.clip (bs.take n)))
      receiving bs recvFp pieces

/-- A receiving handler, call by call. -/
def receiveActivity (removes : Bool) (env : ProcessEnv) (host : RecvHost) (key : Key) :
    Option Path → FileActivity PUnit
  | none => call (throw (.ret (-1)))
  | some filename => do
      let recvFp ← call (tempRecvName filename host.recvDigits)
      call (exitIf (!host.opens) (.ret (-1)))
      receiving host.received recvFp pieces
      if removes && host.readFails then do
        call (remove recvFp)
        call (throw (.ret (-1)))
      else processActivity lzma pieces env filename recvFp key

/-- `do_get`, call by call. -/
def getActivity (env : ProcessEnv) (host : RecvHost) (key : Key) :
    Option Path → FileActivity PUnit :=
  receiveActivity lzma pieces true env host key

/-- `do_stor`, call by call. -/
def storActivity (env : ProcessEnv) (host : RecvHost) (key : Key) :
    Option Path → FileActivity PUnit :=
  receiveActivity lzma pieces false env host key

/-- `do_put`, call by call, and the bytes it sends. -/
def putActivity (env : PrepareEnv) (opens : Bool) (key : Key) :
    Option Path → FileActivity Bytes
  | none => call (throw (.ret (-1)))
  | some filename => do
      let preparedFp ← prepareActivity lzma pieces env filename key
      call (exitIf (!opens) (.ret (-1)))
      let sent ← call (readFile preparedFp)
      call (remove preparedFp)
      pure sent

end Calls

section Alone

variable {lzma : Lzma} {pieces : List Nat} {creates : Bool} {reached : Nat}
  {res : EStateM.Result Exit IoState PUnit} {outputFp fp : Path}

/-- What was in the file before counts for nothing once it is written. -/
theorem FileSystem.write_write {fs : FileSystem} {x y : FileData} :
    (fs.write fp x).write fp y = fs.write fp y := Function.update_idem ..

theorem callFile_write {fs : FileSystem} {x : FileData} :
    callFile creates reached res outputFp (if creates then fs.write outputFp x else fs) =
      callFile creates reached res outputFp fs := by
  unfold callFile
  cases creates with
  | false => rfl
  | true =>
      simp only [↓reduceIte, FileSystem.write_write]

theorem alone_writing :
    (writing creates reached res outputFp pieces).alone =
      callFile creates reached res outputFp := by
  induction pieces with
  | nil => exact Program.alone_call _
  | cons n pieces ih =>
      unfold writing
      rw [Program.alone_bind, Program.alone_call, ih]
      funext fs
      exact callFile_write

theorem alone_fileCall {f : FileSystem → Bool × EStateM.Result Exit IoState PUnit} :
    (fileCall pieces reached f outputFp).alone =
      fun fs => callFile (f fs).1 reached (f fs).2 outputFp fs := by
  unfold fileCall
  rw [Program.alone_bind, Program.alone_call]
  funext fs
  simp only [alone_writing]
  rfl

theorem alone_compCall {env : Env} {unset : Int} {inputFp : Path} :
    (compCall lzma pieces env unset reached inputFp outputFp).alone =
      callCompFile lzma env unset reached inputFp outputFp := alone_fileCall

theorem alone_encCall {env : Env} {unset : Int} {inputFp : Path} {key : Key} :
    (encCall pieces env unset reached inputFp outputFp key).alone =
      callEncFile env unset reached inputFp outputFp key := alone_fileCall

theorem alone_decCall {env : Env} {unset : Int} {inputFp : Path} {key : Key} :
    (decCall pieces env unset reached inputFp outputFp key).alone =
      callDecFile env unset reached inputFp outputFp key := alone_fileCall

theorem alone_uncompCall {env : Env} {unset : Int} {inputFp : Path} :
    (uncompCall lzma pieces env unset reached inputFp outputFp).alone =
      callUncompFile lzma env unset reached inputFp outputFp := alone_fileCall

theorem alone_receiving {bs : Bytes} :
    (receiving bs fp pieces).alone =
      modify fun fs : FileSystem => fs.write fp (.clip bs) := by
  induction pieces with
  | nil => exact Program.alone_call _
  | cons n pieces ih =>
      unfold receiving
      rw [Program.alone_bind, Program.alone_call, ih]
      funext fs
      exact congrArg (EStateM.Result.ok PUnit.unit) FileSystem.write_write

theorem alone_prepareActivity {env : PrepareEnv} {filename : Path} {key : Key} :
    (prepareActivity lzma pieces env filename key).alone =
      prepareFile lzma env filename key := by
  unfold prepareActivity prepareFile
  simp only [Program.alone_bind, Program.alone_call, Program.alone_pure, alone_compCall,
    alone_encCall]

theorem alone_processActivity {env : ProcessEnv} {filename recvFp : Path} {key : Key} :
    (processActivity lzma pieces env filename recvFp key).alone =
      processReceivedFile lzma env filename recvFp key := by
  unfold processActivity processReceivedFile
  simp only [Program.alone_bind, Program.alone_call, alone_decCall, alone_uncompCall]

/-- `do_retr` does call by call what it does on its own. -/
theorem alone_retrActivity {env : PrepareEnv} {opens : Bool} {key : Key}
    {filename : Option Path} :
    (retrActivity lzma pieces env opens key filename).alone =
      doRetrSends lzma env opens key filename := by
  cases filename with
  | none => exact Program.alone_call _
  | some filename =>
      unfold retrActivity doRetrSends
      simp only [Program.alone_bind, Program.alone_call, Program.alone_pure,
        alone_prepareActivity]

/-- A receiving handler does, too. -/
theorem alone_receiveActivity {removes : Bool} {env : ProcessEnv} {host : RecvHost}
    {key : Key}
    {filename : Option Path} :
    (receiveActivity lzma pieces removes env host key filename).alone =
      receiveInto lzma key removes env host filename := by
  cases filename with
  | none => exact Program.alone_call _
  | some filename =>
      unfold receiveActivity receiveInto
      cases removes && host.readFails with
      | true =>
          simp only [Program.alone_bind, Program.alone_call, alone_receiving, ↓reduceIte]
      | false =>
          simp only [Program.alone_bind, Program.alone_call, alone_receiving,
            alone_processActivity, Bool.false_eq_true, ↓reduceIte]

/-- `do_stor` does call by call what it does on its own. -/
theorem alone_storActivity {env : ProcessEnv} {host : RecvHost} {key : Key}
    {filename : Option Path} :
    (storActivity lzma pieces env host key filename).alone =
      doStorFiles lzma key env host filename := alone_receiveActivity

/-- On the files, `do_retr` is the sending handler; how the sending ends changes none. -/
theorem doRetrFiles_eq {env : PrepareEnv} {opens err : Bool} {key : Key} {filename : Path}
    {fs : FileSystem} :
    doRetrFiles lzma key env ⟨(fs filename).isSome, opens, err⟩ (some filename) fs =
      (doRetrSends lzma env opens key (some filename) >>= fun _ =>
        exitIf err (.ret (-1))) fs := by
  unfold doRetrFiles sendFrom doRetrSends readFile
  simp only [bind_assoc, pure_bind]
  rfl

end Alone

/-- The names of the two temporary files of `filename`. -/
def tempFiles (filename : Path) (compDigits encDigits : Digits) : List Path :=
  (compDigits.toList.map fun d => compressionName filename ++ "-" ++ d) ++
    encDigits.toList.map fun d => compressionName filename ++ ".enc" ++ "-" ++ d

section Footprints

open Activities.Program

variable {lzma : Lzma} {pieces : List Nat} {reads writes : Set Path} {env : Env}
  {unset : Int}
  {inputFp outputFp fp template filename : Path} {digits : Digits} {creates : Bool}
  {reached : Nat} {res : EStateM.Result Exit IoState PUnit} {key : Key}

theorem calls_write {f : FileSystem → FileData} (hf : ∀ fs fs', f fs = f fs')
    (hw : fp ∈ writes) :
    Calls reads writes
      (modify fun fs : FileSystem => fs.write fp (f fs) : FileProg PUnit) := by
  refine .modify (fun fs fs' heq q hq => ?_) fun fs q hq => ?_
  · by_cases hsame : q = fp
    · rw [hsame, FileSystem.write_self, FileSystem.write_self, hf fs fs']
    · rw [FileSystem.write_of_ne hsame, FileSystem.write_of_ne hsame]
      exact heq hq
  · exact FileSystem.write_of_ne fun hsame => hq (hsame ▸ hw)

theorem calls_remove (hw : fp ∈ writes) : Calls reads writes (remove fp) := by
  refine .modify (fun fs fs' heq q hq => ?_) fun fs q hq => ?_
  · by_cases hsame : q = fp
    · rw [hsame, FileSystem.delete_self, FileSystem.delete_self]
    · rw [FileSystem.delete_of_ne hsame, FileSystem.delete_of_ne hsame]
      exact heq hq
  · exact FileSystem.delete_of_ne fun hsame => hq (hsame ▸ hw)

theorem calls_mkstemp (h : ∀ d, digits = some d → template ++ d ∈ reads) :
    Calls reads writes (mkstemp template digits) := by
  cases digits with
  | none => exact .throw _
  | some d =>
      have hin := h d rfl
      have hsame : ∀ fs, endState (mkstemp template (some d) fs) = fs := by
        intro fs
        simp only [mkstemp]
        split
        · rfl
        · rfl
      refine ⟨fun fs fs' heq => ?_, fun fs fs' heq => ?_, fun fs q _ => by rw [hsame]⟩
      · have hcell : fs (template ++ d) = fs' (template ++ d) := heq hin
        simp only [mkstemp, hcell]
        split
        · rfl
        · rfl
      · rw [hsame, hsame]
        exact heq

theorem endState_callFile (fs : FileSystem) :
    endState (callFile creates reached res outputFp fs) =
    if creates then fs.write outputFp (outputLeft reached res) else fs := by
  unfold callFile
  cases exitCode res with
  | none => rfl
  | some code =>
      by_cases hgood : code = 0 ∧ (finalState res).out.length < 2 ^ 63
      · simp only [if_pos hgood]
        rfl
      · simp only [if_neg hgood]
        rfl

/-- The output of a file function is as its result has it, whatever there was. -/
theorem calls_callFile (hw : outputFp ∈ writes) :
    Calls reads writes (callFile creates reached res outputFp) := by
  have hwrite := @calls_write reads writes outputFp (fun _ => outputLeft reached res)
    (fun _ _ => rfl) hw
  refine ⟨fun fs fs' _ => ?_, fun fs fs' heq => ?_, fun fs q hq => ?_⟩
  · unfold callFile
    cases exitCode res with
    | none => rfl
    | some code =>
        by_cases hgood : code = 0 ∧ (finalState res).out.length < 2 ^ 63
        · simp only [if_pos hgood]
          rfl
        · simp only [if_neg hgood]
          rfl
  · rw [endState_callFile, endState_callFile]
    cases creates with
    | false => exact heq
    | true => exact hwrite.agrees fs fs' heq
  · rw [endState_callFile]
    cases creates with
    | false => rfl
    | true => exact hwrite.frame fs q hq

theorem within_writing (hw : outputFp ∈ writes) :
    (writing creates reached res outputFp pieces).activity.Within reads writes := by
  induction pieces with
  | nil => exact within_call (calls_callFile hw)
  | cons n pieces ih =>
      refine within_bind (within_call ?_) fun _ => ih
      cases creates with
      | false => exact .modify (fun _ _ heq => heq) fun _ _ _ => rfl
      | true => exact calls_write (fun _ _ => rfl) hw

theorem within_receiving {bs : Bytes} (hw : fp ∈ writes) :
    (receiving bs fp pieces).activity.Within reads writes := by
  induction pieces with
  | nil => exact within_call (calls_write (fun _ _ => rfl) hw)
  | cons n pieces ih =>
      exact within_bind (within_call (calls_write (fun _ _ => rfl) hw)) fun _ => ih

theorem within_fileCall {f : FileSystem → Bool × EStateM.Result Exit IoState PUnit}
    (hf : ∀ fs fs', fs inputFp = fs' inputFp → f fs = f fs') (hr : inputFp ∈ reads)
    (hw : outputFp ∈ writes) :
    (fileCall pieces reached f outputFp).activity.Within reads writes := by
  refine within_bind (within_call (.look fun fs fs' heq => ?_)) fun _ => within_writing hw
  exact hf fs fs' (heq hr)

theorem stSize_congr {fs fs' : FileSystem} (h : fs fp = fs' fp) :
    fs.stSize unset fp = fs'.stSize unset fp := by
  simp only [FileSystem.stSize, h]

theorem content_congr {fs fs' : FileSystem} (h : fs fp = fs' fp) :
    fs.content fp = fs'.content fp := by
  simp only [FileSystem.content, h]

theorem within_compCall (hr : inputFp ∈ reads) (hw : outputFp ∈ writes) :
    (compCall lzma pieces env unset reached inputFp outputFp).activity.Within reads
      writes :=
  within_fileCall (fun fs fs' h => by rw [stSize_congr h, content_congr h]) hr hw

theorem within_encCall (hr : inputFp ∈ reads) (hw : outputFp ∈ writes) :
    (encCall pieces env unset reached inputFp outputFp key).activity.Within reads
      writes :=
  within_fileCall (fun fs fs' h => by rw [stSize_congr h, content_congr h]) hr hw

theorem within_decCall (hr : inputFp ∈ reads) (hw : outputFp ∈ writes) :
    (decCall pieces env unset reached inputFp outputFp key).activity.Within reads
      writes :=
  within_fileCall (fun fs fs' h => by rw [stSize_congr h, content_congr h]) hr hw

theorem within_uncompCall (hr : inputFp ∈ reads) (hw : outputFp ∈ writes) :
    (uncompCall lzma pieces env unset reached inputFp outputFp).activity.Within reads
      writes :=
  within_fileCall (fun fs fs' h => by rw [stSize_congr h, content_congr h, h]) hr hw

/-- A name `mkstemp` gives is the one its digits make. -/
theorem yields_mkstemp : (call (mkstemp template digits)).Yields
    fun fp => ∃ d, digits = some d ∧ fp = template ++ d := by
  refine yields_call fun fs fp fs' hrun => ?_
  cases digits with
  | none => cases hrun
  | some d =>
      simp only [mkstemp] at hrun
      split at hrun
      · cases hrun
        exact ⟨d, rfl, rfl⟩
      · cases hrun

theorem within_mkstemp {α : Type} {f : Path → FileActivity α}
    (h : ∀ d, digits = some d → template ++ d ∈ reads)
    (hf : ∀ d, digits = some d → (f (template ++ d)).activity.Within reads writes) :
    (call (mkstemp template digits) >>= f).activity.Within reads writes := by
  refine within_bind_of (within_call (calls_mkstemp h)) yields_mkstemp fun fp hfp => ?_
  obtain ⟨d, hd, rfl⟩ := hfp
  exact hf d hd

section Names

variable {compDigits encDigits : Digits} {d : Path}

theorem comp_mem_tempFiles :
    compressionName filename ++ "-" ++ d ∈ tempFiles filename (some d) encDigits := by
  unfold tempFiles
  exact List.mem_append_left _ List.mem_cons_self

theorem enc_mem_tempFiles :
    compressionName filename ++ ".enc" ++ "-" ++ d ∈
      tempFiles filename compDigits (some d) := by
  unfold tempFiles
  exact List.mem_append_right _ List.mem_cons_self

end Names

theorem within_prepareActivity {penv : PrepareEnv} (hfile : filename ∈ reads)
    (htemp : ∀ fp ∈ tempFiles filename penv.compDigits penv.encDigits,
      fp ∈ reads ∧ fp ∈ writes) :
    (prepareActivity lzma pieces penv filename key).activity.Within reads writes := by
  have hcomp : ∀ d, penv.compDigits = some d →
      compressionName filename ++ "-" ++ d ∈ reads ∧
        compressionName filename ++ "-" ++ d ∈ writes := by
    intro d hd
    rw [hd] at htemp
    exact htemp _ comp_mem_tempFiles
  have henc : ∀ d, penv.encDigits = some d →
      compressionName filename ++ ".enc" ++ "-" ++ d ∈ reads ∧
        compressionName filename ++ ".enc" ++ "-" ++ d ∈ writes := by
    intro d hd
    rw [hd] at htemp
    exact htemp _ enc_mem_tempFiles
  refine within_mkstemp (fun d hd => (hcomp d hd).1) fun d hd => ?_
  refine within_bind (within_compCall hfile (hcomp d hd).2) fun _ => ?_
  refine within_mkstemp (fun d' hd' => (henc d' hd').1) fun d' hd' => ?_
  refine within_bind (within_encCall (hcomp d hd).1 (henc d' hd').2) fun _ => ?_
  exact within_bind (within_call (calls_remove (hcomp d hd).2)) fun _ => within_pure _

/-- The file `prepare_file` leaves is one of the two. -/
theorem yields_prepareActivity {penv : PrepareEnv} :
    (prepareActivity lzma pieces penv filename key).Yields
      fun fp => fp ∈ tempFiles filename penv.compDigits penv.encDigits := by
  refine yields_bind (yields_any _) fun cOutFp _ => ?_
  refine yields_bind (yields_any _) fun _ _ => ?_
  refine yields_bind yields_mkstemp fun eOutFp heOutFp => ?_
  obtain ⟨d, hd, rfl⟩ := heOutFp
  refine yields_bind (yields_any _) fun _ _ => ?_
  refine yields_bind (yields_any _) fun _ _ => yields_pure ?_
  rw [hd]
  exact enc_mem_tempFiles

theorem within_processActivity {penv : ProcessEnv} {recvFp : Path}
    (hfile : filename ∈ writes)
    (hrecv : recvFp ∈ reads ∧ recvFp ∈ writes)
    (htemp : ∀ d, penv.decDigits = some d → compressionName filename ++ "-" ++ d ∈ reads ∧
      compressionName filename ++ "-" ++ d ∈ writes) :
    (processActivity lzma pieces penv filename recvFp key).activity.Within reads
      writes := by
  refine within_mkstemp (fun d hd => (htemp d hd).1) fun d hd => ?_
  refine within_bind (within_decCall hrecv.1 (htemp d hd).2) fun _ => ?_
  refine within_bind (within_call (calls_remove hrecv.2)) fun _ => ?_
  refine within_bind (within_uncompCall (htemp d hd).1 hfile) fun _ => ?_
  exact within_call (calls_remove (htemp d hd).2)

/-- A sending handler reads its file, and changes only temporary files. -/
theorem within_putActivity {penv : PrepareEnv} {opens : Bool} {filename : Option Path}
    (hfile : ∀ f ∈ filename, f ∈ reads)
    (htemp : ∀ f ∈ filename, ∀ fp ∈ tempFiles f penv.compDigits penv.encDigits,
      fp ∈ reads ∧ fp ∈ writes) :
    (putActivity lzma pieces penv opens key filename).activity.Within reads writes := by
  cases filename with
  | none => exact within_call (.throw _)
  | some f =>
      refine within_bind_of (within_prepareActivity (hfile f rfl) (htemp f rfl))
        yields_prepareActivity fun preparedFp hprepared => ?_
      obtain ⟨hr, hw⟩ := htemp f rfl preparedFp hprepared
      refine within_bind (within_call (.exitIf _ _)) fun _ => ?_
      refine within_bind (within_call (.look fun fs fs' heq => ?_)) fun sent => ?_
      · rw [content_congr (heq hr)]
      exact within_bind (within_call (calls_remove hw)) fun _ => within_pure _

theorem within_retrActivity {penv : PrepareEnv} {opens : Bool} {filename : Option Path}
    (hfile : ∀ f ∈ filename, f ∈ reads)
    (htemp : ∀ f ∈ filename, ∀ fp ∈ tempFiles f penv.compDigits penv.encDigits,
      fp ∈ reads ∧ fp ∈ writes) :
    (retrActivity lzma pieces penv opens key filename).activity.Within reads writes := by
  cases filename with
  | none => exact within_call (.throw _)
  | some f =>
      refine within_bind (within_call (.look fun fs fs' heq => ?_)) fun found => ?_
      · rw [heq (hfile f rfl)]
      refine within_bind (within_call (.exitIf _ _)) fun _ => ?_
      exact within_putActivity hfile htemp

/-- `do_stor` changes its file and temporary files. -/
theorem within_storActivity {penv : ProcessEnv} {host : RecvHost} {filename : Option Path}
    (hfile : ∀ f ∈ filename, f ∈ writes)
    (htemp : ∀ f ∈ filename, ∀ fp ∈ tempFiles f penv.decDigits host.recvDigits,
      fp ∈ reads ∧ fp ∈ writes) :
    (storActivity lzma pieces penv host key filename).activity.Within reads writes := by
  cases filename with
  | none => exact within_call (.throw _)
  | some f =>
      have hrecv : ∀ d, host.recvDigits = some d →
          compressionName f ++ ".enc" ++ "-" ++ d ∈ reads ∧
            compressionName f ++ ".enc" ++ "-" ++ d ∈ writes := by
        intro d hd
        refine htemp f rfl _ ?_
        rw [hd]
        exact enc_mem_tempFiles
      have hdec : ∀ d, penv.decDigits = some d →
          compressionName f ++ "-" ++ d ∈ reads ∧
            compressionName f ++ "-" ++ d ∈ writes := by
        intro d hd
        refine htemp f rfl _ ?_
        rw [hd]
        exact comp_mem_tempFiles
      refine within_mkstemp (fun d hd => (hrecv d hd).1) fun d hd => ?_
      refine within_bind (within_call (.exitIf _ _)) fun _ => ?_
      refine within_bind (within_receiving (hrecv d hd).2) fun _ => ?_
      exact within_processActivity (hfile f rfl) (hrecv d hd) hdec

end Footprints

end EcFtp
