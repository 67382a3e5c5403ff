/-
`prepare_file` and `process_received_file` on the files of one host: temporary
names, the file functions one after the other, and what is left behind.
-/
import EcFtp.CompRoundTrip
import EcFtp.EncRoundTrip

namespace EcFtp

open Exec

abbrev Path := String

/-- The files of one host. -/
abbrev FileSystem := Path → Option FileData

namespace FileSystem

def write (fs : FileSystem) (fp : Path) (x : FileData) : FileSystem :=
  Function.update fs fp (some x)

def delete (fs : FileSystem) (fp : Path) : FileSystem :=
  Function.update fs fp none

def content (fs : FileSystem) (fp : Path) : Option Bytes :=
  (fs fp).map FileData.bytes

/-- `s.st_size` after `stat(fp, &s)`; nothing is stored when `stat` fails. -/
def stSize (fs : FileSystem) (unset : Int) (fp : Path) : Int :=
  match fs fp with
  | none => unset
  | some x => x.size

variable {fs : FileSystem} {fp fp' : Path} {x y : FileData}

@[simp] theorem write_self : fs.write fp x fp = some x := Function.update_self ..

@[simp] theorem write_of_ne (h : fp' ≠ fp) : fs.write fp x fp' = fs fp' :=
  Function.update_of_ne h ..

@[simp] theorem delete_self : fs.delete fp fp = none := Function.update_self ..

@[simp] theorem delete_of_ne (h : fp' ≠ fp) : fs.delete fp fp' = fs fp' :=
  Function.update_of_ne h ..

/-- A file that was not there before is gone again. -/
theorem delete_write (h : fs fp = none) : (fs.write fp x).delete fp = fs := by
  funext q
  by_cases hq : q = fp
  · rw [hq, delete_self, h]
  · rw [delete_of_ne hq, write_of_ne hq]

theorem delete_write_of_ne (h : fp ≠ fp') :
    (fs.write fp x).delete fp' = (fs.delete fp').write fp x := by
  funext q
  by_cases hq : q = fp
  · rw [hq, delete_of_ne h, write_self, write_self]
  · rw [write_of_ne hq]
    by_cases hq' : q = fp'
    · rw [hq', delete_self, delete_self]
    · rw [delete_of_ne hq', delete_of_ne hq', write_of_ne hq]

end FileSystem

/-- A file holds as many bytes as `off_t` can count. -/
def FileData.clip (bs : Bytes) : FileData where
  bytes := bs.take (2 ^ 63 - 1)
  length_lt := by
    rw [List.length_take]
    omega

theorem FileData.clip_bytes {bs : Bytes} (h : bs.length < 2 ^ 63) :
    (FileData.clip bs).bytes = bs :=
  List.take_of_length_le (by omega)

/-- Programs on the files of a host. -/
abbrev FileProg (α : Type) := EStateM Exit FileSystem α

/-- What the output file of a file function holds behind a call with the result
`res`.  At zero it was closed and holds all that was written; at any other end the
stream was neither flushed nor closed, and `reached` tells how many bytes have come into
the file, of a call of `fwrite` that failed, too. -/
def outputLeft (reached : Nat) (res : EStateM.Result Exit IoState PUnit) : FileData :=
  if exitCode res = some 0 ∧ (finalState res).out.length < 2 ^ 63 then
    .clip (finalState res).out
  else .clip ((finalState res).handed.take reached)

/-- `if (0 != f(input_fp, output_fp)) return -1;` for a file function `f` with
the result `res`; `creates` tells whether it comes to create the output file.
What goes beyond the largest file is a failed write. -/
def callFile (creates : Bool) (reached : Nat) (res : EStateM.Result Exit IoState PUnit)
    (outputFp : Path) : FileProg PUnit := fun fs =>
  let fs := if creates then fs.write outputFp (outputLeft reached res) else fs
  match exitCode res with
  | none => .error .undefined fs
  | some code =>
      if code = 0 ∧ (finalState res).out.length < 2 ^ 63 then .ok ⟨⟩ fs
      else .error (.ret (-1)) fs

section Calls

variable (lzma : Lzma) (env : Env) (unset : Int) (reached : Nat) (inputFp outputFp : Path)

def callCompFile : FileProg PUnit := fun fs =>
  callFile (!env.fails .fopenOut) reached
    (compFile lzma env (fs.stSize unset inputFp) (fs.content inputFp) .empty)
    outputFp fs

def callEncFile (key : Key) : FileProg PUnit := fun fs =>
  callFile (!env.fails .fopenOut) reached
    (encFile env (fs.stSize unset inputFp) (fs.content inputFp) key .empty)
    outputFp fs

def callDecFile (key : Key) : FileProg PUnit := fun fs =>
  callFile (!env.fails .fopenOut) reached
    (decFile env (fs.stSize unset inputFp) (fs.content inputFp) key .empty)
    outputFp fs

/-- `uncomp_file` opens its input before its output. -/
def callUncompFile : FileProg PUnit := fun fs =>
  callFile ((fs inputFp).isSome && !env.fails .fopenIn && !env.fails .fopenOut) reached
    (uncompFile lzma env (fs.stSize unset inputFp) (fs.content inputFp) .empty)
    outputFp fs

end Calls

/-- `remove(fp)`. -/
def remove (fp : Path) : FileProg PUnit := modify fun fs => fs.delete fp

/-- The characters `mkstemp` puts in the place of `XXXXXX`; `none` when it gives
up. -/
abbrev Digits := Option Path

/-- `mkstemp`, and the `unlink` of the file it made: a name no file has. -/
def mkstemp (template : Path) (digits : Digits) : FileProg Path := fun fs =>
  match digits with
  | none => .error (.ret (-1)) fs
  | some digits =>
      if (fs (template ++ digits)).isNone then .ok (template ++ digits) fs
      else .error (.ret (-1)) fs

def compressionName (filename : Path) : Path := filename ++ ".comp"

def tempCompressionName (filename : Path) (digits : Digits) : FileProg Path :=
  mkstemp (compressionName filename ++ "-") digits

def tempEncryptionName (filename : Path) (digits : Digits) : FileProg Path :=
  mkstemp (filename ++ ".enc" ++ "-") digits

def tempRecvName (filename : Path) (digits : Digits) : FileProg Path :=
  tempEncryptionName (compressionName filename) digits

/-- What `prepare_file` leaves to its host: the two file functions, the digits of the
temporary names, what is in a `struct stat` that was not filled in, and how much of its
output has reached the file when one of the two fails. -/
structure PrepareEnv where
  comp : Env
  enc : Env
  compDigits : Digits
  encDigits : Digits
  unset : Int
  reached : Nat

def prepareFile (lzma : Lzma) (env : PrepareEnv) (filename : Path) (key : Key) :
    FileProg Path := do
  let cOutFp ← tempCompressionName filename env.compDigits
  callCompFile lzma env.comp env.unset env.reached filename cOutFp
  let eOutFp ← tempEncryptionName (compressionName filename) env.encDigits
  callEncFile env.enc env.unset env.reached cOutFp eOutFp key
  remove cOutFp
  pure eOutFp

/-- What `process_received_file` leaves to its host. -/
structure ProcessEnv where
  dec : Env
  uncomp : Env
  decDigits : Digits
  unset : Int
  reached : Nat

def processReceivedFile (lzma : Lzma) (env : ProcessEnv) (filename recvFp : Path)
    (key : Key) : FileProg PUnit := do
  let decOutFp ← tempCompressionName filename env.decDigits
  callDecFile env.dec env.unset env.reached recvFp decOutFp key
  remove recvFp
  callUncompFile lzma env.uncomp env.unset env.reached decOutFp filename
  remove decOutFp

section Specs

variable {lzma : Lzma} {env : Env} {unset : Int} {key : Key} {fs fs' : FileSystem}
  {inputFp outputFp fp template filename : Path} {digits : Digits} {x : FileData}
  {creates : Bool} {reached : Nat} {res : EStateM.Result Exit IoState PUnit}

theorem outputLeft_of_zero (hcode : exitCode res = some 0)
    (hlen : (finalState res).out.length < 2 ^ 63) :
    outputLeft reached res = .clip (finalState res).out := if_pos ⟨hcode, hlen⟩

theorem outputLeft_of_nonzero {code : Int} (hcode : exitCode res = some code)
    (hne : code ≠ 0) :
    outputLeft reached res = .clip ((finalState res).handed.take reached) := by
  refine if_neg fun hgood => hne ?_
  exact Option.some.inj (hcode.symm.trans hgood.1)

theorem callFile_ok (h : callFile creates reached res outputFp fs = .ok ⟨⟩ fs')
    (hcreates : exitCode res = some 0 → creates = true) :
    exitCode res = some 0 ∧ ∃ y : FileData, y.bytes = (finalState res).out ∧
      fs' = fs.write outputFp y := by
  unfold callFile at h
  cases hcode : exitCode res with
  | none =>
      rw [hcode] at h
      cases h
  | some code =>
      rw [hcode] at h
      by_cases hgood : code = 0 ∧ (finalState res).out.length < 2 ^ 63
      · simp only [if_pos hgood] at h
        cases h
        obtain ⟨rfl, hlen⟩ := hgood
        rw [hcreates hcode, outputLeft_of_zero hcode hlen]
        exact ⟨rfl, _, FileData.clip_bytes hlen, rfl⟩
      · simp only [if_neg hgood] at h
        cases h

theorem callFile_of_zero {y : FileData}
    (hcreates : exitCode res = some 0 → creates = true)
    (hcode : exitCode res = some 0) (hy : y.bytes = (finalState res).out) :
    callFile creates reached res outputFp fs = .ok ⟨⟩ (fs.write outputFp y) := by
  have hlen : (finalState res).out.length < 2 ^ 63 := hy ▸ y.length_lt
  have hclip : FileData.clip (finalState res).out = y :=
    FileData.ext ((FileData.clip_bytes hlen).trans hy.symm)
  simp only [callFile, outputLeft_of_zero hcode hlen, hcode, hcreates hcode,
    hlen, hclip, true_and, ↓reduceIte]

/-- A file function that creates its output before it returns zero. -/
theorem callFile_ok_iff (hcreates : exitCode res = some 0 → creates = true) :
    callFile creates reached res outputFp fs = .ok ⟨⟩ fs' ↔
      exitCode res = some 0 ∧ ∃ y : FileData, y.bytes = (finalState res).out ∧
        fs' = fs.write outputFp y := by
  constructor
  · exact fun h => callFile_ok h hcreates
  · rintro ⟨hcode, y, hy, rfl⟩
    exact callFile_of_zero hcreates hcode hy

theorem stSize_of_some (h : fs fp = some x) : fs.stSize unset fp = x.size := by
  rw [FileSystem.stSize, h]

theorem content_of_some (h : fs fp = some x) : fs.content fp = some x.bytes := by
  rw [FileSystem.content, h]
  rfl

/-- A call that fails ends a file function with another code than zero. -/
theorem not_fails_of_zero {fails : Bool} {p : Prog PUnit} {s : IoState}
    (h : exitCode ((returnIf fails >>= fun _ => p) s) = some 0) :
    fails = false := by
  cases fails with
  | false => rfl
  | true => cases h

theorem callCompFile_ok_iff (hfile : fs inputFp = some x) :
    callCompFile lzma env unset reached inputFp outputFp fs = .ok ⟨⟩ fs' ↔
      exitCode (compFileOf lzma env x) = some 0 ∧ ∃ y : FileData,
        y.bytes = (finalState (compFileOf lzma env x)).out ∧
          fs' = fs.write outputFp y := by
  rw [callCompFile, stSize_of_some hfile, content_of_some hfile]
  exact callFile_ok_iff fun hcode => by rw [not_fails_of_zero hcode]; rfl

theorem callEncFile_ok_iff (hfile : fs inputFp = some x) :
    callEncFile env unset reached inputFp outputFp key fs = .ok ⟨⟩ fs' ↔
      exitCode (encFileOf env x key) = some 0 ∧ ∃ y : FileData,
        y.bytes = (finalState (encFileOf env x key)).out ∧
          fs' = fs.write outputFp y := by
  rw [callEncFile, stSize_of_some hfile, content_of_some hfile]
  exact callFile_ok_iff fun hcode => by rw [not_fails_of_zero hcode]; rfl

theorem callDecFile_ok_iff (hfile : fs inputFp = some x) :
    callDecFile env unset reached inputFp outputFp key fs = .ok ⟨⟩ fs' ↔
      exitCode (decFileOf env x key) = some 0 ∧ ∃ y : FileData,
        y.bytes = (finalState (decFileOf env x key)).out ∧
          fs' = fs.write outputFp y := by
  rw [callDecFile, stSize_of_some hfile, content_of_some hfile]
  exact callFile_ok_iff fun hcode => by rw [not_fails_of_zero hcode]; rfl

/-- Zero is returned only when both files were opened. -/
theorem uncompFile_opens {stSize : Int} {data : Bytes} {s : IoState}
    (h : exitCode (uncompFile lzma env stSize (some data) s) = some 0) :
    env.fails .fopenIn = false ∧ env.fails .fopenOut = false := by
  have hin := not_fails_of_zero h
  refine ⟨hin, ?_⟩
  rw [uncompFile, hin] at h
  exact not_fails_of_zero h

theorem callUncompFile_ok_iff (hfile : fs inputFp = some x) :
    callUncompFile lzma env unset reached inputFp outputFp fs = .ok ⟨⟩ fs' ↔
      exitCode (uncompFileOf lzma env x) = some 0 ∧ ∃ y : FileData,
        y.bytes = (finalState (uncompFileOf lzma env x)).out ∧
          fs' = fs.write outputFp y := by
  rw [callUncompFile, stSize_of_some hfile, content_of_some hfile, hfile]
  refine callFile_ok_iff fun hcode => ?_
  obtain ⟨hin, hout⟩ := uncompFile_opens hcode
  rw [hin, hout]
  rfl

theorem mkstemp_of_free {d : Path} (hd : digits = some d)
    (h : fs (template ++ d) = none) :
    mkstemp template digits fs = .ok (template ++ d) fs := by
  simp only [mkstemp, hd, h, Option.isNone_none, ↓reduceIte]

theorem mkstemp_ok (h : mkstemp template digits fs = .ok fp fs') :
    (∃ d, fp = template ++ d) ∧ fs fp = none ∧ fs = fs' := by
  unfold mkstemp at h
  split at h
  · cases h
  · rename_i d
    split at h
    · rename_i hnone
      cases h
      exact ⟨⟨d, rfl⟩, Option.isNone_iff_eq_none.mp hnone, rfl⟩
    · cases h

/-- The name of a file that exists is not made. -/
theorem mkstemp_ne (h : mkstemp template digits fs = .ok fp fs')
    (hfile : fs inputFp = some x) :
    fp ≠ inputFp := by
  obtain ⟨_, hfree, _⟩ := mkstemp_ok h
  intro heq
  rw [heq, hfile] at hfree
  cases hfree

/-- A temporary name is longer than the name it is made from. -/
theorem tempCompressionName_ok
    (h : tempCompressionName filename digits fs = .ok fp fs') :
    fs fp = none ∧ fs = fs' ∧ fp ≠ filename := by
  obtain ⟨⟨d, hname⟩, hfree, hsame⟩ := mkstemp_ok h
  refine ⟨hfree, hsame, fun heq => ?_⟩
  have hlen := congrArg String.length (heq.symm.trans hname)
  simp only [compressionName, String.length_append] at hlen
  have hext : ".comp".length = 5 := rfl
  omega

end Specs

section Chains

variable {lzma : Lzma} {key : Key} {fs fs' : FileSystem} {filename recvFp : Path}
  {preparedFp : Path} {x e : FileData}

/-- What `prepare_file` has done, step by step, when it returns a name. -/
theorem prepareFile_chain {env : PrepareEnv} (hsource : fs filename = some x)
    (h : prepareFile lzma env filename key fs = .ok preparedFp fs') :
    ∃ (cOutFp : Path) (c e : FileData),
      tempCompressionName filename env.compDigits fs = .ok cOutFp fs ∧
      (exitCode (compFileOf lzma env.comp x) = some 0 ∧
        c.bytes = (finalState (compFileOf lzma env.comp x)).out) ∧
      tempEncryptionName (compressionName filename) env.encDigits (fs.write cOutFp c) =
        .ok preparedFp (fs.write cOutFp c) ∧
      (exitCode (encFileOf env.enc c key) = some 0 ∧
        e.bytes = (finalState (encFileOf env.enc c key)).out) ∧
      fs' = ((fs.write cOutFp c).write preparedFp e).delete cOutFp := by
  obtain ⟨cOutFp, fs₁, hname, h₁⟩ := ok_of_bind h
  obtain ⟨_, rfl, _⟩ := tempCompressionName_ok hname
  obtain ⟨_, fs₂, hcomp, h₂⟩ := ok_of_bind h₁
  obtain ⟨hcompCode, c, hc, rfl⟩ := (callCompFile_ok_iff hsource).mp hcomp
  obtain ⟨eOutFp, fs₃, hname', h₃⟩ := ok_of_bind h₂
  obtain ⟨_, _, rfl⟩ := mkstemp_ok hname'
  obtain ⟨_, fs₄, henc, h₄⟩ := ok_of_bind h₃
  obtain ⟨hencCode, e, he, rfl⟩ := (callEncFile_ok_iff FileSystem.write_self).mp henc
  obtain ⟨rfl, rfl⟩ : eOutFp = preparedFp ∧
      ((fs.write cOutFp c).write eOutFp e).delete cOutFp = fs' := by
    cases h₄
    exact ⟨rfl, rfl⟩
  exact ⟨cOutFp, c, e, hname, ⟨hcompCode, hc⟩, hname', ⟨hencCode, he⟩, rfl⟩

/-- `prepare_file` leaves the encrypted container of the file under a new name,
and nothing else. -/
theorem prepareFile_ok {env : PrepareEnv} (hsource : fs filename = some x)
    (h : prepareFile lzma env filename key fs = .ok preparedFp fs') :
    fs preparedFp = none ∧ ∃ c e : FileData,
      exitCode (compFileOf lzma env.comp x) = some 0 ∧
      c.bytes = (finalState (compFileOf lzma env.comp x)).out ∧
      exitCode (encFileOf env.enc c key) = some 0 ∧
      e.bytes = (finalState (encFileOf env.enc c key)).out ∧
      fs' = fs.write preparedFp e := by
  obtain ⟨cOutFp, c, e, hname, ⟨hcompCode, hc⟩, hname', ⟨hencCode, he⟩, rfl⟩ :=
    prepareFile_chain hsource h
  obtain ⟨hcFree, _, _⟩ := tempCompressionName_ok hname
  obtain ⟨_, heFree, _⟩ := mkstemp_ok hname'
  have hne := mkstemp_ne hname' FileSystem.write_self
  rw [FileSystem.write_of_ne hne] at heFree
  refine ⟨heFree, c, e, hcompCode, hc, hencCode, he, ?_⟩
  rw [FileSystem.delete_write_of_ne hne, FileSystem.delete_write hcFree]

/-- What `process_received_file` has done, step by step, when it returns zero. -/
theorem processReceivedFile_chain {env : ProcessEnv} (hrecv : fs recvFp = some e)
    (h : processReceivedFile lzma env filename recvFp key fs = .ok ⟨⟩ fs') :
    ∃ (decOutFp : Path) (d y : FileData),
      tempCompressionName filename env.decDigits fs =
        .ok decOutFp fs ∧ decOutFp ≠ recvFp ∧
      (exitCode (decFileOf env.dec e key) = some 0 ∧
        d.bytes = (finalState (decFileOf env.dec e key)).out) ∧
      (exitCode (uncompFileOf lzma env.uncomp d) = some 0 ∧
        y.bytes = (finalState (uncompFileOf lzma env.uncomp d)).out) ∧
      fs' = (((fs.write decOutFp d).delete recvFp).write filename y).delete decOutFp := by
  obtain ⟨decOutFp, fs₁, hname, h₁⟩ := ok_of_bind h
  obtain ⟨_, rfl, _⟩ := tempCompressionName_ok hname
  have hne := mkstemp_ne hname hrecv
  obtain ⟨_, fs₂, hdec, h₂⟩ := ok_of_bind h₁
  obtain ⟨hdecCode, d, hd, rfl⟩ := (callDecFile_ok_iff hrecv).mp hdec
  obtain ⟨_, fs₃, hremove, h₃⟩ := ok_of_bind h₂
  obtain rfl : (fs.write decOutFp d).delete recvFp = fs₃ := by
    cases hremove
    rfl
  obtain ⟨_, fs₄, huncomp, h₄⟩ := ok_of_bind h₃
  have hfile : ((fs.write decOutFp d).delete recvFp) decOutFp = some d := by
    rw [FileSystem.delete_of_ne hne, FileSystem.write_self]
  obtain ⟨huncompCode, y, hy, rfl⟩ := (callUncompFile_ok_iff hfile).mp huncomp
  obtain rfl : (((fs.write decOutFp d).delete recvFp).write filename y).delete
      decOutFp = fs' := by
    cases h₄
    rfl
  exact ⟨decOutFp, d, y, hname, hne, ⟨hdecCode, hd⟩, ⟨huncompCode, hy⟩, rfl⟩

/-- `process_received_file` leaves the uncompressed file at its destination, and
removes what it was given. -/
theorem processReceivedFile_ok {env : ProcessEnv} (hrecv : fs recvFp = some e)
    (h : processReceivedFile lzma env filename recvFp key fs = .ok ⟨⟩ fs') :
    ∃ d y : FileData,
      exitCode (decFileOf env.dec e key) = some 0 ∧
      d.bytes = (finalState (decFileOf env.dec e key)).out ∧
      exitCode (uncompFileOf lzma env.uncomp d) = some 0 ∧
      y.bytes = (finalState (uncompFileOf lzma env.uncomp d)).out ∧
      fs' = (fs.delete recvFp).write filename y := by
  obtain ⟨decOutFp, d, y, hname, hne, ⟨hdecCode, hd⟩, ⟨huncompCode, hy⟩, rfl⟩ :=
    processReceivedFile_chain hrecv h
  obtain ⟨hdFree, _, hdNe⟩ := tempCompressionName_ok hname
  refine ⟨d, y, hdecCode, hd, huncompCode, hy, ?_⟩
  rw [FileSystem.delete_write_of_ne (Ne.symm hdNe),
    FileSystem.delete_write_of_ne hne, FileSystem.delete_write]
  rw [FileSystem.delete_of_ne hne, hdFree]

theorem prepareFile_of {env : PrepareEnv} {c : FileData} {cOutFp eOutFp : Path}
    (hsource : fs filename = some x)
    (hcName : tempCompressionName filename env.compDigits fs = .ok cOutFp fs)
    (heName : tempEncryptionName (compressionName filename) env.encDigits
      (fs.write cOutFp c) = .ok eOutFp (fs.write cOutFp c))
    (hcompCode : exitCode (compFileOf lzma env.comp x) = some 0)
    (hc : c.bytes = (finalState (compFileOf lzma env.comp x)).out)
    (hencCode : exitCode (encFileOf env.enc c key) = some 0)
    (he : e.bytes = (finalState (encFileOf env.enc c key)).out) :
    prepareFile lzma env filename key fs = .ok eOutFp (fs.write eOutFp e) := by
  obtain ⟨hcFree, _, _⟩ := tempCompressionName_ok hcName
  have hne := mkstemp_ne heName FileSystem.write_self
  rw [prepareFile, bind_of_ok hcName,
    bind_of_ok ((callCompFile_ok_iff hsource).mpr ⟨hcompCode, c, hc, rfl⟩),
    bind_of_ok heName,
    bind_of_ok ((callEncFile_ok_iff FileSystem.write_self).mpr
      ⟨hencCode, e, he, rfl⟩)]
  change EStateM.Result.ok eOutFp
    (((fs.write cOutFp c).write eOutFp e).delete cOutFp) = _
  rw [FileSystem.delete_write_of_ne hne, FileSystem.delete_write hcFree]

theorem processReceivedFile_of {env : ProcessEnv} {d y : FileData} {decOutFp : Path}
    (hrecv : fs recvFp = some e)
    (hdName : tempCompressionName filename env.decDigits fs = .ok decOutFp fs)
    (hdecCode : exitCode (decFileOf env.dec e key) = some 0)
    (hd : d.bytes = (finalState (decFileOf env.dec e key)).out)
    (huncompCode : exitCode (uncompFileOf lzma env.uncomp d) = some 0)
    (hy : y.bytes = (finalState (uncompFileOf lzma env.uncomp d)).out) :
    processReceivedFile lzma env filename recvFp key fs =
      .ok ⟨⟩ ((fs.delete recvFp).write filename y) := by
  obtain ⟨hdFree, _, hdNe⟩ := tempCompressionName_ok hdName
  have hne := mkstemp_ne hdName hrecv
  have hfile : ((fs.write decOutFp d).delete recvFp) decOutFp = some d := by
    rw [FileSystem.delete_of_ne hne, FileSystem.write_self]
  have hremove : remove recvFp (fs.write decOutFp d) =
      .ok ⟨⟩ ((fs.write decOutFp d).delete recvFp) := rfl
  rw [processReceivedFile, bind_of_ok hdName,
    bind_of_ok ((callDecFile_ok_iff hrecv).mpr ⟨hdecCode, d, hd, rfl⟩),
    bind_of_ok hremove,
    bind_of_ok ((callUncompFile_ok_iff hfile).mpr ⟨huncompCode, y, hy, rfl⟩)]
  change EStateM.Result.ok _ ((((fs.write decOutFp d).delete
    recvFp).write filename y).delete decOutFp) = _
  rw [FileSystem.delete_write_of_ne (Ne.symm hdNe),
    FileSystem.delete_write_of_ne hne, FileSystem.delete_write]
  rw [FileSystem.delete_of_ne hne, hdFree]

end Chains

end EcFtp
