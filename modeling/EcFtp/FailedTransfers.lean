/-
What `prepare_file`, `process_received_file` and the command handlers leave in the
file system when one of their steps fails: the file at the destination, and the
temporary files.
-/
import EcFtp.Prepare

namespace EcFtp

open Exec

section Calls

variable {lzma : Lzma} {env : Env} {unset : Int} {fs fs' : FileSystem}
  {inputFp outputFp filename fp template : Path} {digits : Digits} {x : FileData}
  {creates : Bool} {reached : Nat} {res : EStateM.Result Exit IoState PUnit} {ex : Exit}

/-- What a call that fails leaves in its output file. -/
theorem callFile_error (h : callFile creates reached res outputFp fs = .error ex fs') :
    fs' = if creates then fs.write outputFp (.clip ((finalState res).handed.take reached))
      else fs := by
  unfold callFile outputLeft at h
  cases hcode : exitCode res with
  | none =>
      rw [hcode] at h
      cases h
      rfl
  | some code =>
      rw [hcode] at h
      by_cases hgood : code = 0 ∧ (finalState res).out.length < 2 ^ 63
      · simp only [if_pos hgood] at h
        cases h
      · have hfails : ¬ (some code = some 0 ∧ (finalState res).out.length < 2 ^ 63) := by
          rwa [Option.some.injEq]
        simp only [if_neg hgood, if_neg hfails] at h
        cases h
        rfl

/-- Whether a call fails has nothing to do with how much of its output has reached the
file. -/
theorem callFile_reaching (h : callFile creates reached res outputFp fs = .error ex fs')
    (n : Nat) :
    ∃ fs'', callFile creates n res outputFp fs = .error ex fs'' := by
  unfold callFile at h ⊢
  cases hcode : exitCode res with
  | none =>
      rw [hcode] at h
      cases h
      exact ⟨_, rfl⟩
  | some code =>
      rw [hcode] at h
      by_cases hgood : code = 0 ∧ (finalState res).out.length < 2 ^ 63
      · simp only [if_pos hgood] at h
        cases h
      · simp only [if_neg hgood] at h ⊢
        cases h
        exact ⟨_, rfl⟩

theorem callFile_error_of_ne
    (h : callFile creates reached res outputFp fs = .error ex fs')
    (hne : fp ≠ outputFp) : fs' fp = fs fp := by
  rw [callFile_error h]
  split
  · exact FileSystem.write_of_ne hne
  · rfl

theorem callFile_of_nonzero {code : Int} (hcode : exitCode res = some code)
    (hne : code ≠ 0) : callFile creates reached res outputFp fs = .error (.ret (-1))
      (if creates then fs.write outputFp (.clip ((finalState res).handed.take reached))
        else fs) := by
  simp only [callFile, outputLeft_of_nonzero hcode hne, hcode, hne, false_and, ↓reduceIte]

theorem callUncompFile_of_nonzero {code : Int} (hfile : fs inputFp = some x)
    (hcode : exitCode (uncompFileOf lzma env x) = some code) (hne : code ≠ 0) :
    callUncompFile lzma env unset reached inputFp outputFp fs = .error (.ret (-1))
      (if !env.fails .fopenIn && !env.fails .fopenOut then
        fs.write outputFp
          (.clip ((finalState (uncompFileOf lzma env x)).handed.take reached))
      else fs) := by
  rw [callUncompFile, stSize_of_some hfile, content_of_some hfile, hfile]
  exact callFile_of_nonzero hcode hne

theorem callUncompFile_error (hfile : fs inputFp = some x)
    (h : callUncompFile lzma env unset reached inputFp outputFp fs = .error ex fs') :
    fs' = if !env.fails .fopenIn && !env.fails .fopenOut then
        fs.write outputFp
          (.clip ((finalState (uncompFileOf lzma env x)).handed.take reached))
      else fs := by
  rw [callUncompFile, stSize_of_some hfile, content_of_some hfile, hfile] at h
  have herror := callFile_error h
  rwa [Option.isSome_some, Bool.true_and] at herror

theorem mkstemp_error (h : mkstemp template digits fs = .error ex fs') : fs' = fs := by
  unfold mkstemp at h
  split at h
  · cases h
    rfl
  · split at h
    · cases h
    · cases h
      rfl

theorem remove_run (fp : Path) (fs : FileSystem) :
    remove fp fs = .ok ⟨⟩ (fs.delete fp) := rfl

end Calls

/-- The names `temp_compression_name` and `temp_recv_name` make of a file name. -/
def IsCompName (filename fp : Path) : Prop :=
  ∃ digits, fp = compressionName filename ++ "-" ++ digits

def IsRecvName (filename fp : Path) : Prop :=
  ∃ digits, fp = compressionName filename ++ ".enc" ++ "-" ++ digits

section Names

variable {filename fp : Path} {digits : Digits} {fs fs' : FileSystem}

theorem tempCompressionName_isCompName
    (h : tempCompressionName filename digits fs = .ok fp fs') : IsCompName filename fp :=
  (mkstemp_ok h).1

theorem tempRecvName_isRecvName
    (h : tempRecvName filename digits fs = .ok fp fs') : IsRecvName filename fp :=
  (mkstemp_ok h).1

/-- What the caller passes as `recv_fp` is not the destination. -/
theorem IsRecvName.ne (h : IsRecvName filename fp) : fp ≠ filename := by
  obtain ⟨digits, rfl⟩ := h
  intro heq
  have hlen := congrArg String.length heq
  simp only [compressionName, String.length_append] at hlen
  have hext : ".comp".length = 5 := rfl
  omega

end Names

/-- `dec_file` returns zero on the received file, with `d` as its output. -/
def Decrypts (env : ProcessEnv) (e : FileData) (key : Key) (d : FileData) : Prop :=
  exitCode (decFileOf env.dec e key) = some 0 ∧
    d.bytes = (finalState (decFileOf env.dec e key)).out

/-- `process_received_file` comes to open its destination for writing, to
uncompress `d` into it. -/
structure OpensDestination (env : ProcessEnv) (filename : Path) (e : FileData)
    (key : Key) (fs : FileSystem) (d : FileData) : Prop where
  named : ∃ decOutFp, tempCompressionName filename env.decDigits fs = .ok decOutFp fs
  decrypted : Decrypts env e key d
  opensIn : env.uncomp.fails .fopenIn = false
  opensOut : env.uncomp.fails .fopenOut = false

section Process

variable {lzma : Lzma} {env : ProcessEnv} {filename recvFp : Path} {key : Key}
  {fs fs' : FileSystem} {e : FileData} {ex : Exit} {code : Int}

/-- The steps at which `process_received_file` fails: the temporary name, the
decryption, the uncompression. -/
theorem processReceivedFile_error (hrecv : fs recvFp = some e)
    (h : processReceivedFile lzma env filename recvFp key fs = .error ex fs') :
    (∀ fp fs₁, tempCompressionName filename env.decDigits fs ≠ .ok fp fs₁) ∧ fs' = fs ∨
      ∃ decOutFp, tempCompressionName filename env.decDigits fs = .ok decOutFp fs ∧
        ((∀ d, ¬ Decrypts env e key d) ∧ (∀ fp, fp ≠ decOutFp → fs' fp = fs fp) ∨
          ∃ d, Decrypts env e key d ∧
            callUncompFile lzma env.uncomp env.unset env.reached decOutFp filename
              ((fs.write decOutFp d).delete recvFp) = .error ex fs') := by
  rcases error_of_bind h with hname | ⟨decOutFp, fs₁, hname, h₁⟩
  · refine .inl ⟨fun fp fs₁ hok => ?_, mkstemp_error hname⟩
    rw [hname] at hok
    cases hok
  · obtain ⟨_, rfl, _⟩ := tempCompressionName_ok hname
    refine .inr ⟨decOutFp, hname, ?_⟩
    rcases error_of_bind h₁ with hdec | ⟨_, fs₂, hdec, h₂⟩
    · refine .inl ⟨fun d ⟨hcode, hd⟩ => ?_, fun fp => callFile_error_of_ne hdec⟩
      rw [(callDecFile_ok_iff hrecv).mpr ⟨hcode, d, hd, rfl⟩] at hdec
      cases hdec
    · obtain ⟨hcode, d, hd, rfl⟩ := (callDecFile_ok_iff hrecv).mp hdec
      refine .inr ⟨d, ⟨hcode, hd⟩, ?_⟩
      rw [bind_of_ok (remove_run recvFp (fs.write decOutFp d))] at h₂
      rcases error_of_bind h₂ with huncomp | ⟨_, fs₃, _, h₃⟩
      · exact huncomp
      · cases h₃

/-- `process_received_file` up to the uncompression. -/
theorem processReceivedFile_of_decrypts {decOutFp : Path} {d : FileData}
    (hrecv : fs recvFp = some e)
    (hok : tempCompressionName filename env.decDigits fs = .ok decOutFp fs)
    (hdec : Decrypts env e key d) {ex : Exit} {fs' : FileSystem}
    (h : callUncompFile lzma env.uncomp env.unset env.reached decOutFp filename
      ((fs.write decOutFp d).delete recvFp) = .error ex fs') :
    processReceivedFile lzma env filename recvFp key fs = .error ex fs' := by
  rw [processReceivedFile, bind_of_ok hok,
    bind_of_ok ((callDecFile_ok_iff hrecv).mpr ⟨hdec.1, d, hdec.2, rfl⟩),
    bind_of_ok (remove_run recvFp _), bind_of_error h]

theorem Decrypts.unique {d d' : FileData} (h : Decrypts env e key d)
    (h' : Decrypts env e key d') : d = d' :=
  FileData.ext (h.2.trans h'.2.symm)

/-- The host, if `n` bytes have reached the file that a failing file function writes. -/
def ProcessEnv.reaching (env : ProcessEnv) (n : Nat) : ProcessEnv :=
  { env with reached := n }

/-- How much has reached a file does not decide what is opened. -/
theorem opensDestination_reaching {d : FileData} {n : Nat} :
    OpensDestination (env.reaching n) filename e key fs d ↔
      OpensDestination env filename e key fs d := by
  constructor
  · intro h
    exact ⟨h.named, h.decrypted, h.opensIn, h.opensOut⟩
  · intro h
    exact ⟨h.named, h.decrypted, h.opensIn, h.opensOut⟩

/-- What a failing `process_received_file` leaves at the destination: the file that was
there, or what has reached the one it has opened for writing. -/
theorem processReceivedFile_dest (hname : IsRecvName filename recvFp)
    (hrecv : fs recvFp = some e)
    (h : processReceivedFile lzma env filename recvFp key fs = .error ex fs') :
    (∀ d, ¬ OpensDestination env filename e key fs d) ∧ fs' filename = fs filename ∨
      ∃ d, OpensDestination env filename e key fs d ∧ fs' filename =
        some (.clip
          ((finalState (uncompFileOf lzma env.uncomp d)).handed.take env.reached)) := by
  rcases processReceivedFile_error hrecv h with
    ⟨hfails, rfl⟩ | ⟨decOutFp, hok, ⟨hfails, hframe⟩ | ⟨d, hdec, huncomp⟩⟩
  · refine .inl ⟨fun d hopens => ?_, rfl⟩
    obtain ⟨decOutFp, hok⟩ := hopens.named
    exact absurd hok (hfails decOutFp fs')
  · obtain ⟨_, _, hne⟩ := tempCompressionName_ok hok
    exact .inl ⟨fun d hopens => absurd hopens.decrypted (hfails d),
      hframe filename hne.symm⟩
  · obtain ⟨hfree, _, hne⟩ := tempCompressionName_ok hok
    have hneRecv : decOutFp ≠ recvFp := by
      intro heq
      rw [heq, hrecv] at hfree
      cases hfree
    have hfile : ((fs.write decOutFp d).delete recvFp) decOutFp = some d := by
      rw [FileSystem.delete_of_ne hneRecv, FileSystem.write_self]
    have hdest : ((fs.write decOutFp d).delete recvFp) filename = fs filename := by
      rw [FileSystem.delete_of_ne hname.ne.symm, FileSystem.write_of_ne hne.symm]
    rw [callUncompFile_error hfile huncomp]
    by_cases hopens :
      env.uncomp.fails .fopenIn = false ∧ env.uncomp.fails .fopenOut = false
    · refine .inr ⟨d, ⟨⟨decOutFp, hok⟩, hdec, hopens.1, hopens.2⟩, ?_⟩
      rw [hopens.1, hopens.2]
      exact FileSystem.write_self
    · have hcond :
          (!env.uncomp.fails .fopenIn && !env.uncomp.fails .fopenOut) = false := by
        rw [Bool.eq_false_iff]
        simpa using hopens
      rw [if_neg (by simp [hcond])]
      exact .inl ⟨fun d' hd' => hopens ⟨hd'.opensIn, hd'.opensOut⟩, hdest⟩

/-- A run that fails behind the opening of its destination also fails if another part of
the output has reached it. -/
theorem processReceivedFile_reaching {d : FileData} (hname : IsRecvName filename recvFp)
    (hrecv : fs recvFp = some e)
    (h : processReceivedFile lzma env filename recvFp key fs = .error ex fs')
    (hopens : OpensDestination env filename e key fs d) (n : Nat) :
    ∃ fs'',
      processReceivedFile lzma (env.reaching n) filename recvFp key fs = .error ex fs'' ∧
      fs'' filename =
        some (.clip ((finalState (uncompFileOf lzma env.uncomp d)).handed.take n)) := by
  obtain ⟨fs'', hrun⟩ : ∃ fs'',
      processReceivedFile lzma (env.reaching n) filename recvFp key
        fs = .error ex fs'' := by
    obtain ⟨decOutFp', hok'⟩ := hopens.named
    rcases processReceivedFile_error hrecv h with
      ⟨hfails, _⟩ | ⟨decOutFp, hok, ⟨hfails, _⟩ | ⟨d', hdec, huncomp⟩⟩
    · exact absurd hok' (hfails decOutFp' fs)
    · exact absurd hopens.decrypted (hfails d)
    · obtain ⟨fs'', huncomp'⟩ := callFile_reaching huncomp n
      have hrun :=
        @processReceivedFile_of_decrypts lzma (env.reaching n) filename recvFp key fs e
        decOutFp d' hrecv hok hdec ex fs'' huncomp'
      exact ⟨fs'', hrun⟩
  refine ⟨fs'', hrun, ?_⟩
  rcases processReceivedFile_dest hname hrecv hrun with ⟨hnot, _⟩ | ⟨d', hopens', hdest⟩
  · exact absurd (opensDestination_reaching.mpr hopens) (hnot d)
  · have hsame : d' = d := Decrypts.unique hopens'.decrypted hopens.decrypted
    rw [hdest, hsame]
    rfl

/-- Whatever of its output has reached the file, the destination is as before: exactly
when it is not opened for writing, or was an empty file and no byte is handed to
`fwrite`. -/
theorem processReceivedFile_keeps_iff (hname : IsRecvName filename recvFp)
    (hrecv : fs recvFp = some e)
    (h : processReceivedFile lzma env filename recvFp key fs = .error (.ret code) fs') :
    (∀ n fs', processReceivedFile lzma (env.reaching n) filename recvFp key fs =
        .error (.ret code) fs' → fs' filename = fs filename) ↔
      ∀ d, OpensDestination env filename e key fs d →
        fs.content filename = some [] ∧
          (finalState (uncompFileOf lzma env.uncomp d)).handed = [] := by
  constructor
  · intro hkeeps d hopens
    have hdest : ∀ n, fs.content filename =
        some ((finalState (uncompFileOf lzma env.uncomp d)).handed.take n
          |>.take (2 ^ 63 - 1)) := by
      intro n
      obtain ⟨fs'', hrun, hleft⟩ := processReceivedFile_reaching hname hrecv h hopens n
      rw [FileSystem.content, ← hkeeps n fs'' hrun, hleft]
      rfl
    -- Nothing has come into the file, or one byte.
    have hnone : fs.content filename = some [] := by
      rw [hdest 0, List.take_zero, List.take_nil]
    have hone := (hdest 1).symm.trans hnone
    refine ⟨hnone, ?_⟩
    rw [Option.some.injEq, List.take_take] at hone
    exact (List.take_eq_nil_iff.mp hone).resolve_left (by decide)
  · intro hcond n fs'' hrun
    rcases processReceivedFile_dest hname hrecv hrun with ⟨_, hsame⟩ | ⟨d, hopens, hdest⟩
    · exact hsame
    · obtain ⟨hempty, hout⟩ := hcond d (opensDestination_reaching.mp hopens)
      obtain ⟨x, hx, hbytes⟩ := Option.map_eq_some_iff.mp hempty
      have hout' :
          (finalState (uncompFileOf lzma (env.reaching n).uncomp d)).handed = [] := hout
      rw [hdest, hx, hout', List.take_nil]
      exact congrArg some (FileData.ext hbytes.symm)

theorem exists_fileData {bs : Bytes} (h : bs.length < 2 ^ 63) :
    ∃ x : FileData, x.bytes = bs := ⟨⟨bs, h⟩, rfl⟩

/-- Where nothing fails, an encrypted file of a few bytes is decrypted. -/
theorem exists_decrypts {d : FileData} (hpos : d.size ≠ 0) (hsmall : d.size < 4096)
    (hdec : env.dec = inOrderEnv.toEnv) (key : Key) : ∃ e, Decrypts env e key d := by
  obtain ⟨hcode, hout⟩ := @encFileOf_reliable inOrderEnv d key (by omega) (by omega)
  have hlen : (finalState (encFileOf inOrderEnv.toEnv d key)).out.length =
      16 * (d.size / 16 + 1) := length_cipherText hout
  have hfits : (finalState (encFileOf inOrderEnv.toEnv d key)).out.length < 2 ^ 63 := by
    omega
  obtain ⟨e, he⟩ := exists_fileData hfits
  have haccepts : Accepted d.size := by
    unfold Accepted
    omega
  have haccepted := accepted_of haccepts inOrderEnv inOrderEnv hcode he
  have hkept : ¬ PadsToNoBatch d.size := by
    unfold PadsToNoBatch
    omega
  refine ⟨e, ?_⟩
  rw [Decrypts, hdec]
  exact ⟨haccepted, (encFileOf_decFileOf_kept hkept hcode he haccepted).symm⟩

end Process

/-- A host that holds a file `"f"` of one byte. -/
def oldFs : FileSystem := FileSystem.write (fun _ => none) "f" (.zeros 1 (by decide))

/-- It has received the file `e`. -/
def recvFs (e : FileData) : FileSystem := oldFs.write "f.comp.enc-aaaaaa" e

def procHost (uncomp : Env) : ProcessEnv :=
  ⟨inOrderEnv.toEnv, uncomp, some "aaaaaa", 0, 0⟩

/-- One library call fails. -/
def failingAt (site : CallSite) : Env := { inOrderEnv.toEnv with fails := (· == site) }

/-- A record of no bytes, on which `uncomp_file` fails. -/
def zeroRecord : FileData := .zeros 17 (by decide)

/-- The received file is decrypted and removed. -/
def decryptedFs (e : FileData) : FileSystem :=
  ((recvFs e).write "f.comp-aaaaaa" zeroRecord).delete "f.comp.enc-aaaaaa"

theorem received_fails {uncomp : Env}
    (hcode : exitCode (uncompFileOf .failing uncomp zeroRecord) = some (-1)) :
    ∃ e, processReceivedFile .failing (procHost uncomp) "f" "f.comp.enc-aaaaaa"
        (Vector.replicate 4 0) (recvFs e) =
      .error (.ret (-1))
        (if !uncomp.fails .fopenIn && !uncomp.fails .fopenOut then
          (decryptedFs e).write "f"
            (.clip ((finalState (uncompFileOf .failing uncomp zeroRecord)).handed.take 0))
        else decryptedFs e) := by
  obtain ⟨e, hdec⟩ := @exists_decrypts (procHost uncomp) zeroRecord
    (by decide) (by decide) rfl (Vector.replicate 4 0)
  have hrecv : recvFs e "f.comp.enc-aaaaaa" = some e := FileSystem.write_self
  have hname : tempCompressionName "f" (procHost uncomp).decDigits (recvFs e) =
      .ok "f.comp-aaaaaa" (recvFs e) := by
    refine @mkstemp_of_free (recvFs e) "f.comp-" (some "aaaaaa") "aaaaaa" rfl ?_
    rw [recvFs, FileSystem.write_of_ne (by decide), oldFs,
      FileSystem.write_of_ne (by decide)]
  refine ⟨e, processReceivedFile_of_decrypts hrecv hname hdec ?_⟩
  refine callUncompFile_of_nonzero ?_ hcode (by decide)
  rw [FileSystem.delete_of_ne (by decide)]
  exact FileSystem.write_self

/-- The destination cannot be opened, and is kept. -/
theorem processReceivedFile_keeps_f : ∃ e fs',
    processReceivedFile .failing (procHost (failingAt .fopenOut)) "f" "f.comp.enc-aaaaaa"
        (Vector.replicate 4 0) (recvFs e) = .error (.ret (-1)) fs' ∧
      fs' "f" = recvFs e "f" := by
  obtain ⟨e, hrun⟩ := @received_fails (failingAt .fopenOut) (by decide)
  have hrecv : recvFs e "f.comp.enc-aaaaaa" = some e := FileSystem.write_self
  refine ⟨e, _, hrun,
    (processReceivedFile_keeps_iff ⟨"aaaaaa", by decide⟩ hrecv hrun).mpr ?_ 0 _ hrun⟩
  intro d hopens
  exact absurd hopens.opensOut (by decide)

/-- The destination is opened, and emptied. -/
theorem processReceivedFile_empties_f : ∃ e fs',
    processReceivedFile .failing (procHost inOrderEnv.toEnv) "f" "f.comp.enc-aaaaaa"
        (Vector.replicate 4 0) (recvFs e) = .error (.ret (-1)) fs' ∧
      fs' "f" ≠ recvFs e "f" := by
  obtain ⟨e, hrun⟩ := @received_fails inOrderEnv.toEnv (by decide)
  have hold : recvFs e "f" = some (.zeros 1 (by decide)) := by
    rw [recvFs, FileSystem.write_of_ne (by decide), oldFs, FileSystem.write_self]
  refine ⟨e, _, hrun, ?_⟩
  rw [hold]
  have hopens : (!inOrderEnv.fails .fopenIn && !inOrderEnv.fails .fopenOut) = true := rfl
  rw [if_pos hopens, FileSystem.write_self]
  intro heq
  have hbytes := congrArg FileData.bytes (Option.some.inj heq)
  exact absurd hbytes (by decide)

/-- A call that ends with the file system `fs'`, whatever it returns. -/
def Returns {α : Type} (p : FileProg α) (fs fs' : FileSystem) : Prop :=
  (∃ a, p fs = .ok a fs') ∨ ∃ code, p fs = .error (.ret code) fs'

/-- `'<name>.comp-XXXXXX'` and `'<name>.comp.enc-XXXXXX'`. -/
def IsTempName (filename fp : Path) : Prop :=
  IsCompName filename fp ∨ IsRecvName filename fp

/-- Every temporary file of `filename` was there before. -/
def NoTempLeft (filename : Path) (fs fs' : FileSystem) : Prop :=
  ∀ fp, IsTempName filename fp → fs fp = none → fs' fp = none

/-- What `do_get` and `do_stor` leave to their host: the characters of the
temporary name, whether that file can be opened, what is read and written into it,
and whether the last `read` returned `-1`. -/
structure RecvHost where
  recvDigits : Digits
  opens : Bool
  received : Bytes
  readFails : Bool

/-- What `do_put` and `do_retr` leave to their host: whether the file is there,
whether the prepared file can be opened, and whether `err` is set. -/
structure SendHost where
  found : Bool
  opens : Bool
  err : Bool

section Handlers

variable (lzma : Lzma) (key : Key)

/-- A receiving handler on the files of its host; `removes` tells whether it looks
for a failed `read`. -/
def receiveInto (removes : Bool) (env : ProcessEnv) (host : RecvHost) :
    Option Path → FileProg PUnit
  | none => throw (.ret (-1))
  | some filename => do
      let recvFp ← tempRecvName filename host.recvDigits
      exitIf (!host.opens) (.ret (-1))
      modify fun fs => fs.write recvFp (.clip host.received)
      if removes && host.readFails then do
        remove recvFp
        throw (.ret (-1))
      else processReceivedFile lzma env filename recvFp key

def doGetFiles (env : ProcessEnv) (host : RecvHost) : Option Path → FileProg PUnit :=
  receiveInto lzma key true env host

def doStorFiles (env : ProcessEnv) (host : RecvHost) : Option Path → FileProg PUnit :=
  receiveInto lzma key false env host

/-- A sending handler on the files of its host. -/
def sendFrom (env : PrepareEnv) (host : SendHost) : Option Path → FileProg PUnit
  | none => throw (.ret (-1))
  | some filename => do
      exitIf (!host.found) (.ret (-1))
      let preparedFp ← prepareFile lzma env filename key
      exitIf (!host.opens) (.ret (-1))
      remove preparedFp
      exitIf host.err (.ret (-1))

/-- `do_put` does not look for the file, and has no `err`. -/
def doPutFiles (env : PrepareEnv) (opens : Bool) : Option Path → FileProg PUnit :=
  sendFrom lzma key env ⟨true, opens, false⟩

def doRetrFiles (env : PrepareEnv) (host : SendHost) : Option Path → FileProg PUnit :=
  sendFrom lzma key env host

/-- `prepare_file` fails before there is a temporary file. -/
def CreatesNothing (env : PrepareEnv) (filename : Path) (fs : FileSystem) : Prop :=
  (∀ fp fs₁, tempCompressionName filename env.compDigits fs ≠ .ok fp fs₁) ∨
    env.comp.fails .fopenOut = true

/-- Every step of `prepare_file` succeeds. -/
def PrepareSteps (env : PrepareEnv) (filename : Path) (fs : FileSystem) : Prop :=
  ∃ cOutFp eOutFp fs₁ fs₂,
    tempCompressionName filename env.compDigits fs = .ok cOutFp fs ∧
    callCompFile lzma env.comp env.unset env.reached filename cOutFp fs = .ok ⟨⟩ fs₁ ∧
    tempEncryptionName (compressionName filename) env.encDigits fs₁ = .ok eOutFp fs₁ ∧
    callEncFile env.enc env.unset env.reached cOutFp eOutFp key fs₁ = .ok ⟨⟩ fs₂

/-- Every step of `process_received_file` succeeds. -/
def ProcessSteps (env : ProcessEnv) (filename recvFp : Path) (fs : FileSystem) : Prop :=
  ∃ decOutFp fs₁ fs₂,
    tempCompressionName filename env.decDigits fs = .ok decOutFp fs ∧
    callDecFile env.dec env.unset env.reached recvFp decOutFp key fs = .ok ⟨⟩ fs₁ ∧
    callUncompFile lzma env.uncomp env.unset env.reached decOutFp
      filename (fs₁.delete recvFp) =
      .ok ⟨⟩ fs₂

/-- The points at which a receiving handler ends without a temporary file: before
there is one, on a failed `read` it looks for, and at its end. -/
def ReceiveClean (removes : Bool) (env : ProcessEnv) (host : RecvHost)
    (filename : Path) (fs : FileSystem) : Prop :=
  (∀ fp fs₁, tempRecvName filename host.recvDigits fs ≠ .ok fp fs₁) ∨
    host.opens = false ∨ (removes && host.readFails) = true ∨
      ∃ recvFp, tempRecvName filename host.recvDigits fs = .ok recvFp fs ∧
        ProcessSteps lzma key env filename recvFp
          (fs.write recvFp (.clip host.received))

/-- The points at which a sending handler does. -/
def SendClean (env : PrepareEnv) (host : SendHost) (filename : Path)
    (fs : FileSystem) : Prop :=
  host.found = false ∨ CreatesNothing env filename fs ∨
    PrepareSteps lzma key env filename fs ∧ host.opens = true

end Handlers

section Sound

variable {α β : Type} {lzma : Lzma} {key : Key} {env : PrepareEnv} {penv : ProcessEnv}
  {filename recvFp fp : Path} {fs fs₀ fs' : FileSystem} {e : FileData} {ex : Exit}
  {code : Int}

theorem returns_bind {p : FileProg α} {f : α → FileProg β}
    (h : Returns (p >>= f) fs fs') :
    (∃ code, p fs = .error (.ret code) fs') ∨
      ∃ a fs₁, p fs = .ok a fs₁ ∧ Returns (f a) fs₁ fs' := by
  rcases h with ⟨b, hok⟩ | ⟨code, herror⟩
  · obtain ⟨a, fs₁, hrun, hrest⟩ := ok_of_bind hok
    exact .inr ⟨a, fs₁, hrun, .inl ⟨b, hrest⟩⟩
  · rcases error_of_bind herror with hrun | ⟨a, fs₁, hrun, hrest⟩
    · exact .inl ⟨code, hrun⟩
    · exact .inr ⟨a, fs₁, hrun, .inr ⟨code, hrest⟩⟩

theorem returns_exitIf {c : Bool} {f : PUnit → FileProg α}
    (h : Returns (exitIf c (.ret (-1)) >>= f) fs fs') :
    c = true ∧ fs' = fs ∨ c = false ∧ Returns (f ⟨⟩) fs fs' := by
  cases c with
  | true =>
      rcases h with ⟨a, hok⟩ | ⟨code, herror⟩
      · cases hok
      · cases herror
        exact .inl ⟨rfl, rfl⟩
  | false => exact .inr ⟨rfl, h⟩

theorem returns_throw (h : Returns (throw (.ret code) : FileProg α) fs fs') :
    fs' = fs := by
  rcases h with ⟨a, hok⟩ | ⟨code, herror⟩
  · cases hok
  · cases herror
    rfl

/-- Whether a function returns at its end with an error or without. -/
theorem returns_last {c : Bool} (h : Returns (exitIf c (.ret (-1))) fs fs') :
    fs' = fs := by
  cases c with
  | true => exact returns_throw h
  | false =>
      rcases h with ⟨a, hok⟩ | ⟨code, herror⟩
      · cases hok
        rfl
      · cases herror

theorem returns_remove {f : PUnit → FileProg α} (h : Returns (remove fp >>= f) fs fs') :
    Returns (f ⟨⟩) (fs.delete fp) fs' := by
  unfold Returns at h ⊢
  rwa [bind_of_ok (remove_run fp fs)] at h

/-- A temporary file is not the file itself. -/
theorem IsTempName.ne (h : IsTempName filename fp) : fp ≠ filename := by
  rcases h with ⟨digits, rfl⟩ | hrecv
  · intro heq
    have hlen := congrArg String.length heq
    simp only [compressionName, String.length_append] at hlen
    have hext : ".comp".length = 5 := rfl
    omega
  · exact hrecv.ne

theorem noTempLeft_of_same (h : ∀ fp, fp ≠ filename → fs' fp = fs fp) :
    NoTempLeft filename fs fs' := by
  intro fp htemp hfree
  rw [h fp htemp.ne, hfree]

theorem noTempLeft_self : NoTempLeft filename fs fs := noTempLeft_of_same fun _ _ => rfl

theorem not_noTempLeft (htemp : IsTempName filename fp) (hfree : fs fp = none)
    (hleft : fs' fp = some e) : ¬ NoTempLeft filename fs fs' := by
  intro h
  rw [h fp htemp hfree] at hleft
  cases hleft

theorem callCompFile_creates {env : Env} {unset : Int} {inputFp outputFp : Path}
    (h : callCompFile lzma env unset reached inputFp outputFp fs = .ok ⟨⟩ fs') :
    env.fails .fopenOut = false ∧ ∃ y, fs' = fs.write outputFp y := by
  obtain ⟨hcode, y, _, hfs⟩ := callFile_ok h fun hcode => by
    rw [not_fails_of_zero hcode]
    rfl
  exact ⟨not_fails_of_zero hcode, y, hfs⟩

theorem callEncFile_creates {env : Env} {unset : Int} {inputFp outputFp : Path}
    (h : callEncFile env unset reached inputFp outputFp key fs = .ok ⟨⟩ fs') :
    ∃ y, fs' = fs.write outputFp y := by
  obtain ⟨_, y, _, hfs⟩ := callFile_ok h fun hcode => by
    rw [not_fails_of_zero hcode]
    rfl
  exact ⟨y, hfs⟩

theorem PrepareSteps.not_createsNothing (h : PrepareSteps lzma key env filename fs) :
    ¬ CreatesNothing env filename fs := by
  obtain ⟨cOutFp, eOutFp, fs₁, fs₂, hname, hcomp, _⟩ := h
  rintro (hnone | hfails)
  · exact hnone cOutFp fs hname
  · rw [(callCompFile_creates hcomp).1] at hfails
    cases hfails

/-- `prepare_file` returns zero when its steps succeed, and leaves one new file. -/
theorem prepareFile_steps {preparedFp : Path}
    (h : prepareFile lzma env filename key fs = .ok preparedFp fs') :
    PrepareSteps lzma key env filename fs ∧ IsTempName filename preparedFp ∧
      fs preparedFp = none ∧ ∃ y, fs' = fs.write preparedFp y := by
  obtain ⟨cOutFp, fs₁, hname, h₁⟩ := ok_of_bind h
  obtain ⟨hcFree, rfl, _⟩ := tempCompressionName_ok hname
  obtain ⟨_, fs₂, hcomp, h₂⟩ := ok_of_bind h₁
  obtain ⟨_, c, rfl⟩ := callCompFile_creates hcomp
  obtain ⟨eOutFp, fs₃, hname', h₃⟩ := ok_of_bind h₂
  obtain ⟨hform, heFree, rfl⟩ := mkstemp_ok hname'
  obtain ⟨_, fs₄, henc, h₄⟩ := ok_of_bind h₃
  have hsteps : PrepareSteps lzma key env filename fs :=
    ⟨cOutFp, eOutFp, _, fs₄, hname, hcomp, hname', henc⟩
  obtain ⟨y, rfl⟩ := callEncFile_creates henc
  have hne := mkstemp_ne hname' FileSystem.write_self
  rw [FileSystem.write_of_ne hne] at heFree
  cases h₄
  refine ⟨hsteps, .inr hform, heFree, y, ?_⟩
  refine (FileSystem.delete_write_of_ne hne).trans ?_
  rw [FileSystem.delete_write hcFree]

/-- Where `prepare_file` fails behind the opening of its first temporary file, that
file is left. -/
theorem prepareFile_error (h : prepareFile lzma env filename key fs = .error ex fs') :
    CreatesNothing env filename fs ∧ fs' = fs ∨
      ¬ CreatesNothing env filename fs ∧
        ∃ cOutFp y, IsTempName filename cOutFp ∧ fs cOutFp = none ∧
          fs' cOutFp = some y := by
  rcases error_of_bind h with hname | ⟨cOutFp, fs₁, hname, h₁⟩
  · refine .inl ⟨.inl fun fp fs₁ hok => ?_, mkstemp_error hname⟩
    rw [hname] at hok
    cases hok
  obtain ⟨hcFree, rfl, _⟩ := tempCompressionName_ok hname
  have htemp : IsTempName filename cOutFp := .inl (tempCompressionName_isCompName hname)
  have hnothing : CreatesNothing env filename fs ↔ env.comp.fails .fopenOut = true := by
    refine ⟨fun h => ?_, .inr⟩
    rcases h with hnone | hfails
    · exact absurd hname (hnone cOutFp fs)
    · exact hfails
  rcases error_of_bind h₁ with hcomp | ⟨_, fs₂, hcomp, h₂⟩
  · have hfs := callFile_error hcomp
    rw [hnothing, hfs]
    cases hopen : env.comp.fails .fopenOut with
    | true => exact .inl ⟨rfl, rfl⟩
    | false => exact .inr ⟨by simp, cOutFp, _, htemp, hcFree, FileSystem.write_self⟩
  · obtain ⟨hopen, c, rfl⟩ := callCompFile_creates hcomp
    refine .inr ⟨by rw [hnothing, hopen]; simp, cOutFp, c, htemp, hcFree, ?_⟩
    rcases error_of_bind h₂ with hname' | ⟨eOutFp, fs₃, hname', h₃⟩
    · rw [mkstemp_error hname', FileSystem.write_self]
    · obtain ⟨_, _, rfl⟩ := mkstemp_ok hname'
      have hne := (mkstemp_ne hname' FileSystem.write_self).symm
      rcases error_of_bind h₃ with henc | ⟨_, fs₄, _, h₄⟩
      · rw [callFile_error_of_ne henc hne, FileSystem.write_self]
      · cases h₄

theorem prepareFile_of_steps (h : PrepareSteps lzma key env filename fs) :
    ∃ preparedFp fs', prepareFile lzma env filename key fs = .ok preparedFp fs' := by
  obtain ⟨cOutFp, eOutFp, fs₁, fs₂, hname, hcomp, hname', henc⟩ := h
  refine ⟨eOutFp, fs₂.delete cOutFp, ?_⟩
  rw [prepareFile, bind_of_ok hname, bind_of_ok hcomp, bind_of_ok hname',
    bind_of_ok henc, bind_of_ok (remove_run cOutFp fs₂)]
  rfl

theorem processReceivedFile_of_steps
    (h : ProcessSteps lzma key penv filename recvFp fs) :
    ∃ fs', processReceivedFile lzma penv filename recvFp key fs = .ok ⟨⟩ fs' := by
  obtain ⟨decOutFp, fs₁, fs₂, hname, hdec, huncomp⟩ := h
  refine ⟨fs₂.delete decOutFp, ?_⟩
  rw [processReceivedFile, bind_of_ok hname, bind_of_ok hdec,
    bind_of_ok (remove_run recvFp fs₁), bind_of_ok huncomp]
  rfl

theorem processReceivedFile_steps
    (h : processReceivedFile lzma penv filename recvFp key fs = .ok ⟨⟩ fs') :
    ProcessSteps lzma key penv filename recvFp fs := by
  obtain ⟨decOutFp, fs₁, hname, h₁⟩ := ok_of_bind h
  obtain ⟨_, rfl, _⟩ := tempCompressionName_ok hname
  obtain ⟨_, fs₂, hdec, h₂⟩ := ok_of_bind h₁
  rw [bind_of_ok (remove_run recvFp fs₂)] at h₂
  obtain ⟨_, fs₃, huncomp, _⟩ := ok_of_bind h₂
  exact ⟨decOutFp, fs₂, fs₃, hname, hdec, huncomp⟩

/-- A `process_received_file` that fails leaves the file it was given, or the
decrypted one. -/
theorem processReceivedFile_leaves (hname : IsRecvName filename recvFp)
    (hfree : fs₀ recvFp = none)
    (h : processReceivedFile lzma penv filename recvFp key (fs₀.write recvFp e) =
      .error ex fs') : ¬ NoTempLeft filename fs₀ fs' := by
  have hrecv : (fs₀.write recvFp e) recvFp = some e := FileSystem.write_self
  rcases processReceivedFile_error hrecv h with
    ⟨_, rfl⟩ | ⟨decOutFp, hok, ⟨_, hframe⟩ | ⟨d, _, huncomp⟩⟩
  · exact not_noTempLeft (.inr hname) hfree hrecv
  · have hne := (mkstemp_ne hok hrecv).symm
    exact not_noTempLeft (.inr hname) hfree ((hframe recvFp hne).trans hrecv)
  · obtain ⟨hdFree, _, hdNe⟩ := tempCompressionName_ok hok
    have hne := mkstemp_ne hok hrecv
    rw [FileSystem.write_of_ne hne] at hdFree
    have hleft : fs' decOutFp = some d := by
      rw [callFile_error_of_ne huncomp hdNe, FileSystem.delete_of_ne hne,
        FileSystem.write_self]
    exact not_noTempLeft (.inl (tempCompressionName_isCompName hok)) hdFree hleft

/-- `process_received_file`, on a file that is new, leaves nothing when it succeeds. -/
theorem processReceivedFile_noTempLeft_iff (hname : IsRecvName filename recvFp)
    (hfree : fs₀ recvFp = none)
    (h : Returns (processReceivedFile lzma penv filename recvFp key)
      (fs₀.write recvFp e) fs') :
    NoTempLeft filename fs₀ fs' ↔
      ProcessSteps lzma key penv filename recvFp (fs₀.write recvFp e) := by
  rcases h with ⟨_, hok⟩ | ⟨code, herror⟩
  · refine iff_of_true ?_ (processReceivedFile_steps hok)
    obtain ⟨d, y, _, _, _, _, rfl⟩ := processReceivedFile_ok FileSystem.write_self hok
    rw [FileSystem.delete_write hfree]
    exact noTempLeft_of_same fun _ hne => FileSystem.write_of_ne hne
  · refine iff_of_false (processReceivedFile_leaves hname hfree herror) ?_
    intro hsteps
    obtain ⟨fs₁, hok⟩ := processReceivedFile_of_steps hsteps
    rw [herror] at hok
    cases hok

/-- What a sending handler leaves. -/
theorem sendFrom_noTempLeft_iff {host : SendHost}
    (h : Returns (sendFrom lzma key env host (some filename)) fs fs') :
    NoTempLeft filename fs fs' ↔ SendClean lzma key env host filename fs := by
  rcases returns_exitIf h with ⟨hfound, rfl⟩ | ⟨hfound, h₁⟩
  · exact iff_of_true noTempLeft_self (.inl (by simpa using hfound))
  have hfound : host.found ≠ false := by simpa using hfound
  rcases returns_bind h₁ with ⟨code, hprepare⟩ | ⟨preparedFp, fs₁, hprepare, h₂⟩
  · have hsteps : ¬ PrepareSteps lzma key env filename fs := by
      intro hsteps
      obtain ⟨_, _, hok⟩ := prepareFile_of_steps hsteps
      rw [hprepare] at hok
      cases hok
    rcases prepareFile_error hprepare with ⟨hnothing, rfl⟩ |
      ⟨hsome, cOutFp, y, htemp, hfree, hleft⟩
    · exact iff_of_true noTempLeft_self (.inr (.inl hnothing))
    · refine iff_of_false (not_noTempLeft htemp hfree hleft) ?_
      rintro (hnot | hnothing | ⟨hall, _⟩)
      · exact hfound hnot
      · exact hsome hnothing
      · exact hsteps hall
  · obtain ⟨hsteps, htemp, hfree, y, rfl⟩ := prepareFile_steps hprepare
    rcases returns_exitIf h₂ with ⟨hopens, rfl⟩ | ⟨hopens, h₃⟩
    · refine iff_of_false (not_noTempLeft htemp hfree FileSystem.write_self) ?_
      rintro (hnot | hnothing | ⟨_, hopen⟩)
      · exact hfound hnot
      · exact hsteps.not_createsNothing hnothing
      · simp [hopen] at hopens
    · have hfs : fs' = fs := by
        rw [returns_last (returns_remove h₃), FileSystem.delete_write hfree]
      rw [hfs]
      exact iff_of_true noTempLeft_self (.inr (.inr ⟨hsteps, by simpa using hopens⟩))

/-- What a receiving handler leaves. -/
theorem receiveInto_noTempLeft_iff {removes : Bool} {host : RecvHost}
    (h : Returns (receiveInto lzma key removes penv host (some filename)) fs fs') :
    NoTempLeft filename fs fs' ↔
      ReceiveClean lzma key removes penv host filename fs := by
  rcases returns_bind h with ⟨code, hname⟩ | ⟨recvFp, fs₁, hname, h₁⟩
  · refine iff_of_true ?_ (.inl fun fp fs₁ hok => ?_)
    · rw [mkstemp_error hname]
      exact noTempLeft_self
    · rw [hname] at hok
      cases hok
  obtain ⟨_, hfree, rfl⟩ := mkstemp_ok hname
  rcases returns_exitIf h₁ with ⟨hopens, rfl⟩ | ⟨hopens, h₂⟩
  · exact iff_of_true noTempLeft_self (.inr (.inl (by simpa using hopens)))
  rcases returns_bind h₂ with ⟨code, hwrite⟩ | ⟨_, fs₂, hwrite, h₃⟩
  · cases hwrite
  cases hwrite
  cases hremoves : removes && host.readFails with
  | true =>
      rw [hremoves] at h₃
      refine iff_of_true ?_ (.inr (.inr (.inl hremoves)))
      rw [returns_throw (returns_remove h₃), FileSystem.delete_write hfree]
      exact noTempLeft_self
  | false =>
      rw [hremoves] at h₃
      rw [processReceivedFile_noTempLeft_iff (tempRecvName_isRecvName hname) hfree h₃]
      constructor
      · intro hsteps
        exact .inr (.inr (.inr ⟨recvFp, hname, hsteps⟩))
      · rintro (hnone | hnot | hremove | ⟨fp, hname', hsteps⟩)
        · exact absurd hname (hnone recvFp fs)
        · simp [hnot] at hopens
        · simp [hremoves] at hremove
        · rw [hname] at hname'
          cases hname'
          exact hsteps

/-- Without a name nothing is done. -/
theorem returns_noName {removes : Bool} {host : RecvHost} {shost : SendHost} :
    (Returns (receiveInto lzma key removes penv host none) fs fs' → fs' = fs) ∧
      (Returns (sendFrom lzma key env shost none) fs fs' → fs' = fs) :=
  ⟨returns_throw, returns_throw⟩

end Sound

/-- Where each helper and each handler leaves no temporary file behind. -/
theorem noTempLeft_iff (lzma : Lzma) (key : Key) (filename : Path) :
    (∀ env fs code fs', prepareFile lzma env filename key fs = .error (.ret code) fs' →
      (NoTempLeft filename fs fs' ↔ CreatesNothing env filename fs)) ∧
    (∀ env recvFp e fs code fs', IsRecvName filename recvFp → fs recvFp = none →
      processReceivedFile lzma env filename recvFp key (fs.write recvFp e) =
        .error (.ret code) fs' → ¬ NoTempLeft filename fs fs') ∧
    (∀ env host fs fs', Returns (doGetFiles lzma key env host (some filename)) fs fs' →
      (NoTempLeft filename fs fs' ↔ ReceiveClean lzma key true env host filename fs)) ∧
    (∀ env host fs fs', Returns (doStorFiles lzma key env host (some filename)) fs fs' →
      (NoTempLeft filename fs fs' ↔ ReceiveClean lzma key false env host filename fs)) ∧
    (∀ env opens fs fs', Returns (doPutFiles lzma key env opens (some filename)) fs fs' →
      (NoTempLeft filename fs fs' ↔
        SendClean lzma key env ⟨true, opens, false⟩ filename fs)) ∧
    ∀ env host fs fs', Returns (doRetrFiles lzma key env host (some filename)) fs fs' →
      (NoTempLeft filename fs fs' ↔ SendClean lzma key env host filename fs) := by
  refine ⟨fun env fs code fs' h => ?_, fun env recvFp e fs code fs' hname hfree h => ?_,
    fun env host fs fs' h => ?_, fun env host fs fs' h => ?_,
    fun env opens fs fs' h => ?_, fun env host fs fs' h => ?_⟩
  · rcases prepareFile_error h with ⟨hnothing, rfl⟩ |
      ⟨hsome, cOutFp, y, htemp, hfree, hleft⟩
    · exact iff_of_true (noTempLeft_of_same fun _ _ => rfl) hnothing
    · exact iff_of_false (not_noTempLeft htemp hfree hleft) hsome
  · exact processReceivedFile_leaves hname hfree h
  · exact receiveInto_noTempLeft_iff h
  · exact receiveInto_noTempLeft_iff h
  · exact sendFrom_noTempLeft_iff h
  · exact sendFrom_noTempLeft_iff h

/-- A host on which no temporary name is found. -/
def namelessHost : PrepareEnv := ⟨inOrderEnv.toEnv, inOrderEnv.toEnv, none, none, 0, 0⟩

theorem noTempLeft_f :
    NoTempLeft "f" oldFs oldFs ∧
      ∃ e fs', processReceivedFile .failing (procHost inOrderEnv.toEnv) "f"
          "f.comp.enc-aaaaaa" (Vector.replicate 4 0) (recvFs e) = .error (.ret (-1)) fs' ∧
        ¬ NoTempLeft "f" oldFs fs' := by
  obtain ⟨hprepare, hprocess, _⟩ := noTempLeft_iff .failing (Vector.replicate 4 0) "f"
  have hnone : CreatesNothing namelessHost "f" oldFs :=
    .inl fun fp fs₁ hok => by cases hok
  have hclean := (hprepare namelessHost oldFs (-1) oldFs rfl).mpr hnone
  obtain ⟨e, hrun⟩ := @received_fails inOrderEnv.toEnv (by decide)
  refine ⟨hclean, e, _, hrun,
    hprocess (procHost inOrderEnv.toEnv) "f.comp.enc-aaaaaa" e oldFs
    (-1) _ ⟨"aaaaaa", by decide⟩ ?_ hrun⟩
  exact FileSystem.write_of_ne (by decide)

/-- The decrypted file is left when `uncomp_file` fails. -/
theorem tempLeft_f : ∃ e fs',
    processReceivedFile .failing (procHost inOrderEnv.toEnv) "f" "f.comp.enc-aaaaaa"
        (Vector.replicate 4 0) (recvFs e) = .error (.ret (-1)) fs' ∧
      oldFs "f.comp-aaaaaa" = none ∧ fs' "f.comp-aaaaaa" = some zeroRecord := by
  obtain ⟨e, hrun⟩ := @received_fails inOrderEnv.toEnv (by decide)
  refine ⟨e, _, hrun, FileSystem.write_of_ne (by decide), ?_⟩
  have hopens : (!inOrderEnv.fails .fopenIn && !inOrderEnv.fails .fopenOut) = true := rfl
  rw [if_pos hopens, FileSystem.write_of_ne (by decide), decryptedFs,
    FileSystem.delete_of_ne (by decide), FileSystem.write_self]

end EcFtp
