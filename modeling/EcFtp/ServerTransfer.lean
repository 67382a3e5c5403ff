/-
`do_stor` and `do_retr` once the key is agreed on, as functions of what the
calls on the data connection return: which reply goes out, and what has become
of the file by then.
-/
import EcFtp.Prepare

namespace EcFtp

open Exec

/-- `MAXLINE`. -/
def maxLine : Nat := 4096

/-- The replies of the server. -/
inductive Reply where
  | commandOk
  | goodbye
  | noSuchFile
  | noSuchFilename
  | notTaken
  | notDetected
  | aborted
  | listAborted
deriving Repr, DecidableEq

def Reply.text : Reply → String
  | commandOk => "200 Command OK"
  | goodbye => "221 Goodbye"
  | noSuchFile => "550 No Such File or Directory\n"
  | noSuchFilename => "550 Filename Does Not Exist"
  | notTaken => "450 Requested file action not taken.\n"
  | notDetected => "450 Requested file action not taken.\nFilename Not Detected\n"
  | aborted => "451 Requested action aborted. Local error in processing\n"
  | listAborted => "451 Requested action aborted. Local error in processing.\n"

/-- What `atoi` makes of the first word of a reply. -/
def Reply.code : Reply → Nat
  | commandOk => 200
  | goodbye => 221
  | noSuchFile => 550
  | noSuchFilename => 550
  | notTaken => 450
  | notDetected => 450
  | aborted => 451
  | listAborted => 451

/-- What `read` on the data connection returns: some bytes, the end of the
file, or `-1`. -/
inductive ReadResult where
  | data (bs : Bytes)
  | eof
  | error
deriving Repr, DecidableEq

/-- `read_len`. -/
def ReadResult.len : ReadResult → Int
  | data bs => bs.length
  | eof => 0
  | error => -1

def ReadResult.bytes : ReadResult → Bytes
  | data bs => bs
  | eof => []
  | error => []

/-- What `do_stor` finds on its host: the name in the command, the temporary
name, and whether the file of that name can be opened. -/
structure StorHost where
  filename : Option Path
  recvFp : Option Path
  opens : Bool

/-- The receiving loop: what was read, and the last result. -/
structure Receiving where
  received : Bytes
  last : Option ReadResult

def Receiving.start : Receiving := ⟨[], none⟩

/-- `while ((read_len = read(datafd, recvline, MAXLINE)) > 0)` goes on. -/
def Receiving.more (s : Receiving) : Bool :=
  match s.last with
  | none => true
  | some r => 0 < r.len

/-- One turn of the loop; `none` when `read` is not called, or cannot return
this. -/
def readStep (s : Receiving) (r : ReadResult) : Option Receiving :=
  if s.more ∧ r ≠ .data [] ∧ r.bytes.length ≤ maxLine then
    some ⟨s.received ++ r.bytes, some r⟩
  else none

/-- What a run of `do_stor` has done: its replies, and what
`process_received_file` returned when it was called. -/
structure StorRun where
  replies : List Reply
  processed : Option (EStateM.Result Exit FileSystem PUnit)

/-- What follows the receiving loop, once it is over. -/
def storAfter (process : Path → Path → FileProg PUnit) (filename recvFp : Path)
    (fs : FileSystem) (s : Receiving) : StorRun :=
  if s.more then ⟨[], none⟩
  else ⟨[.commandOk],
    some (process filename recvFp (fs.write recvFp (.clip s.received)))⟩

/-- `do_stor`, as far as `reads` lead it; `process` is `process_received_file`
with the key. -/
def doStor (process : Path → Path → FileProg PUnit) (host : StorHost)
    (fs : FileSystem) (reads : List ReadResult) : Option StorRun :=
  match host.filename with
  | none => if reads = [] then some ⟨[.notTaken], none⟩ else none
  | some filename =>
      match host.recvFp with
      | none => if reads = [] then some ⟨[], none⟩ else none
      | some recvFp =>
          if host.opens then
            (reads.foldlM readStep .start).map
              (storAfter process filename recvFp fs)
          else if reads = [] then some ⟨[], none⟩ else none

/-- `200 Command OK` means the connection came to its end, and the file is
stored. -/
def Acknowledges (reads : List ReadResult) (run : StorRun) : Prop :=
  .commandOk ∈ run.replies →
    reads.getLast? = some .eof ∧ ∃ fs', run.processed = some (.ok ⟨⟩ fs')

/-- The bytes of some reads. -/
def readBytesOf (reads : List ReadResult) : Bytes := reads.flatMap ReadResult.bytes

/-- Where the received bytes lead: the reads end with the end of the file, and
`process_received_file` returns zero on what they brought. -/
def Storable (process : Path → Path → FileProg PUnit) (host : StorHost)
    (fs : FileSystem) (reads : List ReadResult) : Prop :=
  ∀ filename recvFp, host.filename = some filename → host.recvFp = some recvFp →
    host.opens = true → (∃ r ∈ reads, r.len ≤ 0) →
      reads.getLast? = some .eof ∧ ∃ fs', process filename recvFp
        (fs.write recvFp (.clip (readBytesOf reads))) = .ok ⟨⟩ fs'

section Stor

variable {reads : List ReadResult} {s s' : Receiving} {r : ReadResult}

theorem readStep_some (h : readStep s r = some s') :
    s.more = true ∧ s' = ⟨s.received ++ r.bytes, some r⟩ := by
  unfold readStep at h
  split at h
  · rename_i hmore
    exact ⟨hmore.1, (Option.some.inj h).symm⟩
  · cases h

/-- The receiving loop has the bytes of the reads, and ends at the first one
that brings none. -/
theorem readSteps_some (h : reads.foldlM readStep s = some s') :
    s'.received = s.received ++ readBytesOf reads ∧
      (s.more = true → (s'.more = false ↔ ∃ r ∈ reads, r.len ≤ 0)) := by
  induction reads generalizing s with
  | nil =>
      cases h
      refine ⟨(List.append_nil _).symm, fun hmore => ?_⟩
      simp [hmore]
  | cons r reads ih =>
      rw [List.foldlM_cons, Option.bind_eq_bind, Option.bind_eq_some_iff] at h
      obtain ⟨s₁, hstep, hrest⟩ := h
      obtain ⟨_, rfl⟩ := readStep_some hstep
      obtain ⟨hreceived, hmore⟩ := ih hrest
      refine ⟨?_, fun _ => ?_⟩
      · rw [hreceived, readBytesOf, readBytesOf, List.flatMap_cons,
          List.append_assoc]
      · by_cases hr : 0 < r.len
        · rw [hmore (by simp [Receiving.more, hr])]
          simp [not_le.mpr hr]
        · have hover : readStep ⟨s.received ++ r.bytes, some r⟩ =
              fun _ => none := by
            funext r'
            simp [readStep, Receiving.more, hr]
          cases reads with
          | nil =>
              cases hrest
              simp [Receiving.more, hr, not_lt.mp hr]
          | cons r' reads =>
              rw [List.foldlM_cons, hover] at hrest
              cases hrest

variable {process : Path → Path → FileProg PUnit} {host : StorHost}
  {fs : FileSystem} {run : StorRun} {filename recvFp : Path}

/-- A file that is not received gets no success reply. -/
theorem doStor_early (h : doStor process host fs reads = some run)
    (hearly : ¬ (∃ filename recvFp, host.filename = some filename ∧
      host.recvFp = some recvFp ∧ host.opens = true)) :
    .commandOk ∉ run.replies := by
  unfold doStor at h
  intro hok
  split at h
  · split at h
    · cases h
      simp at hok
    · cases h
  · rename_i filename hfilename
    split at h
    · split at h
      · cases h
        cases hok
      · cases h
    · rename_i recvFp hrecvFp
      split at h
      · rename_i hopens
        exact hearly ⟨filename, recvFp, hfilename, hrecvFp, hopens⟩
      · split at h
        · cases h
          cases hok
        · cases h

/-- Once the reads are over the reply goes out, and then the file is
processed. -/
theorem doStor_received (hfilename : host.filename = some filename)
    (hrecvFp : host.recvFp = some recvFp) (hopens : host.opens = true)
    (h : doStor process host fs reads = some run) :
    run = if ∃ r ∈ reads, r.len ≤ 0 then
        ⟨[.commandOk], some (process filename recvFp
          (fs.write recvFp (.clip (readBytesOf reads))))⟩
      else ⟨[], none⟩ := by
  simp only [doStor, hfilename, hrecvFp, hopens, ↓reduceIte,
    Option.map_eq_some_iff] at h
  obtain ⟨s, hsteps, rfl⟩ := h
  obtain ⟨hreceived, hmore⟩ := readSteps_some hsteps
  have hover := hmore rfl
  have hbytes : s.received = readBytesOf reads := hreceived
  unfold storAfter
  by_cases hend : ∃ r ∈ reads, r.len ≤ 0
  · rw [if_pos hend, hover.mpr hend, hbytes]
    rfl
  · rw [if_neg hend, if_pos]
    exact Bool.not_eq_false _ ▸ mt hover.mp hend

/-- The success reply of `do_stor` means what it says exactly when the reads end
with the end of the file and what they brought can be processed. -/
theorem doStor_acknowledges_iff (process : Path → Path → FileProg PUnit)
    (host : StorHost) (fs : FileSystem) (reads : List ReadResult) (run : StorRun)
    (h : doStor process host fs reads = some run) :
    Acknowledges reads run ↔ Storable process host fs reads := by
  constructor
  · intro hack filename recvFp hfilename hrecvFp hopens hend
    obtain rfl := doStor_received hfilename hrecvFp hopens h
    rw [Acknowledges, if_pos hend] at hack
    obtain ⟨hlast, fs', hstored⟩ := hack List.mem_cons_self
    exact ⟨hlast, fs', Option.some.inj hstored⟩
  · intro hstorable hok
    by_cases hlate : ∃ filename recvFp, host.filename = some filename ∧
        host.recvFp = some recvFp ∧ host.opens = true
    · obtain ⟨filename, recvFp, hfilename, hrecvFp, hopens⟩ := hlate
      obtain rfl := doStor_received hfilename hrecvFp hopens h
      by_cases hend : ∃ r ∈ reads, r.len ≤ 0
      · obtain ⟨hlast, fs', hstored⟩ :=
          hstorable filename recvFp hfilename hrecvFp hopens hend
        rw [if_pos hend]
        exact ⟨hlast, fs', congrArg some hstored⟩
      · rw [if_neg hend] at hok
        cases hok
    · exact absurd hok (doStor_early h hlate)

end Stor

/-- A host on which `do_stor` gets as far as reading. -/
def storHost : StorHost := ⟨some "f", some "f.comp.enc-aaaaaa", true⟩

/-- `process_received_file` on that host, where no call of the library fails. -/
def storProcess (filename recvFp : Path) : FileProg PUnit :=
  processReceivedFile .storing
    ⟨inOrderEnv.toEnv, inOrderEnv.toEnv, "aaaaaa", 0, 0⟩ filename recvFp
    (Vector.replicate 4 0)

/-- A read that fails ends the loop like the end of the file. -/
theorem doStor_acknowledges_failedRead :
    ¬ Acknowledges [.data [0], .error]
      ⟨[.commandOk], some (storProcess "f" "f.comp.enc-aaaaaa"
        (FileSystem.write (fun _ => none) "f.comp.enc-aaaaaa" (.clip [0])))⟩ := by
  intro hack
  have hstorable := (doStor_acknowledges_iff storProcess storHost
    (fun _ => none) [.data [0], .error] _ rfl).mp hack
  obtain ⟨hlast, _⟩ := hstorable _ _ rfl rfl rfl
    ⟨.error, List.mem_cons_of_mem _ List.mem_cons_self, by decide⟩
  cases hlast

/-- A read that fails is acknowledged; so is a connection closed without a byte,
and then the empty file is refused. -/
theorem doStor_acknowledges_unstored :
    (∃ run, doStor storProcess storHost (fun _ => none) [.error] = some run ∧
      ¬ Acknowledges [.error] run) ∧
    ∃ run, doStor storProcess storHost (fun _ => none) [.eof] = some run ∧
      ¬ Acknowledges [.eof] run := by
  refine ⟨⟨_, rfl, fun hack => ?_⟩, ⟨_, rfl, fun hack => ?_⟩⟩
  · obtain ⟨hlast, _⟩ := hack List.mem_cons_self
    cases hlast
  · obtain ⟨_, fs', hstored⟩ := hack List.mem_cons_self
    have hempty : FileSystem.write (fun _ => none) "f.comp.enc-aaaaaa"
        (FileData.clip []) "f.comp.enc-aaaaaa" = some (.clip []) :=
      FileSystem.write_self
    obtain ⟨_, _, hcode, _⟩ := processReceivedFile_ok hempty
      (Option.some.inj hstored)
    exact decFileOf_empty rfl hcode

/-- What `write` on the data connection returns: a count, or `-1`. -/
inductive WriteResult where
  | accepted (n : Nat)
  | error
deriving Repr, DecidableEq

/-- `size_t nmem_written`. -/
def WriteResult.nmemWritten : WriteResult → UInt64
  | accepted n => UInt64.ofNat n
  | error => -1

/-- How many bytes the connection took. -/
def WriteResult.count : WriteResult → Nat
  | accepted n => n
  | error => 0

/-- What `do_retr` finds on its host: the name in the command, whether there is
such a file, the file `prepare_file` leaves, and whether that can be opened. -/
structure RetrHost where
  filename : Option Path
  found : Bool
  prepared : Option Bytes
  opens : Bool

/-- The file to send, or the reply that there is none. -/
def RetrHost.open (host : RetrHost) : Except Reply Bytes :=
  if host.filename.isSome then
    if host.found then
      match host.prepared with
      | some x => if host.opens then .ok x else .error .aborted
      | none => .error .aborted
    else .error .noSuchFile
  else .error .notDetected

/-- The sending loops: what is still in the file, the bytes of `sendline`, how
many of them are written, `err`, and what the connection took. -/
structure Sending where
  unread : Bytes
  sendline : Bytes
  written : UInt64
  err : Int
  accepted : Bytes
deriving Repr, DecidableEq

namespace Sending

/-- `nmem_read = fread(&sendline, 1, MAXLINE, in)`. -/
def fill (s : Sending) : Sending :=
  { s with unread := s.unread.drop maxLine, sendline := s.unread.take maxLine,
           written := 0 }

/-- `while (written < nmem_read)`, and the next block behind it. -/
def settle (s : Sending) : Sending :=
  if s.written < UInt64.ofNat s.sendline.length then s else s.fill

def start (x : Bytes) : Sending := fill ⟨x, [], 0, 0, []⟩

/-- `fread` returned `0`. -/
def atEnd (s : Sending) : Bool := s.sendline.isEmpty

/-- The block still to be written. -/
def rest (s : Sending) : Bytes := s.sendline.drop s.written.toNat

/-- `if (nmem_written < 0)` and what follows; the count is a `size_t`. -/
def resume (s : Sending) (nmemWritten : UInt64) : Sending :=
  if nmemWritten < 0 then { s with err := 1 }.fill
  else { s with written := s.written + nmemWritten }.settle

/-- One call of `write`; `none` when there is none, or it cannot return this. -/
def writeStep (s : Sending) (r : WriteResult) : Option Sending :=
  if s.atEnd = false ∧ r.count ≤ s.rest.length then
    some ({ s with accepted := s.accepted ++ s.rest.take r.count }.resume
      r.nmemWritten)
  else none

end Sending

/-- What a run of `do_retr` has done: its replies, whether it is on the path of
the 451 reply, and what the data connection took. -/
structure RetrRun where
  replies : List Reply
  errorPath : Bool
  accepted : Bytes
deriving Repr, DecidableEq

/-- What follows the sending loops, once they are over. -/
def retrAfter (s : Sending) : RetrRun where
  replies := if s.atEnd then [if s.err ≠ 0 then .aborted else .commandOk] else []
  errorPath := s.err ≠ 0
  accepted := s.accepted

/-- `do_retr`, as far as the results of `write` lead it. -/
def doRetr (host : RetrHost) (writes : List WriteResult) : Option RetrRun :=
  match host.open with
  | .error reply =>
      if writes = [] then some ⟨[reply], reply = .aborted, []⟩ else none
  | .ok x => (writes.foldlM Sending.writeStep (.start x)).map retrAfter

/-- `200 Command OK` means the whole file was taken, and a failed write leads to
the 451 reply. -/
def Reports (host : RetrHost) (writes : List WriteResult) (run : RetrRun) : Prop :=
  (.commandOk ∈ run.replies → host.prepared = some run.accepted) ∧
    (.error ∈ writes → run.errorPath = true)

section Retr

namespace Sending

variable {x : Bytes} {s s' : Sending} {r : WriteResult}
  {writes : List WriteResult}

@[simp] theorem err_settle (s : Sending) : s.settle.err = s.err := by
  unfold settle
  split
  · rfl
  · rfl

/-- An unsigned count is not negative: `err` stays as it is. -/
theorem resume_eq (s : Sending) (nmemWritten : UInt64) :
    s.resume nmemWritten =
      { s with written := s.written + nmemWritten }.settle := by
  have hnot : ¬ nmemWritten < 0 := by
    rw [UInt64.lt_iff_toNat_lt]
    exact Nat.not_lt_zero _
  rw [resume, if_neg hnot]

theorem writeStep_some (h : s.writeStep r = some s') :
    s.atEnd = false ∧ r.count ≤ s.rest.length ∧
      s' = { s with accepted := s.accepted ++ s.rest.take r.count,
                    written := s.written + r.nmemWritten }.settle := by
  unfold writeStep at h
  split at h
  · rename_i hopen
    rw [resume_eq] at h
    exact ⟨hopen.1, hopen.2, (Option.some.inj h).symm⟩
  · cases h

/-- No result of `write` sets `err`. -/
theorem writeSteps_err (h : writes.foldlM writeStep s = some s') :
    s'.err = s.err := by
  induction writes generalizing s with
  | nil =>
      cases h
      rfl
  | cons r writes ih =>
      rw [List.foldlM_cons, Option.bind_eq_bind, Option.bind_eq_some_iff] at h
      obtain ⟨s₁, hstep, hrest⟩ := h
      obtain ⟨_, _, rfl⟩ := writeStep_some hstep
      rw [ih hrest, err_settle]

/-- What was taken, what is left of the block, and what is left of the file are
the file; behind its last block there is nothing left. -/
structure Whole (x : Bytes) (s : Sending) : Prop where
  whole : s.accepted ++ s.rest ++ s.unread = x
  length_le : s.sendline.length ≤ maxLine
  written_le : s.written.toNat ≤ s.sendline.length
  of_atEnd : s.atEnd = true → s.unread = []

theorem whole_fill (h : s.accepted ++ s.unread = x) : Whole x s.fill where
  whole := by
    have hsplit := List.take_append_drop maxLine s.unread
    rw [← h]
    simp [fill, rest, hsplit]
  length_le := by
    rw [fill, List.length_take]
    omega
  written_le := Nat.zero_le _
  of_atEnd hend := by
    have hempty : s.unread.take maxLine = [] := List.isEmpty_iff.mp hend
    have hnil : s.unread = [] := by
      rcases List.take_eq_nil_iff.mp hempty with hzero | hnil
      · cases hzero
      · exact hnil
    rw [fill, hnil, List.drop_nil]

theorem whole_start (x : Bytes) : Whole x (start x) := whole_fill rfl

/-- A count that is accepted takes the file further. -/
theorem Whole.writeStep (h : Whole x s) {n : Nat}
    (hstep : s.writeStep (.accepted n) = some s') : Whole x s' := by
  obtain ⟨hopen, hcount, rfl⟩ := writeStep_some hstep
  have hrest : s.rest.length = s.sendline.length - s.written.toNat := by
    rw [rest, List.length_drop]
  have hlen := h.length_le
  have hle := h.written_le
  have hmax : maxLine = 4096 := rfl
  have hn : n ≤ s.rest.length := hcount
  have hsum : (s.written + UInt64.ofNat n).toNat = s.written.toNat + n := by
    rw [UInt64.toNat_add, UInt64.toNat_ofNat_of_lt' (by
      have : UInt64.size = 2 ^ 64 := rfl
      omega)]
    omega
  have hfile : s.accepted ++ s.rest.take n ++ (s.rest.drop n ++ s.unread) = x := by
    rw [List.append_assoc, ← List.append_assoc (s.rest.take n),
      List.take_append_drop, ← List.append_assoc]
    exact h.whole
  have hdrop : s.rest.drop n =
      s.sendline.drop (s.written + UInt64.ofNat n).toNat := by
    rw [rest, List.drop_drop, hsum]
  unfold settle
  split
  · refine ⟨?_, hlen, ?_, fun hend => ?_⟩
    · rw [List.append_assoc]
      rw [hdrop] at hfile
      exact hfile
    · change (s.written + UInt64.ofNat n).toNat ≤ s.sendline.length
      omega
    · exact absurd hend (by
        rw [atEnd] at hopen ⊢
        exact Bool.eq_false_iff.mp hopen)
  · rename_i hover
    have hblock : (UInt64.ofNat s.sendline.length).toNat = s.sendline.length :=
      UInt64.toNat_ofNat_of_lt' (by
        have : UInt64.size = 2 ^ 64 := rfl
        omega)
    have hall : s.sendline.length ≤ s.written.toNat + n := by
      have hnot : ¬ (s.written + UInt64.ofNat n).toNat <
          (UInt64.ofNat s.sendline.length).toNat :=
        mt UInt64.lt_iff_toNat_lt.mpr hover
      rw [hsum, hblock] at hnot
      omega
    have hnil : s.rest.drop n = [] := by
      rw [List.drop_eq_nil_iff]
      omega
    rw [hnil, List.nil_append] at hfile
    exact whole_fill hfile

/-- Without an error, the loops take the file as it is. -/
theorem writeSteps_whole (herror : .error ∉ writes) (h : Whole x s)
    (hsteps : writes.foldlM Sending.writeStep s = some s') : Whole x s' := by
  induction writes generalizing s with
  | nil =>
      cases hsteps
      exact h
  | cons r writes ih =>
      rw [List.foldlM_cons, Option.bind_eq_bind, Option.bind_eq_some_iff] at hsteps
      obtain ⟨s₁, hstep, hrest⟩ := hsteps
      rw [List.mem_cons, not_or] at herror
      cases r with
      | accepted n => exact ih herror.2 (h.writeStep hstep) hrest
      | error => exact absurd rfl herror.1

end Sending

theorem RetrHost.open_ok {host : RetrHost} {x : Bytes} (h : host.open = .ok x) :
    host.prepared = some x := by
  unfold RetrHost.open at h
  split at h
  · split at h
    · split at h
      · rename_i y hprepared
        split at h
        · cases h
          exact hprepared
        · cases h
      · cases h
    · cases h
  · cases h

theorem RetrHost.open_error {host : RetrHost} {reply : Reply}
    (h : host.open = .error reply) : reply ≠ .commandOk := by
  unfold RetrHost.open at h
  rintro rfl
  split at h
  · split at h
    · split at h
      · split at h
        · cases h
        · cases h
      · cases h
    · cases h
  · cases h

/-- `do_retr` reports what became of the file exactly when no write failed. -/
theorem doRetr_reports_iff (host : RetrHost) (writes : List WriteResult)
    (run : RetrRun) (h : doRetr host writes = some run) :
    Reports host writes run ↔ .error ∉ writes := by
  cases hopen : host.open with
  | error reply =>
      simp only [doRetr, hopen, Option.ite_none_right_eq_some,
        Option.some.injEq] at h
      obtain ⟨rfl, rfl⟩ := h
      have hreply := RetrHost.open_error hopen
      simp [Reports, hreply.symm]
  | ok x =>
      simp only [doRetr, hopen, Option.map_eq_some_iff] at h
      obtain ⟨s, hsteps, rfl⟩ := h
      have herr : s.err = 0 := Sending.writeSteps_err hsteps
      constructor
      · rintro ⟨_, hpath⟩ herror
        have hset := hpath herror
        rw [retrAfter, herr] at hset
        cases hset
      · intro herror
        refine ⟨fun hok => ?_, fun h => absurd h herror⟩
        have hwhole := Sending.writeSteps_whole herror (Sending.whole_start x)
          hsteps
        have hend : s.atEnd = true := by
          by_contra hmore
          rw [retrAfter, if_neg hmore] at hok
          cases hok
        have hrest : s.rest = [] := by
          rw [Sending.rest, List.isEmpty_iff.mp hend, List.drop_nil]
        have hfile := hwhole.whole
        rw [hrest, hwhole.of_atEnd hend, List.append_nil, List.append_nil] at hfile
        rw [RetrHost.open_ok hopen, ← hfile]
        rfl

/-- A file of two bytes, written in two turns. -/
theorem doRetr_reports_ab :
    Reports ⟨some "f", true, some [97, 98], true⟩ [.accepted 1, .accepted 1]
      ⟨[.commandOk], false, [97, 98]⟩ :=
  (doRetr_reports_iff ⟨some "f", true, some [97, 98], true⟩
    [.accepted 1, .accepted 1] ⟨[.commandOk], false, [97, 98]⟩
    (by decide)).mpr (by decide)

/-- A write that fails at the start of a block wraps `written` and drops the
block; one that fails within it steps back and sends a byte twice. -/
theorem doRetr_misreports_ab :
    (doRetr ⟨some "f", true, some [97, 98], true⟩ [.error] =
        some ⟨[.commandOk], false, []⟩ ∧
      ¬ Reports ⟨some "f", true, some [97, 98], true⟩ [.error]
        ⟨[.commandOk], false, []⟩) ∧
    doRetr ⟨some "f", true, some [97, 98], true⟩
        [.accepted 1, .error, .accepted 2] =
        some ⟨[.commandOk], false, [97, 97, 98]⟩ ∧
      ¬ Reports ⟨some "f", true, some [97, 98], true⟩
        [.accepted 1, .error, .accepted 2]
        ⟨[.commandOk], false, [97, 97, 98]⟩ := by
  refine ⟨⟨by decide, ?_⟩, by decide, ?_⟩
  · rintro ⟨hfile, _⟩
    have hsame := hfile (by decide)
    cases hsame
  · rintro ⟨hfile, _⟩
    have hsame := hfile (by decide)
    cases hsame

end Retr

end EcFtp
