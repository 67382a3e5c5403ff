/-
The loops of `do_retr`, `do_put`, `do_get` and `do_stor` at the two ends of a data
connection that takes and gives any number of bytes at a time.  Whatever it does, what
is received is what the blocks of a transfer bring.
-/
import EcFtp.Conduit
import EcFtp.FailedTransfers
import EcFtp.PutLoop
import EcFtp.TransferOutcome

namespace EcFtp

open Conduit Exec

namespace Sending

variable {s s' : Sending} {x : Bytes} {n : Nat}

/-- There is something left to write in the block, or the file is at its end. -/
def Settled (s : Sending) : Prop := s.atEnd = true ∨ s.written.toNat < s.sendline.length

theorem settled_fill (s : Sending) : s.fill.Settled := by
  cases hline : s.unread.take maxLine with
  | nil =>
      left
      rw [atEnd, fill, hline]
      rfl
  | cons b bs =>
      right
      change 0 < (s.unread.take maxLine).length
      rw [hline]
      exact Nat.succ_pos _

theorem settled_settle (hlen : s.sendline.length ≤ maxLine) : s.settle.Settled := by
  unfold settle
  split
  · rename_i hlt
    have hmax : maxLine = 4096 := rfl
    rw [UInt64.lt_iff_toNat_lt, UInt64.toNat_ofNat_of_lt' (by
      have : UInt64.size = 2 ^ 64 := rfl
      omega)] at hlt
    exact .inr hlt
  · exact settled_fill s

theorem Settled.writeStep (h : s.writeStep (.accepted n) = some s') (hs : s.Whole x) :
    s'.Settled := by
  obtain ⟨_, _, rfl⟩ := writeStep_some h
  exact settled_settle hs.length_le

/-- What is not yet handed over. -/
def left (s : Sending) : Bytes := s.rest ++ s.unread

theorem Whole.left_eq (hs : s.Whole x) (h : s.writeStep (.accepted n) = some s') :
    s.left = s.rest.take n ++ s'.left := by
  have hs' := hs.writeStep h
  obtain ⟨_, _, heq⟩ := writeStep_some h
  have haccepted : s'.accepted = s.accepted ++ s.rest.take n := by
    rw [heq]
    unfold settle
    split
    · rfl
    · rfl
  have hwhole := hs'.whole.trans hs.whole.symm
  rw [haccepted] at hwhole
  simp only [List.append_assoc, List.append_cancel_left_eq] at hwhole
  exact hwhole.symm

/-- As long as something is left there is a call of `write`. -/
theorem Whole.writes_on (hs : s.Whole x) (hsettled : s.Settled) (hleft : s.left ≠ []) :
    ∃ b s', s.writeStep (.accepted 1) = some s' ∧ s.rest.take 1 = [b] := by
  have hopen : s.atEnd = false := by
    by_contra hend
    have hend : s.atEnd = true := by simpa using hend
    apply hleft
    rw [left, rest, List.isEmpty_iff.mp hend, List.drop_nil, hs.of_atEnd hend]
    rfl
  have hlt : s.written.toNat < s.sendline.length := by
    rcases hsettled with hend | hlt
    · exact absurd hend (by rw [hopen]; decide)
    · exact hlt
  cases hrest : s.rest with
  | nil =>
      have hlen := congrArg List.length hrest
      rw [rest, List.length_drop, List.length_nil] at hlen
      omega
  | cons b bs =>
      refine ⟨b, _, if_pos ⟨hopen, ?_⟩, rfl⟩
      rw [hrest]
      exact Nat.succ_le_succ (Nat.zero_le _)

end Sending

/-- `do_retr` between two calls of `write`. -/
structure Retrieving where
  sending : Sending
  file : Bytes
  whole : sending.Whole file
  settled : sending.Settled
  noErr : sending.err = 0

def Retrieving.start (x : Bytes) : Retrieving where
  sending := .start x
  file := x
  whole := Sending.whole_start x
  settled := Sending.settled_fill _
  noErr := rfl

/-- A call of `write` takes some bytes of the block. -/
def retrSource : Source Retrieving Byte where
  left s := s.sending.left
  Writes s msg s' := s'.file = s.file ∧ ∃ n, 0 < n ∧
    s.sending.writeStep (.accepted n) = some s'.sending ∧ msg = s.sending.rest.take n
  ne_nil := by
    rintro s msg s' ⟨_, n, hn, hstep, rfl⟩
    obtain ⟨_, hcount, _⟩ := Sending.writeStep_some hstep
    have hcount : n ≤ s.sending.rest.length := hcount
    apply List.length_pos_iff.mp
    rw [List.length_take_of_le hcount]
    exact hn
  left_eq := by
    rintro s msg s' ⟨_, n, _, hstep, rfl⟩
    exact s.whole.left_eq hstep
  goes_on s hleft := by
    obtain ⟨b, s', hstep, hmsg⟩ := s.whole.writes_on s.settled hleft
    refine ⟨b,
      ⟨s', s.file, s.whole.writeStep hstep, .writeStep hstep s.whole, ?_⟩, rfl, 1,
      Nat.one_pos, hstep, hmsg.symm⟩
    obtain ⟨_, _, rfl⟩ := Sending.writeStep_some hstep
    exact (Sending.err_settle _).trans s.noErr

/-- The block `do_put` is about to write, or writing. -/
def PutState.block (s : PutState) : Bytes := s.unread.take sendlineSize

section Put

variable {conn : WriteResults} {s : PutState} {x : Bytes} {n fuel fuel' : Nat}

theorem length_block_pos (h : s.unread ≠ []) : 0 < s.block.length := by
  have hpos := List.length_pos_iff.mpr h
  have hsize : 0 < sendlineSize := by decide
  rw [PutState.block, List.length_take]
  omega

theorem length_writeBlock (h : s.unread ≠ []) :
    (s.writeBlock conn).unread.length < s.unread.length := by
  have hpos := List.length_pos_iff.mpr h
  have hsize : 0 < sendlineSize := by decide
  change (s.unread.drop sendlineSize).length < _
  rw [List.length_drop]
  omega

/-- The sending loop ends when nothing is left of the file. -/
theorem sendLoop_fuel (h : s.unread.length ≤ fuel) (h' : s.unread.length ≤ fuel') :
    s.sendLoop conn fuel = s.sendLoop conn fuel' := by
  induction fuel generalizing s fuel' with
  | zero =>
      have hnil : s.unread = [] := List.eq_nil_of_length_eq_zero (Nat.le_zero.mp h)
      cases fuel' with
      | zero => rfl
      | succ fuel' => exact (if_pos hnil).symm
  | succ fuel ih =>
      by_cases hnil : s.unread = []
      · cases fuel' with
        | zero => exact if_pos hnil
        | succ fuel' => exact (if_pos hnil).trans (if_pos hnil).symm
      · have hlt := @length_writeBlock conn s hnil
        cases fuel' with
        | zero => omega
        | succ fuel' =>
            rw [PutState.sendLoop, PutState.sendLoop, if_neg hnil, if_neg hnil]
            exact ih (by omega) (by omega)

theorem sendLoop_writeBlock (h : s.unread ≠ []) :
    (s.writeBlock conn).sendLoop conn (s.writeBlock conn).unread.length =
      s.sendLoop conn s.unread.length := by
  have hlt := @length_writeBlock conn s h
  obtain ⟨k, hk⟩ : ∃ k, s.unread.length = k + 1 := ⟨s.unread.length - 1, by omega⟩
  rw [hk, PutState.sendLoop, if_neg h]
  exact sendLoop_fuel (Nat.le_refl _) (by omega)

theorem settled_first (s : PutState) : s.unread = [] ∨ 0 < s.block.length := by
  by_cases h : s.unread = []
  · exact .inl h
  · exact .inr (length_block_pos h)

/-- What a call of `write` that hands over `n` bytes leaves: itself, or the next one. -/
def PutState.hand (s : PutState) (handed n : Nat) : PutState × Nat :=
  if handed + n < s.block.length then (s, handed + n) else (s.writeBlock fullWrites, 0)

theorem sendLoop_hand (handed : Nat) (h : s.unread ≠ []) :
    (s.hand handed n).1.sendLoop fullWrites (s.hand handed n).1.unread.length =
      s.sendLoop fullWrites s.unread.length := by
  unfold PutState.hand
  split
  · rfl
  · exact sendLoop_writeBlock h

theorem settled_hand (s : PutState) (handed n : Nat) :
    (s.hand handed n).1.unread = [] ∨
      (s.hand handed n).2 < (s.hand handed n).1.block.length := by
  unfold PutState.hand
  split
  · rename_i hlt
    exact .inr hlt
  · exact settled_first _

/-- The rest of the file is what is handed over now and what is left then. -/
theorem left_hand {handed : Nat} (hle : handed + n ≤ s.block.length) :
    s.unread.drop handed =
      (s.block.drop handed).take n ++ (s.hand handed n).1.unread.drop
        (s.hand handed n).2 := by
  have hblock : s.block.length ≤ sendlineSize := by
    rw [PutState.block, List.length_take]
    exact Nat.min_le_left _ _
  have htake : (s.block.drop handed).take n = (s.unread.drop handed).take n := by
    rw [PutState.block, List.drop_take, List.take_take, Nat.min_eq_left (by omega)]
  unfold PutState.hand
  split
  · rw [htake, ← List.drop_drop, List.take_append_drop]
  · have hall : handed + n = s.block.length := by omega
    have hrest : s.unread.drop sendlineSize = (s.unread.drop handed).drop n := by
      rw [List.drop_drop, hall, PutState.block, List.length_take]
      rcases Nat.le_total sendlineSize s.unread.length with h | h
      · rw [Nat.min_eq_left h]
      · rw [Nat.min_eq_right h, List.drop_length, List.drop_eq_nil_of_le h]
    rw [htake, List.drop_zero]
    change _ = _ ++ s.unread.drop sendlineSize
    rw [hrest, List.take_append_drop]

end Put

/-- `do_put` within its sending loop: how much of the block the call of `write` has handed
over, which returns when all of it is. -/
structure Putting where
  put : PutState
  handed : Nat
  file : Bytes
  resumes : put.sendLoop fullWrites put.unread.length =
    (PutState.start file).sendLoop fullWrites file.length
  settled : put.unread = [] ∨ handed < put.block.length

def Putting.start (x : Bytes) : Putting where
  put := .start x
  handed := 0
  file := x
  resumes := rfl
  settled := settled_first _

/-- The call of `write` hands over some more bytes of the block; it does not return before
all of them are taken, as `do_put` does not look at what it returns. -/
def putSource : Source Putting Byte where
  left s := s.put.unread.drop s.handed
  Writes s msg s' := s'.file = s.file ∧ ∃ n, 0 < n ∧ s.handed + n ≤ s.put.block.length ∧
    (s'.put, s'.handed) = s.put.hand s.handed n ∧ msg = (s.put.block.drop s.handed).take n
  ne_nil := by
    rintro s msg s' ⟨_, n, hn, hle, _, rfl⟩
    apply List.length_pos_iff.mp
    rw [List.length_take, List.length_drop]
    omega
  left_eq := by
    rintro s msg s' ⟨_, n, _, hle, hnext, rfl⟩
    have hleft := left_hand hle
    rwa [← hnext] at hleft
  goes_on s hleft := by
    have hne : s.put.unread ≠ [] := by
      intro hnil
      rw [hnil, List.drop_nil] at hleft
      exact hleft rfl
    have hlt := s.settled.resolve_left hne
    obtain ⟨b, rest, hdrop⟩ := List.exists_cons_of_length_pos (by
      rw [List.length_drop]
      exact Nat.sub_pos_of_lt hlt : 0 < (s.put.block.drop s.handed).length)
    exact ⟨b, ⟨(s.put.hand s.handed 1).1, (s.put.hand s.handed 1).2, s.file,
      (sendLoop_hand _ hne).trans s.resumes, settled_hand _ _ _⟩, rfl, 1,
        Nat.one_pos, hlt, rfl,
      by rw [hdrop]; rfl⟩

/-- How the receiving loop stands. -/
def Receiving.status (s : Receiving) : Status :=
  if s.more then .reading else if s.last = some .error then .failed else .ended

theorem Receiving.status_more {s : Receiving} (h : s.status = .reading) :
    s.more = true := by
  unfold Receiving.status at h
  split at h
  · assumption
  · split at h
    · cases h
    · cases h

/-- What a `read` that stops the loop returns. -/
def stopResult : Status → ReadResult
  | .failed => .error
  | _ => .eof

/-- The loop of `do_get` and of `do_stor`. -/
def receivingSink : Sink Receiving Byte where
  got s := s.received
  status := Receiving.status
  Reads s msg s' := msg ≠ [] ∧ readStep s (.data msg) = some s'
  Stops s st s' := st ≠ .reading ∧ readStep s (stopResult st) = some s'
  reads := by
    rintro s msg s' ⟨hne, hstep⟩
    obtain ⟨hmore, rfl⟩ := readStep_some hstep
    have hlen : (0 : Int) < msg.length :=
      Int.natCast_pos.mpr (List.length_pos_iff.mpr hne)
    refine ⟨hne, rfl, if_pos hmore, if_pos ?_⟩
    exact decide_eq_true hlen
  stops := by
    rintro s st s' ⟨hst, hstep⟩
    obtain ⟨hmore, rfl⟩ := readStep_some hstep
    refine ⟨hst, ?_, if_pos hmore, ?_⟩
    · cases st with
      | reading => exact absurd rfl hst
      | ended => exact List.append_nil _
      | failed => exact List.append_nil _
    · cases st with
      | reading => exact absurd rfl hst
      | ended => rfl
      | failed => rfl
  goes_on s hreading := by
    have hmore := Receiving.status_more hreading
    refine ⟨fun b => ⟨_, by simp, if_pos ⟨hmore, by simp, ?_⟩⟩, _, by decide,
      if_pos ⟨hmore, by decide, Nat.zero_le _⟩⟩
    exact Nat.one_le_iff_ne_zero.mpr (by decide)

/-- What the loop leaves to `do_get` and `do_stor`, which could open the file for it. -/
def Receiving.host (s : Receiving) (recvDigits : Digits) : RecvHost where
  recvDigits := recvDigits
  opens := true
  received := s.received
  readFails := s.status = .failed

section Streams

variable {σ : Type} {lzma : Lzma} {t : Session} {bs : Bytes} {room : Nat}
  {w : Source σ Byte} {s s' : Flow σ Receiving Byte}

def streamStart (a : σ) : Flow σ Receiving Byte := ⟨a, [], false, .start⟩

theorem carries_start {a : σ} (h : w.left a = bs) :
    Carries w receivingSink bs (streamStart a) where
  whole := h
  of_ended hended := nomatch hended

theorem unbroken_start (a : σ) : Unbroken w receivingSink (streamStart a) where
  of_closed hclosed := nomatch hclosed
  not_failed hfailed := nomatch hfailed

/-- A stream from its start on, through steps that are not breaks. -/
def Streams (w : Source σ Byte) (room : Nat) (a : σ) (s : Flow σ Receiving Byte) : Prop :=
  Relation.ReflTransGen (Step w receivingSink room) (streamStart a) s

/-- A stream in which the source may be gone and `read` may fail. -/
def BrokenStreams (w : Source σ Byte) (room : Nat) (a : σ) (s : Flow σ Receiving Byte) :
    Prop :=
  Relation.ReflTransGen (AnyStep w receivingSink room) (streamStart a) s

/-- Wherever it breaks off, a beginning of the file was read. -/
theorem received_begins {a : σ} (hbs : w.left a = bs) (h : BrokenStreams w room a s) :
    s.sink.received <+: bs :=
  (carries_runs (carries_start hbs) h).got_begins

/-- The files after a receiving handler, when `read` came to the end of `bs`. -/
theorem receiveInto_ended (removes : Bool) :
    receiveInto lzma t.key removes t.receiverEnv
      ⟨t.recvDigits, true, bs, false⟩ (some t.dest)
      t.receiverFs = t.received lzma bs := by
  unfold Session.received
  cases hname : tempRecvName t.dest t.recvDigits t.receiverFs with
  | error ex fs => exact bind_of_error hname
  | ok recvFp fs =>
      refine (bind_of_ok hname).trans ?_
      simp only [Bool.and_false]
      rfl

theorem host_ended {r : Receiving} (h : r.status = .ended) (digits : Digits) :
    r.host digits = ⟨digits, true, r.received, false⟩ := by
  rw [Receiving.host, h]
  rfl

theorem stream_got {a : σ} (hbs : w.left a = bs) (h : Streams w room a s)
    (hended : s.sink.status = .ended) : s.sink.received = bs :=
  (unbroken_runs (unbroken_start a) h).got_eq
    (carries_runs (carries_start hbs) (runs_any h)) hended

/-- In the end the handler has what the blocks of the transfer bring. -/
theorem stream_received {a : σ} (hbs : w.left a = bs) (h : Streams w room a s)
    (hended : s.sink.status = .ended) (removes : Bool) :
    receiveInto lzma t.key removes t.receiverEnv (s.sink.host t.recvDigits) (some t.dest)
      t.receiverFs = t.received lzma bs := by
  rw [host_ended hended, stream_got hbs h hended]
  exact receiveInto_ended removes

theorem left_nil {a : σ} (h : Streams w room a s) (hbs : w.left a = bs)
    (hended : s.sink.status = .ended) : w.left s.source = [] := by
  have hcarries := carries_runs (carries_start hbs) (runs_any h)
  exact (unbroken_runs (unbroken_start a) h).of_closed (hcarries.of_ended hended).2

/-- The reads of a run, failed ones included, are a run of the receiving loop. -/
theorem broken_reads {a : σ} (h : BrokenStreams w room a s) :
    ∃ reads : List ReadResult, reads.foldlM readStep .start = some s.sink := by
  induction h with
  | refl => exact ⟨[], rfl⟩
  | @tail s₁ s₂ _ hstep ih =>
      obtain ⟨reads, hreads⟩ := ih
      have hnext : ∀ {r r'}, readStep s₁.sink r = some r' →
          ∃ reads : List ReadResult, reads.foldlM readStep .start = some r' := by
        intro r r' hr
        refine ⟨reads ++ [r], ?_⟩
        rw [List.foldlM_append, hreads]
        simpa using hr
      rcases hstep with hstep | hbreak
      · cases hstep with
        | write hopen hwrite hroom => exact ⟨reads, hreads⟩
        | close hopen hall => exact ⟨reads, hreads⟩
        | read hread hmsg => exact hnext hread.2
        | finish hempty hclosed hstop => exact hnext hstop.2
      · cases hbreak with
        | cut hopen => exact ⟨reads, hreads⟩
        | fail hstop => exact hnext hstop.2

end Streams

/-- `do_stor` on the reads of a stream that came to its end. -/
theorem stor_over {reads : List ReadResult} {r : Receiving}
    (hreads : reads.foldlM readStep .start = some r) (hended : r.status = .ended)
    (process : Path → Path → FileProg PUnit) (filename recvFp : Path) (fs : FileSystem) :
    doStor process ⟨some filename, some recvFp, true⟩ fs reads =
      some ⟨[.commandOk],
        some (process filename recvFp (fs.write recvFp (.clip r.received)))⟩ := by
  have hover : ¬ r.more = true := by
    intro hmore
    rw [Receiving.status, if_pos hmore] at hended
    cases hended
  simp only [doStor, ↓reduceIte, hreads, Option.map_some, storAfter, if_neg hover]

/-- With nothing left, `do_retr` reports success, and the connection has the file. -/
theorem retr_over {s : Retrieving} (h : s.sending.left = []) :
    retrAfter s.sending = ⟨[.commandOk], false, s.file⟩ := by
  obtain ⟨hrest, hunread⟩ := List.append_eq_nil_iff.mp h
  have hend : s.sending.atEnd = true := by
    refine s.settled.resolve_right fun hlt => ?_
    rw [Sending.rest, List.drop_eq_nil_iff] at hrest
    omega
  have hfile := s.whole.whole
  rw [hrest, hunread, List.append_nil, List.append_nil] at hfile
  rw [retrAfter, if_pos hend, s.noErr, hfile]
  rfl

/-- The sending loop of `do_put` is over. -/
theorem put_over {s : Putting} (h : s.put.unread.drop s.handed = []) :
    s.put = (PutState.start s.file).sendLoop fullWrites s.file.length := by
  have hnil : s.put.unread = [] := by
    refine s.settled.resolve_right fun hlt => ?_
    have hle : s.put.block.length ≤ s.put.unread.length := List.length_take_le' _ _
    rw [List.drop_eq_nil_iff] at h
    omega
  rw [← s.resumes, hnil]
  rfl

/-- Every run of a stream can be continued to its end, none is longer than it takes to
write and read each byte once, and at its end `Q` holds. -/
def Delivers {σ : Type} (w : Source σ Byte) (room : Nat) (a : σ)
    (Q : Flow σ Receiving Byte → Prop) : Prop :=
  (∀ s, Streams w room a s →
    ∃ s', Relation.ReflTransGen (Step w receivingSink room) s s' ∧
    s'.sink.status = .ended) ∧
  (∀ (run : Nat → Flow σ Receiving Byte) (n : Nat), run 0 = streamStart a →
    (∀ i < n, AnyStep w receivingSink room (run i) (run (i + 1))) →
      n ≤ 2 * (w.left a).length + 2) ∧
  ∀ s, Streams w room a s → s.sink.status = .ended → Q s

theorem delivers_of {σ : Type} {w : Source σ Byte} {room : Nat} {a : σ}
    {Q : Flow σ Receiving Byte → Prop} (hroom : 0 < room)
    (hQ : ∀ s, Streams w room a s → s.sink.status = .ended → Q s) :
    Delivers w room a Q := by
  refine ⟨fun s hs => exists_stopped hroom (unbroken_runs (unbroken_start a) hs),
    fun run n hstart hsteps => ?_, hQ⟩
  have hbound := run_bounded run n hsteps
  have hahead : ahead w receivingSink (run 0) = 2 * (w.left a).length + 2 := by
    rw [hstart]
    rfl
  omega

/-- `do_stor` has acknowledged `bs`, and processes it. -/
def Stored (bs : Bytes) (r : Receiving) : Prop :=
  ∃ reads : List ReadResult, reads.foldlM readStep .start = some r ∧
    ∀ process filename recvFp fs,
      doStor process ⟨some filename, some recvFp, true⟩ fs reads =
      some ⟨[.commandOk], some (process filename recvFp (fs.write recvFp (.clip bs)))⟩

/-- Over a connection that has room for any number of bytes and gives any number of them
at a time, `do_retr` and `do_get` come to the end of every file, however many bytes each
`write` takes; and so do `do_put` and `do_stor`, if each `write` of `do_put` takes its
whole block in the end.  The files are then as the transfer of the file's blocks leaves
them. -/
theorem dataStream_delivers (lzma : Lzma) (t : Session) (bs : Bytes) (room : Nat)
    (hroom : 0 < room) :
    Delivers retrSource room (.start bs) (fun s =>
      retrAfter s.source.sending = ⟨[.commandOk], false, bs⟩ ∧
        doGetFiles lzma t.key t.receiverEnv (s.sink.host t.recvDigits) (some t.dest)
          t.receiverFs = t.received lzma bs) ∧
    Delivers putSource room (.start bs) fun s =>
      s.source.put = (PutState.start bs).sendLoop fullWrites bs.length ∧
        Stored bs s.sink ∧
        doStorFiles lzma t.key t.receiverEnv (s.sink.host t.recvDigits) (some t.dest)
          t.receiverFs = t.received lzma bs := by
  constructor
  · refine delivers_of hroom fun s hs hended => ?_
    have hbs : retrSource.left (.start bs) = bs := (Sending.whole_start bs).whole
    have hfile : s.source.file = bs :=
      source_kept (f := Retrieving.file) And.left (runs_any hs)
    refine ⟨?_, stream_received hbs hs hended true⟩
    rw [retr_over (left_nil hs hbs hended), hfile]
  · refine delivers_of hroom fun s hs hended => ?_
    have hfile : s.source.file = bs :=
      source_kept (f := Putting.file) And.left (runs_any hs)
    have hgot := stream_got rfl hs hended
    obtain ⟨reads, hreads⟩ := broken_reads (runs_any hs)
    refine ⟨?_, ⟨reads, hreads, fun process filename recvFp fs => ?_⟩,
      stream_received rfl hs hended false⟩
    · rw [put_over (left_nil hs rfl hended), hfile]
    · rw [stor_over hreads hended, hgot]
      rfl

theorem dataStream_delivers_one :
    Delivers retrSource 1 (.start [97, 98]) (fun s =>
      retrAfter s.source.sending = ⟨[.commandOk], false, [97, 98]⟩ ∧
        doGetFiles .storing (putSession fileOfA).key (putSession fileOfA).receiverEnv
          (s.sink.host (some "aaaaaa")) (some "f") (putSession fileOfA).receiverFs =
            (putSession fileOfA).received .storing [97, 98]) :=
  (dataStream_delivers .storing (putSession fileOfA) [97, 98] 1 Nat.one_pos).1

end EcFtp
