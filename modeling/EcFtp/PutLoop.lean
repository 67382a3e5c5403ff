/-
`do_put` behind `prepare_file`: the loop around `select`, the loop that sends the
prepared file within it, and what happens to the descriptor of the data connection
up to its `close` in `main`.
-/
import EcFtp.CStrings
import EcFtp.ServerTransfer

namespace EcFtp

open CStrings

/-- `sizeof(sendline)`. -/
def sendlineSize : Nat := maxLine + 1

/-- What happens in one turn of the loop: the bytes a `read` on the control
connection gets, if there are any, and whether the data connection is writable.
No bytes are what the end of the connection, or an error, leaves in `recvline`. -/
structure Ready where
  reply : Option Bytes
  writable : Bool
deriving Repr, DecidableEq

/-- What the calls of `write` on the data connection return: the call, and how
many bytes it is asked to write. -/
structure WriteResults where
  write : Nat → Nat → WriteResult
  write_le : ∀ call len, (write call len).count ≤ len

/-- What is done to `datafd`. -/
inductive FdOp where
  | select
  | write (len : Nat)
  | close
deriving Repr, DecidableEq

/-- `atoi(strtok(recvline, " "))`; without a word there is nothing to call `atoi`
with. -/
def replyCode (recvline : Bytes) : Option Int :=
  (strtok (· == 32) (cstr recvline)).1.map atoi

/-- The state of the loop: what is still in the file, the two flags, how many
writes were made and what they took, the replies read, and what was done to
`datafd`. -/
structure PutState where
  unread : Bytes
  controlFinished : Bool
  dataFinished : Bool
  calls : Nat
  accepted : Bytes
  replies : List Bytes
  ops : List FdOp
deriving Repr, DecidableEq

namespace PutState

def start (x : Bytes) : PutState := ⟨x, false, false, 0, [], [], []⟩

/-- Whether `datafd` is a descriptor no more. -/
def closed (s : PutState) : Bool := s.ops.contains .close

def op (s : PutState) (o : FdOp) : PutState := { s with ops := s.ops ++ [o] }

/-- `write(datafd, sendline, nmem_read)`, whose result is not looked at. -/
def writeBlock (conn : WriteResults) (s : PutState) : PutState :=
  let sendline := s.unread.take sendlineSize
  let taken := (conn.write s.calls sendline.length).count
  { s.op (.write sendline.length) with
    unread := s.unread.drop sendlineSize
    calls := s.calls + 1
    accepted := s.accepted ++ sendline.take taken }

/-- `while (0 != (nmem_read = fread(sendline, 1, sizeof(sendline), in)))`. -/
def sendLoop (conn : WriteResults) : Nat → PutState → PutState
  | 0, s => s
  | fuel + 1, s =>
      if s.unread = [] then s else sendLoop conn fuel (s.writeBlock conn)

/-- The data branch. -/
def sendData (conn : WriteResults) (s : PutState) : PutState :=
  { (s.sendLoop conn s.unread.length).op .close with dataFinished := true }

def hear (s : PutState) (recvline : Bytes) : PutState :=
  { s with replies := s.replies ++ [recvline] }

end PutState

/-- How the control branch ends: behind it, with the `break`, in a `read` that
does not return, or in `atoi(NULL)`. -/
inductive PutTurn where
  | on (s : PutState)
  | leave (s : PutState)
  | waits (s : PutState)
  | undefined (s : PutState)

/-- The control branch.  With `datafd` closed `select` fails and leaves its sets
as they are, so the branch is entered, and `read` waits for a reply. -/
def hearReply (s : PutState) : Option Bytes → PutTurn
  | none => if s.closed then .waits s else .on s
  | some recvline =>
      match replyCode recvline with
      | none => .undefined (s.hear recvline)
      | some code =>
          if code ≠ 200 then .leave (s.hear recvline)
          else .on { s.hear recvline with controlFinished := true }

/-- The data branch, when `FD_ISSET(datafd, &wrset)`. -/
def dataTurn (conn : WriteResults) (s : PutState) (writable : Bool) : PutState :=
  if s.closed || writable then s.sendData conn else s

/-- How far the loop has come: it is left, or it waits, or it came to `atoi(NULL)`. -/
inductive PutEnd where
  | left (s : PutState)
  | waiting (s : PutState)
  | undefined (s : PutState)

@[simp] def PutEnd.state : PutEnd → PutState
  | left s => s
  | waiting s => s
  | undefined s => s

/-- What `do_put` returns behind the loop. -/
@[simp] def PutEnd.value : PutEnd → Option Int
  | left _ => some 1
  | waiting _ => none
  | undefined _ => none

/-- `while (1)`, as far as the events lead it. -/
def putLoop (conn : WriteResults) : List Ready → PutState → PutEnd
  | [], s => .waiting (s.op .select)
  | e :: events, s =>
      match hearReply (s.op .select) e.reply with
      | .leave s => .left s
      | .waits s => .waiting s
      | .undefined s => .undefined s
      | .on s =>
          let s := dataTurn conn s e.writable
          if s.controlFinished && s.dataFinished then .left s
          else putLoop conn events s

/-- What `do_put` finds on its host: whether a name was entered, the file
`prepare_file` leaves, and whether that can be opened. -/
structure PutHost where
  named : Bool
  prepared : Option Bytes
  opens : Bool

/-- The file to send, when `do_put` comes so far. -/
def PutHost.open (host : PutHost) : Option Bytes :=
  if host.named && host.opens then host.prepared else none

/-- A run of `do_put`: what it returns, when it does, and the loop's state. -/
structure PutRun where
  value : Option Int
  state : PutState

def doPut (conn : WriteResults) (host : PutHost) (events : List Ready) : PutRun :=
  match host.open with
  | none => ⟨some (-1), .start []⟩
  | some x => ⟨(putLoop conn events (.start x)).value,
      (putLoop conn events (.start x)).state⟩

/-- What is done to `datafd` up to the end of the command in `main`, which closes
it whatever `do_put` returns. -/
def mainPut (conn : WriteResults) (host : PutHost) (events : List Ready) :
    List FdOp :=
  let run := doPut conn host events
  if run.value.isSome then run.state.ops ++ [.close] else run.state.ops

/-- What the connection takes of `x`, when the next write is call `call`. -/
def taken (conn : WriteResults) : Nat → Nat → Bytes → Bytes
  | 0, _, _ => []
  | fuel + 1, call, x =>
      if x = [] then []
      else
        (x.take sendlineSize).take
            (conn.write call (x.take sendlineSize).length).count ++
          taken conn fuel (call + 1) (x.drop sendlineSize)

/-- Each write takes all it is asked to write. -/
def FullWrites (conn : WriteResults) (call : Nat) (x : Bytes) : Prop :=
  ∀ k, sendlineSize * k < x.length →
    (conn.write (call + k) (min sendlineSize (x.length - sendlineSize * k))).count =
      min sendlineSize (x.length - sendlineSize * k)

section Send

variable {conn : WriteResults} {x : Bytes} {call fuel : Nat} {s : PutState}

theorem length_taken_le (conn : WriteResults) (fuel call : Nat) (x : Bytes) :
    (taken conn fuel call x).length ≤ x.length := by
  induction fuel generalizing call x with
  | zero => simp [taken]
  | succ fuel ih =>
      unfold taken
      split
      · simp
      · have hrest := ih (call + 1) (x.drop sendlineSize)
        simp only [List.length_append, List.length_take, List.length_drop] at hrest ⊢
        omega

theorem fullWrites_iff (hx : x ≠ []) : FullWrites conn call x ↔
    (conn.write call (x.take sendlineSize).length).count =
        (x.take sendlineSize).length ∧
      FullWrites conn (call + 1) (x.drop sendlineSize) := by
  have hpos : 0 < x.length := List.length_pos_iff.mpr hx
  unfold FullWrites
  rw [List.length_take, List.length_drop]
  constructor
  · intro h
    refine ⟨by simpa using h 0 (by omega), fun k hk => ?_⟩
    have hk' := h (k + 1) (by rw [Nat.mul_succ]; omega)
    rw [Nat.mul_succ, Nat.add_comm _ sendlineSize, ← Nat.sub_sub] at hk'
    rwa [Nat.add_assoc, Nat.add_comm 1 k]
  · rintro ⟨hfirst, hrest⟩ k hk
    cases k with
    | zero => simpa using hfirst
    | succ k =>
        have hk' := hrest k (by rw [Nat.mul_succ] at hk; omega)
        rw [Nat.mul_succ, Nat.add_comm _ sendlineSize, ← Nat.sub_sub]
        rwa [Nat.add_assoc, Nat.add_comm 1 k] at hk'

/-- The whole of `x` is taken exactly when no write falls short. -/
theorem taken_eq_iff (hfuel : x.length ≤ fuel) :
    taken conn fuel call x = x ↔ FullWrites conn call x := by
  induction fuel generalizing call x with
  | zero =>
      obtain rfl : x = [] := List.length_eq_zero_iff.mp (by omega)
      simp [taken, FullWrites]
  | succ fuel ih =>
      by_cases hx : x = []
      · subst hx
        simp [taken, FullWrites]
      · have hpos : 0 < x.length := List.length_pos_iff.mpr hx
        have hsize : 0 < sendlineSize := by decide
        have hrest : (x.drop sendlineSize).length ≤ fuel := by
          rw [List.length_drop]
          omega
        rw [fullWrites_iff hx, ← ih hrest, taken, if_neg hx]
        constructor
        · intro h
          have htake := conn.write_le call (x.take sendlineSize).length
          have hbound := length_taken_le conn fuel (call + 1) (x.drop sendlineSize)
          have hlen := congrArg List.length h
          simp only [List.length_append, List.length_take,
            List.length_drop] at hlen htake hbound
          have hfull : (conn.write call (x.take sendlineSize).length).count =
              (x.take sendlineSize).length := by
            rw [List.length_take]
            omega
          refine ⟨hfull, ?_⟩
          rw [hfull, List.take_length] at h
          exact List.append_cancel_left
            (h.trans (List.take_append_drop sendlineSize x).symm)
        · rintro ⟨hfull, htail⟩
          rw [hfull, htail, List.take_length, List.take_append_drop]

/-- What the sending loop does: it sends the whole file, as far as the connection
takes it, and does nothing to `datafd` but write. -/
theorem sendLoop_spec (hfuel : s.unread.length ≤ fuel) :
    (s.sendLoop conn fuel).unread = [] ∧
      (s.sendLoop conn fuel).accepted =
        s.accepted ++ taken conn fuel s.calls s.unread ∧
      (s.sendLoop conn fuel).controlFinished = s.controlFinished ∧
      (s.sendLoop conn fuel).dataFinished = s.dataFinished ∧
      (s.sendLoop conn fuel).replies = s.replies ∧
      ∃ ws, .close ∉ ws ∧ (s.sendLoop conn fuel).ops = s.ops ++ ws := by
  induction fuel generalizing s with
  | zero =>
      have hnil : s.unread = [] := List.length_eq_zero_iff.mp (by omega)
      exact ⟨hnil, by simp [PutState.sendLoop, taken], rfl, rfl, rfl, [],
        by simp, by simp [PutState.sendLoop]⟩
  | succ fuel ih =>
      by_cases hx : s.unread = []
      · simp only [PutState.sendLoop, if_pos hx, taken, List.append_nil]
        exact ⟨hx, trivial, trivial, trivial, trivial, [], by simp, by simp⟩
      · have hpos : 0 < s.unread.length := List.length_pos_iff.mpr hx
        have hsize : 0 < sendlineSize := by decide
        have hrest : (s.writeBlock conn).unread.length ≤ fuel := by
          change (s.unread.drop sendlineSize).length ≤ fuel
          rw [List.length_drop]
          omega
        obtain ⟨hunread, hacc, hcontrol, hdata, hreplies, ws, hws, hops⟩ := ih hrest
        simp only [PutState.sendLoop, if_neg hx, taken]
        refine ⟨hunread, ?_, hcontrol, hdata, hreplies,
          .write (s.unread.take sendlineSize).length :: ws, by simpa using hws, ?_⟩
        · rw [hacc]
          exact List.append_assoc ..
        · rw [hops]
          exact List.append_assoc ..

end Send

/-- Turn `i` brings the reply `m`. -/
def ReplyAt (events : List Ready) (i : Nat) (m : Bytes) : Prop :=
  ∃ e, events[i]? = some e ∧ e.reply = some m

def WritableAt (events : List Ready) (i : Nat) : Prop :=
  ∃ e, events[i]? = some e ∧ e.writable = true

section Events

variable {e : Ready} {events : List Ready} {i : Nat} {m : Bytes}

@[simp] theorem replyAt_zero : ReplyAt (e :: events) 0 m ↔ e.reply = some m := by
  simp [ReplyAt]

@[simp] theorem replyAt_succ : ReplyAt (e :: events) (i + 1) m ↔ ReplyAt events i m := by
  simp [ReplyAt]

@[simp] theorem writableAt_zero : WritableAt (e :: events) 0 ↔ e.writable = true := by
  simp [WritableAt]

@[simp] theorem writableAt_succ :
    WritableAt (e :: events) (i + 1) ↔ WritableAt events i := by
  simp [WritableAt]

end Events

/-- A reply with another code than 200 comes only behind a turn with a reply and
a turn with a writable data connection. -/
def RefusedLate (events : List Ready) : Prop :=
  ∀ i m, ReplyAt events i m → replyCode m ≠ some 200 →
    (∃ j < i, ∃ m', ReplyAt events j m') ∧ ∃ j < i, WritableAt events j

/-- The same of the turns that are left; the flags tell whether there were such
turns before. -/
def LateFrom (control data : Bool) (events : List Ready) : Prop :=
  ∀ i m, ReplyAt events i m → replyCode m ≠ some 200 →
    (control = true ∨ ∃ j < i, ∃ m', ReplyAt events j m') ∧
      (data = true ∨ ∃ j < i, WritableAt events j)

/-- The data connection is not writable before a reply with another code. -/
def LeavesFirst (events : List Ready) : Prop :=
  ∀ i, WritableAt events i →
    ∃ j ≤ i, ∃ m, ReplyAt events j m ∧ replyCode m ≠ some 200

/-- The reply of a turn, if there is one, has code 200. -/
def Ready.Fine (e : Ready) : Prop := ∀ m, e.reply = some m → replyCode m = some 200

section Conditions

variable {control data : Bool} {e : Ready} {events : List Ready}

theorem lateFrom_false : LateFrom false false events ↔ RefusedLate events := by
  simp [LateFrom, RefusedLate]

theorem lateFrom_cons_fine (he : e.Fine) : LateFrom control data (e :: events) ↔
    LateFrom (control || e.reply.isSome) (data || e.writable) events := by
  constructor
  · intro h i m hm hbad
    obtain ⟨hcontrol, hdata⟩ := h (i + 1) m (replyAt_succ.mpr hm) hbad
    constructor
    · rcases hcontrol with hcontrol | ⟨j, hj, m', hm'⟩
      · simp [hcontrol]
      · cases j with
        | zero => simp [replyAt_zero.mp hm']
        | succ j => exact .inr ⟨j, by omega, m', replyAt_succ.mp hm'⟩
    · rcases hdata with hdata | ⟨j, hj, hw⟩
      · simp [hdata]
      · cases j with
        | zero => simp [writableAt_zero.mp hw]
        | succ j => exact .inr ⟨j, by omega, writableAt_succ.mp hw⟩
  · intro h i m hm hbad
    cases i with
    | zero => exact absurd (he m (replyAt_zero.mp hm)) hbad
    | succ i =>
        obtain ⟨hcontrol, hdata⟩ := h i m (replyAt_succ.mp hm) hbad
        constructor
        · rcases hcontrol with hcontrol | ⟨j, hj, m', hm'⟩
          · rcases Bool.or_eq_true .. ▸ hcontrol with hcontrol | hsome
            · exact .inl hcontrol
            · obtain ⟨m', hm'⟩ := Option.isSome_iff_exists.mp hsome
              exact .inr ⟨0, by omega, m', replyAt_zero.mpr hm'⟩
          · exact .inr ⟨j + 1, by omega, m', replyAt_succ.mpr hm'⟩
        · rcases hdata with hdata | ⟨j, hj, hw⟩
          · rcases Bool.or_eq_true .. ▸ hdata with hdata | hw
            · exact .inl hdata
            · exact .inr ⟨0, by omega, writableAt_zero.mpr hw⟩
          · exact .inr ⟨j + 1, by omega, writableAt_succ.mpr hw⟩

theorem not_lateFrom_cons (he : ¬ e.Fine) (hopen : (control && data) = false) :
    ¬ LateFrom control data (e :: events) := by
  intro h
  simp only [Ready.Fine, not_forall] at he
  obtain ⟨m, hm, hbad⟩ := he
  obtain ⟨hcontrol, hdata⟩ := h 0 m (replyAt_zero.mpr hm) hbad
  simp only [Nat.not_lt_zero, false_and, exists_false, or_false] at hcontrol hdata
  simp [hcontrol, hdata] at hopen

theorem leavesFirst_cons_fine (he : e.Fine) : LeavesFirst (e :: events) ↔
    e.writable = false ∧ LeavesFirst events := by
  constructor
  · intro h
    constructor
    · by_contra hw
      obtain ⟨j, hj, m, hm, hbad⟩ := h 0 (writableAt_zero.mpr (by simpa using hw))
      obtain rfl : j = 0 := by omega
      exact hbad (he m (replyAt_zero.mp hm))
    · intro i hw
      obtain ⟨j, hj, m, hm, hbad⟩ := h (i + 1) (writableAt_succ.mpr hw)
      cases j with
      | zero => exact absurd (he m (replyAt_zero.mp hm)) hbad
      | succ j => exact ⟨j, by omega, m, replyAt_succ.mp hm, hbad⟩
  · rintro ⟨hclosed, h⟩ i hw
    cases i with
    | zero => simp [writableAt_zero.mp hw] at hclosed
    | succ i =>
        obtain ⟨j, hj, m, hm, hbad⟩ := h i (writableAt_succ.mp hw)
        exact ⟨j + 1, by omega, m, replyAt_succ.mpr hm, hbad⟩

theorem leavesFirst_cons_of_not_fine (he : ¬ e.Fine) : LeavesFirst (e :: events) := by
  simp only [Ready.Fine, not_forall] at he
  obtain ⟨m, hm, hbad⟩ := he
  exact fun i _ => ⟨0, by omega, m, replyAt_zero.mpr hm, hbad⟩

end Conditions

/-- The state behind the control branch of a turn whose reply, if any, has code
200. -/
def PutState.heard (s : PutState) (reply : Option Bytes) : PutState :=
  { s with replies := s.replies ++ reply.toList,
           controlFinished := s.controlFinished || reply.isSome }

/-- The state behind such a turn. -/
def PutState.turn (conn : WriteResults) (s : PutState) (e : Ready) : PutState :=
  dataTurn conn ((s.op .select).heard e.reply) e.writable

/-- What the loop keeps up as long as it goes on. -/
structure PutState.Sound (conn : WriteResults) (x : Bytes) (s : PutState) : Prop where
  closed_eq : s.closed = s.dataFinished
  before : s.dataFinished = false → s.unread = x ∧ s.calls = 0 ∧ s.accepted = []
  after : s.dataFinished = true →
    s.unread = [] ∧ s.accepted = taken conn x.length 0 x
  control : s.controlFinished = true → s.replies ≠ []
  fine : ∀ m ∈ s.replies, replyCode m = some 200

section Loop

variable {conn : WriteResults} {x : Bytes} {s s' : PutState} {e : Ready}
  {events : List Ready}

theorem hearReply_fine (he : e.Fine) (hwait : s.closed = true → e.reply.isSome = true) :
    hearReply s e.reply = .on (s.heard e.reply) := by
  cases hreply : e.reply with
  | none =>
      have hopen : s.closed = false := by
        cases hclosed : s.closed with
        | false => rfl
        | true => simp [hreply] at hwait; simp [hclosed] at hwait
      simp [hearReply, hopen, PutState.heard]
  | some m =>
      simp [hearReply, he m hreply, PutState.heard, PutState.hear]

theorem putLoop_fine (he : e.Fine) (hwait : s.closed = true → e.reply.isSome = true) :
    putLoop conn (e :: events) s =
      if (s.turn conn e).controlFinished && (s.turn conn e).dataFinished then
        .left (s.turn conn e)
      else putLoop conn events (s.turn conn e) := by
  have hwait' : (s.op .select).closed = true → e.reply.isSome = true := by
    simpa [PutState.closed, PutState.op] using hwait
  rw [putLoop, hearReply_fine he hwait']
  rfl

theorem putLoop_waits (hclosed : s.closed = true) (hreply : e.reply = none) :
    putLoop conn (e :: events) s = .waiting (s.op .select) := by
  have hclosed' : (s.op .select).closed = true := by
    simpa [PutState.closed, PutState.op] using hclosed
  rw [putLoop, hreply, hearReply, if_pos hclosed']

/-- A reply with another code ends the loop, in one way or the other. -/
theorem putLoop_bad (he : ¬ e.Fine) : ∃ m, replyCode m ≠ some 200 ∧
    (putLoop conn (e :: events) s = .left ((s.op .select).hear m) ∨
      putLoop conn (e :: events) s = .undefined ((s.op .select).hear m)) := by
  simp only [Ready.Fine, not_forall] at he
  obtain ⟨m, hm, hbad⟩ := he
  refine ⟨m, hbad, ?_⟩
  rw [putLoop, hm]
  cases hcode : replyCode m with
  | none => right; simp [hearReply, hcode]
  | some code =>
      have hne : code ≠ 200 := fun h => hbad (by rw [hcode, h])
      left
      simp [hearReply, hcode, hne]

theorem sendData_sound (hs : s.Sound conn x) : (s.sendData conn).Sound conn x := by
  obtain ⟨hunread, hacc, hcontrol, _, hreplies, ws, _, hops⟩ :=
    @sendLoop_spec conn s.unread.length s (Nat.le_refl _)
  refine ⟨?_, fun h => ?_, fun _ => ⟨hunread, ?_⟩, fun h => ?_, fun m hm => ?_⟩
  · simp [PutState.closed, PutState.sendData, PutState.op]
  · cases h
  · refine hacc.trans ?_
    cases hd : s.dataFinished with
    | false =>
        obtain ⟨hu, hc, ha⟩ := hs.before hd
        rw [hu, hc, ha, List.nil_append]
    | true =>
        obtain ⟨hu, ha⟩ := hs.after hd
        rw [hu, ha]
        exact List.append_nil _
  · rw [show (s.sendData conn).replies = s.replies from hreplies]
    exact hs.control (hcontrol.symm.trans h)
  · rw [show (s.sendData conn).replies = s.replies from hreplies] at hm
    exact hs.fine m hm

theorem sound_select (hs : s.Sound conn x) : (s.op .select).Sound conn x := by
  refine ⟨?_, hs.before, hs.after, hs.control, hs.fine⟩
  have h := hs.closed_eq
  simpa [PutState.closed, PutState.op] using h

theorem sound_heard (hs : s.Sound conn x) (he : e.Fine) :
    (s.heard e.reply).Sound conn x := by
  refine ⟨hs.closed_eq, hs.before, hs.after, fun h => ?_, fun m hm => ?_⟩
  · cases hreply : e.reply with
    | none =>
        simp only [PutState.heard, hreply, Option.isSome_none, Bool.or_false] at h
        simpa [PutState.heard] using hs.control h
    | some m => simp [PutState.heard]
  · rcases List.mem_append.mp hm with hm | hm
    · exact hs.fine m hm
    · exact he m (Option.mem_toList.mp hm)

/-- One turn of the loop. -/
theorem turn_spec (hs : s.Sound conn x) (he : e.Fine) : (s.turn conn e).Sound conn x ∧
    (s.turn conn e).controlFinished = (s.controlFinished || e.reply.isSome) ∧
    (s.turn conn e).dataFinished = (s.dataFinished || e.writable) := by
  have hsound := sound_heard (sound_select hs) he
  have hclosed : ((s.op .select).heard e.reply).closed = s.dataFinished :=
    hsound.closed_eq
  unfold PutState.turn dataTurn
  rw [hclosed]
  cases hd : s.dataFinished || e.writable with
  | false =>
      simp only [Bool.false_eq_true, ↓reduceIte]
      refine ⟨hsound, rfl, ?_⟩
      have hfalse : s.dataFinished = false := by
        cases h : s.dataFinished with
        | false => rfl
        | true => simp [h] at hd
      exact hfalse
  | true =>
      simp only [↓reduceIte]
      refine ⟨sendData_sound hsound, ?_, rfl⟩
      exact (@sendLoop_spec conn _ _ (Nat.le_refl _)).2.2.1

theorem sound_start (conn : WriteResults) (x : Bytes) :
    (PutState.start x).Sound conn x :=
  ⟨rfl, fun _ => ⟨rfl, rfl, rfl⟩, fun h => (by cases h), fun h => (by cases h), by
    simp [PutState.start]⟩

/-- How the loop is left: with both flags set, or on a reply with another code. -/
theorem putLoop_left (hs : s.Sound conn x)
    (hopen : (s.controlFinished && s.dataFinished) = false)
    (h : putLoop conn events s = .left s') :
    LateFrom s.controlFinished s.dataFinished events ∧ s'.Sound conn x ∧
        s'.controlFinished = true ∧ s'.dataFinished = true ∨
      ¬ LateFrom s.controlFinished s.dataFinished events ∧
        ∃ m, s'.replies.getLast? = some m ∧ replyCode m ≠ some 200 := by
  induction events generalizing s with
  | nil => cases h
  | cons e events ih =>
      by_cases he : e.Fine
      · by_cases hwait : s.closed = true → e.reply.isSome = true
        · obtain ⟨hsound, hcontrol, hdata⟩ := turn_spec hs he
          rw [putLoop_fine he hwait] at h
          rw [lateFrom_cons_fine he, ← hcontrol, ← hdata]
          split at h
          · rename_i hboth
            cases h
            obtain ⟨hc, hd⟩ := Bool.and_eq_true_iff.mp hboth
            refine .inl ⟨fun _ _ _ _ => ⟨.inl hc, .inl hd⟩, hsound, hc, hd⟩
          · rename_i hmore
            exact ih hsound (by simpa using hmore) h
        · rw [Classical.not_imp] at hwait
          rw [putLoop_waits hwait.1 (by simpa using hwait.2)] at h
          cases h
      · obtain ⟨m, hbad, hrun | hrun⟩ := @putLoop_bad conn s e events he
        · rw [hrun] at h
          cases h
          refine .inr ⟨not_lateFrom_cons he hopen, m, ?_, hbad⟩
          simp [PutState.hear]
        · rw [hrun] at h
          cases h

/-- The loop only adds to what was done to `datafd`, a `select` first. -/
theorem putLoop_ops (conn : WriteResults) (events : List Ready) (s : PutState) :
    ∃ ws, (putLoop conn events s).state.ops = s.ops ++ .select :: ws := by
  induction events generalizing s with
  | nil => exact ⟨[], rfl⟩
  | cons e events ih =>
      by_cases he : e.Fine
      · by_cases hwait : s.closed = true → e.reply.isSome = true
        · have hturn : ∃ ws, (s.turn conn e).ops = s.ops ++ .select :: ws := by
            unfold PutState.turn dataTurn
            split
            · obtain ⟨_, _, _, _, _, ws, _, hops⟩ :=
                @sendLoop_spec conn _ ((s.op .select).heard e.reply) (Nat.le_refl _)
              refine ⟨ws ++ [.close], ?_⟩
              simp only [PutState.sendData, PutState.op] at hops ⊢
              rw [hops]
              simp [PutState.heard]
            · exact ⟨[], rfl⟩
          obtain ⟨ws, hws⟩ := hturn
          rw [putLoop_fine he hwait]
          split
          · exact ⟨ws, hws⟩
          · obtain ⟨ws', hws'⟩ := ih (s.turn conn e)
            exact ⟨ws ++ .select :: ws', by rw [hws', hws]; simp⟩
        · rw [Classical.not_imp] at hwait
          rw [putLoop_waits hwait.1 (by simpa using hwait.2)]
          exact ⟨[], rfl⟩
      · obtain ⟨m, _, hrun | hrun⟩ := @putLoop_bad conn s e events he
        · rw [hrun]
          exact ⟨[], rfl⟩
        · rw [hrun]
          exact ⟨[], rfl⟩

theorem not_mem_of_closed (h : s.closed = false) : .close ∉ s.ops := by
  simpa [PutState.closed] using h

theorem mem_of_closed (h : s.closed = true) : .close ∈ s.ops := by
  simpa [PutState.closed] using h

theorem putLoop_unclosed (hs : s.Sound conn x) (hd : s.dataFinished = false)
    (h : LeavesFirst events) : .close ∉ (putLoop conn events s).state.ops := by
  have hclosed : s.closed = false := hs.closed_eq.trans hd
  have hops : .close ∉ (s.op .select).ops := by
    simpa [PutState.op] using not_mem_of_closed hclosed
  induction events generalizing s with
  | nil => exact hops
  | cons e events ih =>
      by_cases he : e.Fine
      · obtain ⟨hsound, _, hdata⟩ := turn_spec hs he
        obtain ⟨hw, hrest⟩ := (leavesFirst_cons_fine he).mp h
        rw [hd, hw, Bool.or_false] at hdata
        rw [putLoop_fine he (by simp [hclosed]), hdata, Bool.and_false]
        have hclosed' := hsound.closed_eq.trans hdata
        exact ih hsound hdata hrest hclosed'
          (by simpa [PutState.op] using not_mem_of_closed hclosed')
      · obtain ⟨m, _, hrun | hrun⟩ := @putLoop_bad conn s e events he
        · rw [hrun]
          exact hops
        · rw [hrun]
          exact hops

/-- Once the data branch was entered, `datafd` is used again: by the loop, or by
`main`. -/
theorem putLoop_reused (hs : s.Sound conn x) (hd : s.dataFinished = false)
    (h : ¬ LeavesFirst events) : .close ∈ (putLoop conn events s).state.ops ∧
      ((∀ s', putLoop conn events s ≠ .left s') →
        .close ∈ (putLoop conn events s).state.ops.dropLast) := by
  induction events generalizing s with
  | nil =>
      refine absurd (fun i hw => ?_) h
      obtain ⟨e, he, _⟩ := hw
      simp at he
  | cons e events ih =>
      have he : e.Fine := by
        by_contra he
        exact h (leavesFirst_cons_of_not_fine he)
      have hclosed : s.closed = false := hs.closed_eq.trans hd
      obtain ⟨hsound, _, hdata⟩ := turn_spec hs he
      rw [leavesFirst_cons_fine he, not_and] at h
      rw [hd, Bool.false_or] at hdata
      rw [putLoop_fine he (by simp [hclosed]), hdata]
      cases hw : e.writable with
      | false =>
          rw [hw] at hdata
          rw [Bool.and_false]
          exact ih hsound hdata (h hw)
      | true =>
          rw [hw] at hdata
          have hmem := mem_of_closed (hsound.closed_eq.trans hdata)
          obtain ⟨ws, hws⟩ := putLoop_ops conn events (s.turn conn e)
          split
          · exact ⟨hmem, fun hleft => absurd rfl (hleft _)⟩
          · rw [hws]
            refine ⟨List.mem_append_left _ hmem, fun _ => ?_⟩
            rw [List.dropLast_append_cons]
            exact List.mem_append_left _ hmem

end Loop

/-- The reply the loop read last has code 200. -/
def PutState.Acknowledged (s : PutState) : Prop :=
  s.replies.getLast?.bind replyCode = some 200

/-- `do_put` returns `1` only when the connection took the file and the server
acknowledged it. -/
def PutRun.Faithful (run : PutRun) (x : Bytes) : Prop :=
  run.value = some 1 → run.state.accepted = x ∧ run.state.Acknowledged

/-- `datafd` is closed once and not used afterwards, as far as the run went. -/
structure ClosedOnce (ops : List FdOp) (done : Bool) : Prop where
  unused : .close ∉ ops.dropLast
  once : done = true → ops.count .close = 1

section Put

variable {conn : WriteResults} {host : PutHost} {events : List Ready} {x : Bytes}

theorem doPut_of_open (hx : host.open = some x) : doPut conn host events =
    ⟨(putLoop conn events (.start x)).value, (putLoop conn events (.start x)).state⟩ := by
  rw [doPut, hx]

/-- `1` is returned for the prepared file only. -/
theorem open_of_value (hprepared : host.prepared = some x)
    (hvalue : (doPut conn host events).value = some 1) : host.open = some x := by
  cases hopen : host.open with
  | none =>
      rw [doPut, hopen] at hvalue
      cases hvalue
  | some y =>
      unfold PutHost.open at hopen
      split at hopen
      · exact hopen.symm.trans hprepared
      · cases hopen

theorem doPut_faithful_iff (hprepared : host.prepared = some x)
    (hvalue : (doPut conn host events).value = some 1) :
    (doPut conn host events).Faithful x ↔
      FullWrites conn 0 x ∧ RefusedLate events := by
  have hopen := open_of_value hprepared hvalue
  unfold PutRun.Faithful
  rw [doPut_of_open hopen] at hvalue ⊢
  rw [← lateFrom_false]
  cases hend : putLoop conn events (.start x) with
  | waiting s => rw [hend] at hvalue; cases hvalue
  | undefined s => rw [hend] at hvalue; cases hvalue
  | left s =>
      simp only [PutEnd.value, PutEnd.state, forall_const]
      rcases putLoop_left (sound_start conn x) rfl hend with
        ⟨hlate, hsound, hcontrol, hdata⟩ | ⟨hlate, m, hlast, hbad⟩
      · have hack : s.Acknowledged := by
          have hne := hsound.control hcontrol
          have hmem := List.getLast_mem hne
          rw [PutState.Acknowledged, List.getLast?_eq_some_getLast hne]
          exact hsound.fine _ hmem
        rw [(hsound.after hdata).2, taken_eq_iff (Nat.le_refl _)]
        exact ⟨fun h => ⟨h.1, hlate⟩, fun h => ⟨h.1, hack⟩⟩
      · constructor
        · rintro ⟨_, hack⟩
          rw [PutState.Acknowledged, hlast] at hack
          exact absurd hack hbad
        · exact fun h => absurd h.2 hlate

/-- A file of two bytes, all of which the connection takes. -/
def abHost : PutHost := ⟨true, some [97, 98], true⟩

def fullWrites : WriteResults := ⟨fun _ len => .accepted len, fun _ _ => Nat.le_refl _⟩

/-- A connection that takes one byte at a time. -/
def shortWrites : WriteResults :=
  ⟨fun _ len => .accepted (min 1 len), fun _ _ => Nat.min_le_right _ _⟩

/-- The reply comes when the connection is writable. -/
def oneTurn (reply : String) : List Ready := [⟨some (ascii reply), true⟩]

theorem doPut_faithful_ab :
    (doPut fullWrites abHost (oneTurn "200 Command OK")).Faithful [97, 98] := by
  refine (@doPut_faithful_iff fullWrites abHost (oneTurn "200 Command OK") [97, 98] rfl
    (by decide)).mpr ⟨fun k hk => rfl, fun i m hm hbad => ?_⟩
  obtain ⟨e, he, hreply⟩ := hm
  cases i with
  | zero =>
      obtain rfl := Option.some.inj he
      obtain rfl := Option.some.inj hreply
      exact absurd (by decide) hbad
  | succ i => simp [oneTurn] at he

/-- A short write, and a refusal, go unnoticed. -/
theorem doPut_unfaithful_ab :
    ¬ (doPut shortWrites abHost (oneTurn "200 Command OK")).Faithful [97, 98] ∧
      ¬ (doPut fullWrites abHost (oneTurn "550 Filename Does Not Exist")).Faithful
        [97, 98] := by
  constructor
  · intro h
    exact absurd (h (by decide)).1 (by decide)
  · intro h
    exact absurd (h (by decide)).1 (by decide)

/-- `main` closes `datafd` at the end of a run that is done. -/
theorem closedOnce_append_iff {ops : List FdOp} {done : Bool} :
    ClosedOnce (if done then ops ++ [.close] else ops) done ↔
      if done then .close ∉ ops else .close ∉ ops.dropLast := by
  cases done with
  | true =>
      simp only [↓reduceIte]
      constructor
      · intro h
        simpa using h.unused
      · intro hmem
        refine ⟨by simpa using hmem, fun _ => ?_⟩
        simp [List.count_append, List.count_eq_zero_of_not_mem hmem]
  | false => exact ⟨fun h => h.unused, fun h => ⟨h, fun hdone => by cases hdone⟩⟩

theorem mainPut_closedOnce_iff : ClosedOnce (mainPut conn host events)
      (doPut conn host events).value.isSome ↔
    host.open = none ∨ LeavesFirst events := by
  unfold mainPut
  rw [closedOnce_append_iff]
  cases hopen : host.open with
  | none =>
      have hrun : doPut conn host events = ⟨some (-1), .start []⟩ := by
        rw [doPut, hopen]
      rw [hrun]
      exact iff_of_true (by decide) (.inl rfl)
  | some x =>
      simp only [reduceCtorEq, false_or]
      rw [doPut_of_open hopen]
      have hsound := sound_start conn x
      by_cases hleaves : LeavesFirst events
      · have hunclosed := putLoop_unclosed hsound rfl hleaves
        refine iff_of_true ?_ hleaves
        split
        · exact hunclosed
        · exact fun hmem => hunclosed (List.mem_of_mem_dropLast hmem)
      · obtain ⟨hmem, hreused⟩ := putLoop_reused hsound rfl hleaves
        refine iff_of_false ?_ hleaves
        split
        · exact fun hunused => hunused hmem
        · rename_i hundone
          refine fun hunused => hunused (hreused fun s hleft => ?_)
          rw [hleft] at hundone
          exact hundone rfl

/-- The loop closes `datafd`, and `main` closes it again. -/
theorem mainPut_closedTwice_ab :
    ¬ ClosedOnce (mainPut fullWrites abHost (oneTurn "200 Command OK"))
      (doPut fullWrites abHost (oneTurn "200 Command OK")).value.isSome :=
  fun h => absurd h.unused (by decide)

end Put

end EcFtp
