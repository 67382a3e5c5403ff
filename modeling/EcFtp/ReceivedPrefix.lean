/-
What a transfer leaves at its destination.  Whichever of the checked calls fail on the
receiving host, and whichever way the steps of the two hosts interleave, the destination
holds what it held before, or a beginning of the file that was sent; and so it does
wherever the connection breaks off.  What is received is stored whole: the `fwrite` of
the receiving loops is not checked.
-/
import EcFtp.DataStream
import EcFtp.EveryMoment

namespace EcFtp

open Duplex Exec

/-- The destination is as it was, or holds a beginning of `x`; of the other files only
temporary ones may differ. -/
structure LeavesBeginning (filename : Path) (x : FileData) (fs fs' : FileSystem) :
    Prop where
  dest : fs' filename = fs filename ∨ ∃ y, fs' filename = some y ∧ y.bytes <+: x.bytes
  others : ∀ fp, fp ≠ filename → ¬ IsTempName filename fp → fs' fp = fs fp

section Received

variable {lzma : Lzma} {key : Key} {x c d e e' : FileData} {env₁ env₂ env₃ env : Env}
  {penv : ProcessEnv} {fs fs' : FileSystem} {filename recvFp : Path}

theorem LeavesOnly.beginning (h : LeavesOnly (· <+: x.bytes) filename fs fs') :
    LeavesBeginning filename x fs fs' := ⟨h.dest, h.others⟩

/-- What is decrypted of a beginning of what was sent is a beginning of the container. -/
theorem decrypted_written (hundoes : lzma.Undoes)
    (hcomp : exitCode (compFileOf lzma env₁ x) = some 0)
    (hc : c.bytes = (finalState (compFileOf lzma env₁ x)).out)
    (henc : exitCode (encFileOf env₂ c key) = some 0)
    (he : e.bytes = (finalState (encFileOf env₂ c key)).out) (hcut : e'.bytes <+: e.bytes)
    (hd : Decrypts penv e' key d) {written : Bytes}
    (hwritten : (finalState (uncompFileOf lzma env d)).MayHold written) :
    written <+: x.bytes := by
  rcases encFileOf_zero henc with ⟨_, _, hout⟩ | ⟨_, hnil⟩
  · rw [← he] at hout
    have hdcut : d.bytes <+: c.bytes := by
      rw [hd.2]
      exact decFileOf_cut hout hcut hd.1
    rcases compFileOf_zero hcomp with ⟨hnb, hreads, hholds⟩ | ⟨_, hnil⟩
    · rw [← hc] at hholds
      obtain ⟨husable, hx⟩ := (hholds.describes hnb hreads).usable hundoes x.length_lt
      rw [← hx]
      exact uncompFileOf_cut husable hdcut hwritten
    · exact absurd (hc.trans hnil) (encFileOf_ne_nil henc)
  · rw [← he] at hnil
    rw [hnil] at hcut
    exact absurd hd.1 (decFileOf_empty (List.prefix_nil.mp hcut))

end Received

section Transfers

variable {lzma : Lzma} {t : Session} {x : FileData} {preparedFp : Path} {fs : FileSystem}
  {bs : Bytes}

/-- What is decrypted of a beginning of a prepared file is uncompressed to a beginning
of its source. -/
theorem prepared_begins {env : PrepareEnv} {filename : Path} {key : Key}
    {fs₀ : FileSystem}
    (hundoes : lzma.Undoes) (hsource : fs₀ filename = some x)
    (hprepare : prepareFile lzma env filename key fs₀ = .ok preparedFp fs)
    (hbs : bs <+: (fs.content preparedFp).getD []) {penv : ProcessEnv} {d : FileData}
    (hd : Decrypts penv (.clip bs) key d) {uncompEnv : Env} {written : Bytes}
    (hwritten : (finalState (uncompFileOf lzma uncompEnv d)).MayHold written) :
    written <+: x.bytes := by
  obtain ⟨_, c, e, hcomp, hc, henc, he, rfl⟩ := prepareFile_ok hsource hprepare
  rw [content_of_some FileSystem.write_self, Option.getD_some] at hbs
  exact decrypted_written hundoes hcomp hc henc he (clip_begins hbs) hd hwritten

/-- A receiving handler that has read a beginning of it, whether or not its last `read`
failed. -/
theorem receiveInto_leavesBeginning (hundoes : lzma.Undoes)
    (hsource : t.senderFs t.source = some x)
    (hprepare :
      prepareFile lzma t.senderEnv t.source t.key t.senderFs = .ok preparedFp fs)
    (hbs : bs <+: (fs.content preparedFp).getD []) (removes readFails : Bool) :
    LeavesBeginning t.dest x t.receiverFs (endState (receiveInto lzma t.key removes
      t.receiverEnv ⟨t.recvDigits, true, bs, readFails⟩ (some t.dest) t.receiverFs)) := by
  have hend := Activities.Program.endState_mem_trace (receiveActivity lzma [] removes
    t.receiverEnv ⟨t.recvDigits, true, bs, readFails⟩ t.key (some t.dest)) t.receiverFs
  rw [alone_receiveActivity] at hend
  apply LeavesOnly.beginning
  apply trace_receiveActivity ?_ hend
  intro d hd uncompEnv written hwritten
  exact prepared_begins hundoes hsource hprepare hbs hd hwritten

/-- What the receiving side leaves once it has received a beginning of the prepared
file. -/
theorem Session.received_leavesBeginning (hundoes : lzma.Undoes)
    (hsource : t.senderFs t.source = some x)
    (hprepare :
      prepareFile lzma t.senderEnv t.source t.key t.senderFs = .ok preparedFp fs)
    (hbs : bs <+: (fs.content preparedFp).getD []) :
    LeavesBeginning t.dest x t.receiverFs (endState (t.received lzma bs)) := by
  rw [← @receiveInto_ended lzma t bs false]
  exact receiveInto_leavesBeginning hundoes hsource hprepare hbs false false

/-- No transfer of a prepared file leaves anything at its destination that is not the
beginning of what was sent. -/
theorem transfer_leavesBeginning (lzma : Lzma) (hundoes : lzma.Undoes) (t : Session)
    (x : FileData) (hsource : t.senderFs t.source = some x) (preparedFp : Path)
    (fs : FileSystem)
    (hprepare :
      prepareFile lzma t.senderEnv t.source t.key t.senderFs = .ok preparedFp fs)
    (s : Net Byte (EStateM.Result Exit FileSystem Path)
      (EStateM.Result Exit FileSystem PUnit))
    (hruns : Net.Runs (t.start lzma) s) (res : EStateM.Result Exit FileSystem PUnit)
    (hright : s.right = .done res) :
    LeavesBeginning t.dest x t.receiverFs (endState res) := by
  obtain ⟨f, hend, hleftDone, hrightDone⟩ := Session.runs_of_prepared hprepare
  have hrest := hend.to_end (Net.ended_of_done hleftDone hrightDone) hruns
  have hstays : f.right = .done res := hrest.right_done hright
  obtain rfl : res = t.received lzma ((fs.content preparedFp).getD []) := by
    cases hstays.symm.trans hrightDone
    rfl
  exact Session.received_leavesBeginning hundoes hsource hprepare List.prefix_rfl

/-- Wherever the data connection breaks off, the file at the destination of a `get` or of
a `put` is the one that was there, or a beginning of what was sent. -/
theorem brokenStream_leavesBeginning (lzma : Lzma) (hundoes : lzma.Undoes) (t : Session)
    (x : FileData) (hsource : t.senderFs t.source = some x) (preparedFp : Path)
    (fs : FileSystem)
    (hprepare :
      prepareFile lzma t.senderEnv t.source t.key t.senderFs = .ok preparedFp fs)
    (room : Nat) :
    (∀ s, BrokenStreams retrSource room (.start ((fs.content preparedFp).getD [])) s →
      LeavesBeginning t.dest x t.receiverFs (endState (doGetFiles lzma t.key t.receiverEnv
        (s.sink.host t.recvDigits) (some t.dest) t.receiverFs))) ∧
    ∀ s, BrokenStreams putSource room (.start ((fs.content preparedFp).getD [])) s →
      LeavesBeginning t.dest x t.receiverFs
        (endState (doStorFiles lzma t.key t.receiverEnv
        (s.sink.host t.recvDigits) (some t.dest) t.receiverFs)) := by
  constructor
  · intro s hs
    have hbegins := received_begins (Sending.whole_start _).whole hs
    exact receiveInto_leavesBeginning hundoes hsource hprepare hbegins true _
  · intro s hs
    have hbegins := received_begins rfl hs
    exact receiveInto_leavesBeginning hundoes hsource hprepare hbegins false _

end Transfers

theorem transfer_leavesBeginning_a : ∃ preparedFp fs res s,
    Net.Runs ((putSession fileOfA).start .storing) s ∧
      s.left = .done (.ok preparedFp fs) ∧
      s.right = .done res ∧
      LeavesBeginning "f" fileOfA (putSession fileOfA).receiverFs (endState res) := by
  obtain ⟨preparedFp, e, hprepare, _⟩ := (putSession_clear fileOfA).results storing_undoes
    (putSession_source fileOfA) fileOfA_transferable
  obtain ⟨s, hruns, hleft, hright⟩ := Session.runs_of_prepared hprepare
  exact ⟨preparedFp, _, _, s, hruns, hleft, hright,
    transfer_leavesBeginning .storing storing_undoes (putSession fileOfA) fileOfA
      (putSession_source fileOfA) preparedFp _ hprepare s hruns _ hright⟩

theorem brokenStream_leavesBeginning_a : ∃ preparedFp fs,
    prepareFile .storing (putSession fileOfA).senderEnv "f" (putSession fileOfA).key
        (putSession fileOfA).senderFs = .ok preparedFp fs ∧
      ∀ s, BrokenStreams putSource 1 (.start ((fs.content preparedFp).getD [])) s →
        LeavesBeginning "f" fileOfA (putSession fileOfA).receiverFs
          (endState (doStorFiles .storing (putSession fileOfA).key
            (putSession fileOfA).receiverEnv (s.sink.host (some "aaaaaa")) (some "f")
            (putSession fileOfA).receiverFs)) := by
  obtain ⟨preparedFp, e, hprepare, _⟩ := (putSession_clear fileOfA).results storing_undoes
    (putSession_source fileOfA) fileOfA_transferable
  exact ⟨preparedFp, _, hprepare, (brokenStream_leavesBeginning .storing storing_undoes
    (putSession fileOfA) fileOfA (putSession_source fileOfA) preparedFp _ hprepare 1).2⟩

end EcFtp
