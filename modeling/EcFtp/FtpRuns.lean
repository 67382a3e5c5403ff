/-
Runs stay within the phases: none of them has a process at the end of a
connection it still counts on, and in each of them one of the two has a step.
-/
import EcFtp.FtpPhases

namespace EcFtp.Ftp

section Phases

variable {late : Prop} {f : Option Fault} {c c' : ClientPc} {v : ServerPc}
  {n : Net} {s s' : State} {control : Bool}

/-- A client that is about to write has the server at the other end. -/
theorem Phase.clientWrites (h : Phase late c v n) (hwrites : c.Writes control) :
    ¬ if control then v.Gone else n.conn.serverClosed = true := by
  cases h with
  | prompt hv hn =>
      cases hwrites with
      | prompt => cases hv <;> simp [ServerPc.Gone]
  | accepted hcmd hn hconn =>
      cases hwrites with
      | dispatch => simp [ServerPc.Gone]
  | asked hn hconn =>
      cases hwrites with
      | dhWrite => simp [hconn, link]
  | round hi hn hconn =>
      cases hwrites with
      | dhWrite => simp [hconn, link]
  | putting hc hv hn hconn =>
      cases hc with
      | prepares =>
          cases hwrites with
          | putPrepare => cases hv <;> simp [ServerPc.Gone]
      | sends =>
          cases hwrites with
          | putSend => simp [hconn, link]
      | _ => cases hwrites
  | answered hc hv hn =>
      cases hc with
      | _ => cases hwrites
  | listing hc hv hn hconn =>
      cases hc with
      | _ => cases hwrites
  | listed hc hv hn =>
      cases hc with
      | _ => cases hwrites
  | heard hc hv hn =>
      cases hc with
      | _ => cases hwrites
  | getting hc hv hn hconn =>
      cases hc with
      | _ => cases hwrites
  | gotten hc hv hn =>
      generalize n.conn.toClient = down at hc
      cases hc with
      | _ => cases hwrites
  | _ => cases hwrites

/-- A server that is about to write has the client at the other end. -/
theorem Phase.serverWrites (h : Phase late c v n) (hwrites : v.Writes control) :
    ¬ if control then c.Gone else n.conn.clientClosed = true := by
  have hbehind : ∀ {n : Net} {v : ServerPc}, Behind n v → ¬ v.Writes control := by
    intro n v hv hwrites
    cases hv with
    | _ => cases hwrites
  cases h with
  | skipping hw hn =>
      cases hwrites with
      | replying => simp [ClientPc.Gone]
  | listing hc hv hn hconn =>
      cases hwrites with
      | listSend => simp [hconn, link]
      | replying => cases hc <;> simp [ClientPc.Gone]
      | _ => cases hv
  | roundHeard hi hn hconn =>
      cases hwrites with
      | dhWrite => simp [hconn, link]
  | getting hc hv hn hconn =>
      cases hwrites with
      | retrSend => simp [hconn, link]
      | replying => cases hc <;> simp [ClientPc.Gone]
      | _ => cases hv
  | stored hw hn =>
      cases hwrites with
      | replying => simp [ClientPc.Gone]
  | putting hc hv hn hconn =>
      cases hv with
      | _ => cases hwrites
  | putSent hv hn hconn =>
      cases hv with
      | _ => cases hwrites
  | putSkipped hlate hv hn hconn =>
      cases hv with
      | _ => cases hwrites
  | closing hv hn => exact absurd hwrites (hbehind hv)
  | prompt hv hn => exact absurd hwrites (hbehind hv)
  | quitting hv hn => exact absurd hwrites (hbehind hv)
  | ported hcmd hv hn => exact absurd hwrites (hbehind hv)
  | answered hc hv hn => exact absurd hwrites (hbehind hv)
  | listed hc hv hn => exact absurd hwrites (hbehind hv)
  | drained hv hn => exact absurd hwrites (hbehind hv)
  | heard hc hv hn => exact absurd hwrites (hbehind hv)
  | gotten hc hv hn => exact absurd hwrites (hbehind hv)
  | _ => cases hwrites

/-- The server child is gone only once the client has quit. -/
theorem Phase.serverGone (h : Phase late c v n) (hgone : v.Gone) :
    c = .quitReply ∧ n.toClient ≠ [] ∨ c = .finished := by
  have hbehind : ∀ {n : Net} {v : ServerPc}, Behind n v → ¬ v.Gone := by
    intro n v hv
    cases hv <;> simp [ServerPc.Gone]
  cases h with
  | goodbye hn => exact .inl ⟨rfl, by simp [hn.toClient]⟩
  | finished hn => exact .inr rfl
  | listing hc hv hn hconn => cases hv <;> simp [ServerPc.Gone] at hgone
  | getting hc hv hn hconn => cases hv <;> simp [ServerPc.Gone] at hgone
  | putting hc hv hn hconn => cases hv <;> simp [ServerPc.Gone] at hgone
  | putSent hv hn hconn => cases hv <;> simp [ServerPc.Gone] at hgone
  | putSkipped hlate hv hn hconn => cases hv <;> simp [ServerPc.Gone] at hgone
  | closing hv hn => exact absurd hgone (hbehind hv)
  | prompt hv hn => exact absurd hgone (hbehind hv)
  | quitting hv hn => exact absurd hgone (hbehind hv)
  | ported hcmd hv hn => exact absurd hgone (hbehind hv)
  | answered hc hv hn => exact absurd hgone (hbehind hv)
  | listed hc hv hn => exact absurd hgone (hbehind hv)
  | drained hv hn => exact absurd hgone (hbehind hv)
  | heard hc hv hn => exact absurd hgone (hbehind hv)
  | gotten hc hv hn => exact absurd hgone (hbehind hv)
  | _ => simp [ServerPc.Gone] at hgone

/-- The client is gone only once the server child is. -/
theorem Phase.clientGone (h : Phase late c v n) (hgone : c.Gone) : v = .exited := by
  cases h with
  | finished hn => rfl
  | answered hc hv hn => cases hc <;> simp [ClientPc.Gone] at hgone
  | listing hc hv hn hconn => cases hc <;> simp [ClientPc.Gone] at hgone
  | listed hc hv hn => cases hc <;> simp [ClientPc.Gone] at hgone
  | heard hc hv hn => cases hc <;> simp [ClientPc.Gone] at hgone
  | getting hc hv hn hconn => cases hc <;> simp [ClientPc.Gone] at hgone
  | gotten hc hv hn =>
      generalize n.conn.toClient = down at hc
      cases hc <;> simp [ClientPc.Gone] at hgone
  | putting hc hv hn hconn => cases hc <;> simp [ClientPc.Gone] at hgone
  | _ => simp [ClientPc.Gone] at hgone

theorem Phase.connect (h : Phase late c .connecting n) :
    Phase late c .readCommand (n.withConn .fresh) := by
  cases h with
  | connecting hcmd hw hn => exact .connected hcmd (hn.withConn _) rfl
  | closing hv hn => cases hv
  | prompt hv hn => cases hv
  | quitting hv hn => cases hv
  | ported hcmd hv hn => cases hv
  | answered hc hv hn => cases hv
  | listing hc hv hn hconn => cases hv
  | listed hc hv hn => cases hv
  | drained hv hn => cases hv
  | heard hc hv hn => cases hv
  | getting hc hv hn hconn => cases hv
  | gotten hc hv hn => cases hv
  | putting hc hv hn hconn => cases hv
  | putSent hv hn hconn => cases hv
  | putSkipped hlate hv hn hconn => cases hv

/-- Every step that is not one of the faults leads from phase to phase. -/
theorem Phase.step (hf : Keeps late f) (h : Phase late s.client s.server s.net)
    (hstep : Step f s s') : Phase late s'.client s'.server s'.net := by
  cases hstep with
  | client hstep => exact h.clientStep hf hstep
  | server hstep => exact h.serverStep hf hstep
  | connect hserver hlistens =>
      rw [hserver] at h
      exact h.connect
  | refused hserver hgone =>
      have hexited := h.clientGone hgone
      cases hserver.symm.trans hexited
  | clientEof hgone hempty heof =>
      rcases h.serverGone hgone with ⟨_, hreply⟩ | hfinished
      · exact absurd hempty hreply
      · rw [hfinished] at heof
        cases heof
  | serverEof hgone hempty hreads =>
      have hexited := h.clientGone hgone
      rcases hreads with hport | hcommand
      · cases hport.symm.trans hexited
      · cases hcommand.symm.trans hexited
  | clientKilled hwrites hclosed => exact absurd hclosed (h.clientWrites hwrites)
  | serverKilled hwrites hclosed => exact absurd hclosed (h.serverWrites hwrites)

theorem phase_start (late : Prop) (commands : List Command) :
    Phase late (start commands).client (start commands).server
      (start commands).net :=
  .prompt (.readPort rfl rfl)
    ⟨rfl, rfl, rfl, List.forall_mem_nil _, List.forall_mem_nil _⟩

/-- Every such run stays within the phases. -/
theorem Runs.phase {ok : Option Fault → Prop} (hok : ∀ f, ok f → Keeps late f)
    {commands : List Command} (h : Runs ok (start commands) s) :
    Phase late s.client s.server s.net := by
  induction h with
  | refl => exact phase_start late commands
  | tail _ hstep ih =>
      obtain ⟨f, hf, hstep⟩ := hstep
      exact ih.step (hok f hf) hstep

end Phases

section Progress

variable {c : ClientPc} {v : ServerPc} {n : Net}

/-- One of the two can take a step. -/
def Moves (c : ClientPc) (v : ServerPc) (n : Net) : Prop :=
  ∃ s', Step none ⟨c, v, n⟩ s'

theorem moves_client {c' : ClientPc} {n' : Net}
    (h : ClientStep none c n c' n') : Moves c v n :=
  ⟨_, .client h⟩

theorem moves_server {v' : ServerPc} {n' : Net}
    (h : ServerStep none v n v' n') : Moves c v n :=
  ⟨_, .server h⟩

/-- Behind its reply, the server closes the data connection or has closed it. -/
theorem Behind.moves_or (h : Behind n v) :
    Moves c v n ∨ n.conn.serverClosed = true := by
  cases h with
  | closing hw => exact .inl (moves_server .close)
  | readPort hw hclosed => exact .inr hclosed

theorem moves_listing (h : Lists v) : Moves c v n := by
  cases h with
  | listing name => exact moves_server .listOpen
  | listSend => exact moves_server .listSent
  | replying r => exact moves_server .reply

theorem moves_retrieving (h : Retrieves v) : Moves c v n := by
  cases h with
  | find name =>
      cases name with
      | none => exact moves_server .retrNotDetected
      | some name => exact moves_server .retrOpen
  | sends => exact moves_server .retrSent
  | replying r => exact moves_server .reply

/-- The client goes on from the command it has entered. -/
theorem moves_dispatch {cmd : Command} (hcmd : cmd ≠ .quit) :
    Moves (.dispatch cmd) v n := by
  cases cmd with
  | ls name => exact moves_client .list
  | get name =>
      cases name with
      | none => exact moves_client (.skip (.inl rfl))
      | some name => exact moves_client .retr
  | put name =>
      cases name with
      | none => exact moves_client (.skip (.inr rfl))
      | some name => exact moves_client .stor
  | quit => exact absurd rfl hcmd

/-- A read on the data connection gets what is there, or its end. -/
theorem moves_drain {control : Bool} (hclosed : n.conn.serverClosed = true) :
    Moves (.lsDrain control) v n := by
  cases hdown : n.conn.toClient with
  | nil => exact moves_client (.lsEnd hdown hclosed)
  | cons item rest => exact moves_client (.lsBlock hdown)

theorem moves_getRecv (hclosed : n.conn.serverClosed = true) :
    Moves .getRecv v n := by
  cases hdown : n.conn.toClient with
  | nil => exact moves_client (.getEnd hdown hclosed)
  | cons item rest => exact moves_client (.getBlock hdown)

theorem moves_storRead (hclosed : n.conn.clientClosed = true) :
    Moves c .storRead n := by
  cases hup : n.conn.toServer with
  | nil => exact moves_server (.storEnd hup hclosed)
  | cons item rest => exact moves_server (.storBlock hup)

theorem moves_lsSelect {data : Bool} {r : Reply}
    (hn : Control n [] [r] 0) : Moves (.lsSelect false data) v n := by
  by_cases hcode : r.code = 200
  · exact moves_client (.lsControl hn.toClient hcode)
  · exact moves_client (.lsRefused hn.toClient hcode)

/-- Within the phases, the pair is not stuck. -/
theorem Phase.progress (h : Phase False c v n) :
    State.Final ⟨c, v, n⟩ ∨ Moves c v n := by
  cases h with
  | closing hv hn => exact .inr (moves_client .close)
  | prompt hv hn =>
      cases hcmds : n.commands with
      | nil => exact .inl (.inr ⟨rfl, hcmds⟩)
      | cons cmd rest =>
          by_cases hquit : cmd = .quit
          · subst hquit
            exact .inr (moves_client (.quit hcmds))
          · exact .inr (moves_client (.port hcmds hquit))
  | quitting hv hn =>
      cases hv with
      | closing hw => exact .inr (moves_server .close)
      | readPort hw hclosed => exact .inr (moves_server (.quit hn.toServer rfl))
  | goodbye hn => exact .inr (moves_client (.quitReply hn.toClient))
  | finished hn => exact .inl (.inl ⟨rfl, rfl⟩)
  | ported hcmd hv hn =>
      cases hv with
      | closing hw => exact .inr (moves_server .close)
      | readPort hw hclosed => exact .inr (moves_server (.port hn.toServer rfl))
  | connecting hcmd hw hn =>
      exact .inr ⟨_, .connect rfl (by simp [ClientPc.Gone])⟩
  | connected hcmd hn hconn =>
      exact .inr (moves_client (.accept (congrArg DataConn.waiting hconn)))
  | accepted hcmd hn hconn => exact .inr (moves_dispatch hcmd)
  | skipSent hw hn => exact .inr (moves_server (.skip hn.toServer rfl))
  | skipping hw hn => exact .inr (moves_server .reply)
  | answered hc hv hn =>
      cases hc with
      | skip => exact .inr (moves_client (.skipReply hn.toClient))
      | get => exact .inr (moves_client (.getReply hn.toClient))
      | put => exact .inr (moves_client (.putReply hn.toClient))
  | listSent hn hconn => exact .inr (moves_server (.list hn.toServer rfl))
  | listing hc hv hn hconn => exact .inr (moves_listing hv)
  | listed hc hv hn =>
      cases hc with
      | select => exact .inr (moves_lsSelect hn)
      | drain => exact .inr (hv.moves_or.elim id moves_drain)
  | drained hv hn => exact .inr (moves_lsSelect hn)
  | heard hc hv hn =>
      cases hc with
      | select =>
          exact .inr (hv.moves_or.elim id fun hclosed =>
            moves_client (.lsData (.inr hclosed)))
      | drain => exact .inr (hv.moves_or.elim id moves_drain)
  | asked hn hconn => exact .inr (moves_client .dhWrite)
  | @askedSent d name n hn hconn =>
      cases d with
      | get => exact .inr (moves_server (.retr hn.toServer rfl))
      | put => exact .inr (moves_server (.stor hn.toServer rfl))
  | round hi hn hconn => exact .inr (moves_client .dhWrite)
  | roundSent hi hn hconn =>
      exact .inr (moves_server (.dhRead (congrArg DataConn.toServer hconn)))
  | roundHeard hi hn hconn => exact .inr (moves_server .dhWrite)
  | roundAnswered hi hn hconn =>
      exact .inr (moves_client (.dhRead (congrArg DataConn.toClient hconn)))
  | getting hc hv hn hconn => exact .inr (moves_retrieving hv)
  | gotten hc hv hn =>
      generalize hdown : n.conn.toClient = down at hc
      cases hc with
      | last down => exact .inr (moves_client (.dhRead hdown))
      | opens => exact .inr (moves_client .getOpen)
      | receives => exact .inr (hv.moves_or.elim id moves_getRecv)
  | putting hc hv hn hconn =>
      cases hc with
      | last =>
          exact .inr (moves_client (.dhRead (congrArg DataConn.toClient hconn)))
      | prepares => exact .inr (moves_client .putPrepare)
      | opens => exact .inr (moves_client .putOpen)
      | selects => exact .inr (moves_client .putData)
      | sends => exact .inr (moves_client .putSent)
  | putSent hv hn hconn =>
      cases hv with
      | opens name => exact .inr (moves_server .storOpen)
      | receives =>
          exact .inr (moves_storRead (congrArg DataConn.clientClosed hconn))
  | stored hw hn => exact .inr (moves_server .reply)
  | putSkipped hlate hv hn hconn => exact hlate.elim

end Progress

section Matching

variable {late : Prop} {c : ClientPc} {v : ServerPc} {n : Net}

/-- Within the phases there is at most one message on its way in either direction
of the control connection. -/
theorem Phase.control (h : Phase late c v n) :
    ∃ up down ahead, Control n up down ahead ∧ up.length ≤ 1 ∧
      down.length ≤ 1 := by
  cases h <;> exact ⟨_, _, _, by assumption, by simp, by simp⟩

/-- At the client's prompt the server is behind its reply, and that is read. -/
theorem Phase.at_prompt (h : Phase late .prompt v n) :
    n.toClient = [] ∧ (v = .readPort ∨ v = .closing) := by
  cases h with
  | prompt hv hn =>
      refine ⟨hn.toClient, ?_⟩
      cases hv with
      | closing hw => exact .inr rfl
      | readPort hw hclosed => exact .inl rfl
  | answered hc => cases hc
  | listing hc => cases hc
  | listed hc => cases hc
  | heard hc => cases hc
  | getting hc => cases hc
  | gotten hc =>
      generalize n.conn.toClient = down at hc
      cases hc
  | putting hc => cases hc

end Matching

end EcFtp.Ftp
