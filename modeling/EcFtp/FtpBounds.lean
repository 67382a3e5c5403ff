/-
How long a session can take.  What the two still have to do for a command, together
with what is on its way, gets less with each step that does not send a block of a
listing or a file; so a session goes on forever only if blocks are sent forever.
-/
import EcFtp.FtpSessions
import Mathlib.Algebra.Order.Group.Nat

namespace EcFtp.Ftp

/-- The work that lies ahead of the client in a command. -/
@[simp] def ClientPc.work : ClientPc → Nat
  | .prompt => 1
  | .quitReply => 3
  | .accepting _ => 56
  | .dispatch _ => 55
  | .skipReply => 3
  | .lsSelect _ data => if data then 3 else 5
  | .lsDrain _ => 4
  | .dhWrite _ i => 23 + 3 * (3 - i) + 3
  | .dhRead _ i => 23 + 3 * (3 - i) + 1
  | .getOpen => 5
  | .getRecv => 4
  | .getReply => 3
  | .putPrepare => 23
  | .putSkipReply => 3
  | .putOpen => 6
  | .putSelect _ => 5
  | .putSend _ => 4
  | .putReply => 3
  | .closing => 2
  | .finished => 0
  | .dead => 0

/-- The work that lies ahead of the server. -/
@[simp] def ServerPc.work : ServerPc → Nat
  | .readPort => 1
  | .connecting => 4
  | .readCommand => 3
  | .listing _ => 6
  | .listSend => 5
  | .dhRead _ _ i => 6 + 4 * (3 - i) + 3
  | .dhWrite _ _ i => 6 + 4 * (3 - i) + 2
  | .retrFind _ => 6
  | .retrSend => 5
  | .storOpen _ => 6
  | .storRead => 5
  | .replying _ => 4
  | .closing => 2
  | .exited => 0
  | .dead => 0

/-- The work that lies in what is on its way, and in what is still to be entered: a
message makes the server work, a command both. -/
def Net.work (n : Net) : Nat :=
  75 * n.commands.length + 19 * n.toServer.length + n.toClient.length +
    n.conn.toServer.length + n.conn.toClient.length

def State.work (s : State) : Nat := s.client.work + s.server.work + s.net.work

/-- A step that sends a block: of the file in `do_put` or `do_retr`, or of the listing
in `do_list`. -/
inductive BlockStep : State → State → Prop
  | put {control : Bool} {v : ServerPc} {n : Net} :
      BlockStep ⟨.putSend control, v, n⟩ ⟨.putSend control, v,
        n.withConn { n.conn with toServer := n.conn.toServer ++ [.block] }⟩
  | list {c : ClientPc} {n : Net} :
      BlockStep ⟨c, .listSend, n⟩ ⟨c, .listSend,
        n.withConn { n.conn with toClient := n.conn.toClient ++ [.block] }⟩
  | retr {c : ClientPc} {n : Net} :
      BlockStep ⟨c, .retrSend, n⟩ ⟨c, .retrSend,
        n.withConn { n.conn with toClient := n.conn.toClient ++ [.block] }⟩

section Steps

variable {f : Option Fault} {c c' : ClientPc} {v v' : ServerPc} {n n' : Net}
  {s s' : State}

theorem BlockStep.step (h : BlockStep s s') : Step none s s' := by
  cases h with
  | put => exact .client .putBlock
  | list => exact .server .listBlock
  | retr => exact .server .retrBlock

/-- A block is a little more to be read. -/
theorem BlockStep.work (h : BlockStep s s') : s'.work = s.work + 1 := by
  cases h <;> simp only [State.work, Net.work, Net.withConn, List.length_append,
    List.length_singleton]
  all_goals omega

theorem work_clientAfterRound (d : Direction) (i : Nat) :
    (ClientPc.afterRound d i).work < (ClientPc.dhRead d i).work := by
  unfold ClientPc.afterRound
  split
  · simp only [ClientPc.work]
    omega
  · cases d <;> simp only [ClientPc.work] <;> omega

theorem work_serverAfterRound (d : Direction) (name : Option String) (i : Nat) :
    (ServerPc.afterRound d name i).work + 1 < (ServerPc.dhWrite d name i).work := by
  unfold ServerPc.afterRound
  split
  · simp only [ServerPc.work]
    omega
  · cases d <;> simp only [ServerPc.work] <;> omega

/-- A step of the client leaves less to do, unless it sends a block. -/
theorem ClientStep.work (h : ClientStep f c n c' n') :
    c'.work + n'.work < c.work + n.work ∨ BlockStep ⟨c, v, n⟩ ⟨c', v, n'⟩ := by
  cases h with
  | putBlock => exact .inr .put
  | @dhRead _ d i item rest hitem =>
      have hround := work_clientAfterRound d i
      simp only [Net.work, Net.withConn, hitem, List.length_cons]
      exact .inl (by omega)
  | @dhEnd _ d i hempty hclosed =>
      exact .inl (Nat.add_lt_add_right (work_clientAfterRound d i) _)
  | @lsRefused _ data r rest hmsg hcode =>
      left
      cases data
      · simp [Net.work, Net.hear, hmsg]
        omega
      · simp [Net.work, Net.hear, hmsg]
        omega
  | @lsControl _ data r rest hmsg hcode =>
      left
      cases data
      · simp [Net.work, Net.hear, hmsg]
      · simp [Net.work, Net.hear, hmsg]
        omega
  | @lsEnd _ control hempty hclosed =>
      cases control <;> simp
  | @putSent _ control =>
      cases control <;> simp [Net.work, Net.withConn]
  | _ =>
      -- what is read was counted, and what is sent had been counted as work ahead
      simp_all [Net.work, Net.enter, Net.send, Net.hear, Net.withConn]
      try omega

/-- So does a step of the server. -/
theorem ServerStep.work (h : ServerStep f v n v' n') :
    v'.work + n'.work < v.work + n.work ∨ BlockStep ⟨c, v, n⟩ ⟨c, v', n'⟩ := by
  cases h with
  | listBlock => exact .inr .list
  | retrBlock => exact .inr .retr
  | @dhWrite _ d name i =>
      have hround := work_serverAfterRound d name i
      simp only [Net.work, Net.withConn, List.length_append, List.length_singleton]
      exact .inl (by omega)
  | _ =>
      simp_all [Net.work, Net.beginCommand, Net.reply, Net.take, Net.withConn]
      try omega

theorem ClientPc.AtEof.work (h : c.AtEof c') : c'.work < c.work := by
  cases h with
  | lsSelect data => cases data <;> simp
  | _ => simp

theorem ClientPc.Writes.work {control : Bool} (h : c.Writes control) : 0 < c.work := by
  cases h <;> simp

theorem ServerPc.Writes.work {control : Bool} (h : v.Writes control) : 0 < v.work := by
  cases h <;> simp

/-- And what happens at the ends of the connections. -/
theorem Step.work (h : Step f s s') : s'.work < s.work ∨ BlockStep s s' := by
  cases h with
  | client h =>
      rcases h.work (v := s.server) with hless | hblock
      · exact .inl (by simp only [State.work]; omega)
      · exact .inr hblock
  | server h =>
      rcases h.work (c := s.client) with hless | hblock
      · exact .inl (by simp only [State.work]; omega)
      · exact .inr hblock
  | connect hserver hlistens =>
      left
      simp only [State.work, hserver, ServerPc.work, Net.work,
        Net.withConn, DataConn.fresh, List.length_nil]
      omega
  | refused hserver hgone =>
      left
      simp only [State.work, hserver, ServerPc.work]
      omega
  | clientEof hgone hempty heof =>
      have hless := heof.work
      left
      simp only [State.work, Net.work, Net.withConn]
      omega
  | serverEof hgone hempty hreads =>
      left
      rcases hreads with hreads | hreads
      · simp [State.work, Net.work, Net.withConn, hreads]
      · simp [State.work, Net.work, Net.withConn, hreads]
  | clientKilled hwrites hclosed =>
      have hpos := hwrites.work
      have hdead : ClientPc.dead.work = 0 := rfl
      left
      simp only [State.work, hdead, Net.work, Net.withConn]
      omega
  | serverKilled hwrites hclosed =>
      have hpos := hwrites.work
      have hdead : ServerPc.dead.work = 0 := rfl
      left
      simp only [State.work, hdead, Net.work, Net.withConn]
      omega

/-- Where there is a step, there is one that leaves less to do. -/
theorem Step.exists_less (h : Step none s s') :
    ∃ s'', Step none s s'' ∧ s''.work < s.work := by
  rcases h.work with hless | hblock
  · exact ⟨s', h, hless⟩
  · cases hblock with
    | @put control v n =>
        refine ⟨_, .client .putSent, ?_⟩
        cases control <;> simp [State.work, Net.work, Net.withConn]
    | @list c n => exact ⟨_, .server .listSent, by simp [State.work]⟩
    | @retr c n => exact ⟨_, .server .retrSent, by simp [State.work]⟩

end Steps

/-- A run with the number of its steps that send a block, and of the others. -/
inductive Counted (s₀ : State) : State → Nat → Nat → Prop
  | refl : Counted s₀ s₀ 0 0
  | block {s s' : State} {blocks others : Nat} (h : Counted s₀ s blocks others)
      (hstep : BlockStep s s') : Counted s₀ s' (blocks + 1) others
  | other {s s' : State} {f : Option Fault} {blocks others : Nat}
      (h : Counted s₀ s blocks others) (hstep : Step f s s') (hother : ¬ BlockStep s s') :
      Counted s₀ s' blocks (others + 1)

section Runs

variable {s₀ s s' : State} {blocks others : Nat}

/-- What has been done and what is left to do is paid for at the start, and by the
blocks. -/
theorem Counted.work (h : Counted s₀ s blocks others) :
    others + s.work ≤ s₀.work + blocks := by
  induction h with
  | refl => omega
  | block h hstep ih =>
      rw [hstep.work]
      omega
  | other h hstep hother ih =>
      rcases hstep.work with hless | hblock
      · omega
      · exact absurd hblock hother

/-- In every run of a session, whatever goes wrong in it, there are at most 75 steps for
each of its commands, two more, and one for each block that was sent. -/
theorem session_bounded (commands : List Command) (s : State) (blocks others : Nat)
    (h : Counted (start commands) s blocks others) :
    others ≤ 75 * commands.length + 2 + blocks := by
  have hwork := h.work
  have hstart : (start commands).work = 75 * commands.length + 2 := by
    simp only [start, State.work, ClientPc.work, ServerPc.work, Net.work, List.length_nil]
    omega
  omega

theorem Runs.counted {ok : Option Fault → Prop} (h : Runs ok s₀ s) :
    ∃ blocks others, Counted s₀ s blocks others := by
  induction h with
  | refl => exact ⟨0, 0, .refl⟩
  | @tail s s' _ hstep ih =>
      obtain ⟨f, _, hstep⟩ := hstep
      obtain ⟨blocks, others, hs⟩ := ih
      by_cases hblock : BlockStep s s'
      · exact ⟨_, _, hs.block hblock⟩
      · exact ⟨_, _, hs.other hstep hblock⟩

/-- A session of one command, as far as the key. -/
theorem session_bounded_put : ∃ s blocks others,
    Counted (start [.put (some "f")]) s blocks others ∧ s.client = .putPrepare ∧
      others ≤ 75 * 1 + 2 + blocks := by
  have hagreed := @runs_transfer (fun f => f = none) rfl .put "f" []
  obtain ⟨blocks, others, hcounted⟩ := hagreed.counted
  exact ⟨_, blocks, others, hcounted, rfl,
    session_bounded [.put (some "f")] _ _ _ hcounted⟩

end Runs

section Finish

variable {f : Option Fault} {c c' : ClientPc} {n n' : Net} {s s' : State}

/-- The user has still to enter `quit`, or has entered it. -/
def Quits (c : ClientPc) (n : Net) : Prop :=
  .quit ∈ n.commands ∨ c = .quitReply ∨ c = .finished

theorem Quits.clientStep (h : Quits c n) (hstep : ClientStep f c n c' n') :
    Quits c' n' := by
  cases hstep with
  | quit hcmds => exact .inr (.inl rfl)
  | quitReply hmsg => exact .inr (.inr rfl)
  | port hcmds hcmd =>
      left
      rcases h with hmem | hpc | hpc
      · rw [hcmds] at hmem
        exact (List.mem_cons.mp hmem).resolve_left (Ne.symm hcmd)
      · cases hpc
      · cases hpc
  | _ =>
      left
      rcases h with hmem | hpc | hpc
      · exact hmem
      · cases hpc
      · cases hpc

theorem ServerStep.commands {v v' : ServerPc} (h : ServerStep f v n v' n') :
    n'.commands = n.commands := by
  cases h <;> rfl

/-- Within the phases nobody is killed. -/
theorem Quits.step {late : Prop} (hphase : Phase late s.client s.server s.net)
    (h : Quits s.client s.net) (hstep : Step f s s') : Quits s'.client s'.net := by
  cases hstep with
  | client hstep => exact h.clientStep hstep
  | server hstep => exact h.imp (fun hmem => hstep.commands ▸ hmem) id
  | connect hserver hlistens => exact h
  | refused hserver hgone => exact h
  | clientEof hgone hempty heof =>
      rcases hphase.serverGone hgone with ⟨_, hreply⟩ | hfinished
      · exact absurd hempty hreply
      · rw [hfinished] at heof
        cases heof
  | serverEof hgone hempty hreads => exact h
  | clientKilled hwrites hclosed => exact absurd hclosed (hphase.clientWrites hwrites)
  | serverKilled hwrites hclosed => exact h

/-- As long as nothing goes wrong, a session can be finished from wherever it is: with
both sides gone if the user quits, else with the client back at its prompt. -/
theorem session_finishes (commands : List Command) (s : State)
    (h : Runs (fun f => f = none) (start commands) s) :
    ∃ s', Runs (fun f => f = none) s s' ∧ s'.Final ∧
      (.quit ∈ commands → s'.client = .finished ∧ s'.server = .exited) := by
  induction hwork : s.work using Nat.strong_induction_on generalizing s with
  | _ work ih =>
      have hphase : Phase False s.client s.server s.net := h.phase fun f hf => .inl hf
      rcases hphase.progress with hfinal | ⟨s', hstep⟩
      · refine ⟨s, .refl, hfinal, fun hquit => ?_⟩
        have hquits : Quits s.client s.net := by
          clear ih hwork hphase hfinal
          induction h with
          | refl => exact .inl hquit
          | tail hruns hstep hquits =>
              obtain ⟨f, hf, hstep⟩ := hstep
              have hphase : Phase False _ _ _ := Runs.phase (fun f hf => .inl hf) hruns
              exact hquits.step hphase hstep
        rcases hfinal with hdone | ⟨hprompt, hnil⟩
        · exact hdone
        · rcases hquits with hmem | hpc | hpc
          · rw [hnil] at hmem
            cases hmem
          · cases hprompt.symm.trans hpc
          · cases hprompt.symm.trans hpc
      · obtain ⟨s'', hstep, hless⟩ := hstep.exists_less
        obtain ⟨t, hruns, hfinal⟩ := ih s''.work (hwork ▸ hless) s''
          (h.tail ⟨none, rfl, hstep⟩) rfl
        exact ⟨t, .head ⟨none, rfl, hstep⟩ hruns, hfinal⟩

/-- From where the key is agreed on. -/
theorem session_finishes_put :
    ∃ s, Runs (fun f => f = none) (start [.put (some "f"), .quit]) s ∧
    s.client = .putPrepare ∧ ∃ s', Runs (fun f => f = none) s s' ∧ s'.Final ∧
      (.quit ∈ [.put (some "f"), Command.quit] → s'.client = .finished ∧
        s'.server = .exited) := by
  have hagreed := @runs_transfer (fun f => f = none) rfl .put "f" [.quit]
  exact ⟨_, hagreed, rfl, session_finishes [.put (some "f"), .quit] _ hagreed⟩

end Finish

end EcFtp.Ftp
