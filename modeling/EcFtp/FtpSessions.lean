/-
Whole sessions: without the faults they do not get stuck and replies match
commands, and with any one of the faults both can fail.
-/
import EcFtp.FtpRuns

namespace EcFtp.Ftp

section Scripts

variable {ok : Option Fault → Prop} {f : Option Fault} {s₀ : State}
  {c c' : ClientPc} {v v' : ServerPc} {n n' : Net}

theorem Runs.client (h : Runs ok s₀ ⟨c, v, n⟩) (hf : ok f)
    (hstep : ClientStep f c n c' n') : Runs ok s₀ ⟨c', v, n'⟩ :=
  h.tail ⟨f, hf, .client hstep⟩

theorem Runs.server (h : Runs ok s₀ ⟨c, v, n⟩) (hf : ok f)
    (hstep : ServerStep f v n v' n') : Runs ok s₀ ⟨c, v', n'⟩ :=
  h.tail ⟨f, hf, .server hstep⟩

/-- The state in which both sides are at a command the user has entered. -/
def Net.begun (n : Net) (rest : List Command) : Net where
  commands := rest
  entered := n.entered + 1
  handled := n.handled + 1
  toServer := []
  toClient := n.toClient
  conn := link [] [] false false
  heard := n.heard
  ports := n.ports ++ [⟨.port, none⟩]

theorem Runs.serverKilled (h : Runs ok s₀ ⟨c, v, n⟩) (hok : ok none)
    (hwrites : v.Writes false) (hclosed : n.conn.clientClosed = true) :
    Runs ok s₀ ⟨c, .dead, n.withConn { n.conn with serverClosed := true }⟩ :=
  h.tail ⟨none, hok, .serverKilled hwrites hclosed⟩

theorem Runs.connect (h : Runs ok s₀ ⟨c, .connecting, n⟩) (hok : ok none)
    (hc : ¬ c.Gone) : Runs ok s₀ ⟨c, .readCommand, n.withConn .fresh⟩ :=
  h.tail ⟨none, hok, .connect rfl hc⟩

/-- A command is entered, and its data connection set up. -/
theorem Runs.begins (hok : ok none) {cmd : Command} {rest : List Command}
    (h : Runs ok s₀ ⟨.prompt, .readPort, n⟩) (hcmds : n.commands = cmd :: rest)
    (hcmd : cmd ≠ .quit) (hup : n.toServer = []) :
    Runs ok s₀ ⟨.dispatch cmd, .readCommand, n.begun rest⟩ := by
  obtain ⟨commands, entered, handled, up, down, conn, heard, ports⟩ := n
  obtain rfl : up = [] := hup
  have hported := h.client hok (.port hcmds hcmd)
  have hread := hported.server hok (.port rfl rfl)
  have hconnected := hread.connect hok (by simp [ClientPc.Gone])
  exact hconnected.client hok (.accept rfl)

/-- One round of the key agreement leaves nothing on its way. -/
theorem Runs.round (hok : ok none) {d : Direction} {name : Option String} {i : Nat}
    (h : Runs ok s₀ ⟨.dhWrite d i, .dhRead d name i, n⟩)
    (hconn : n.conn = link [] [] false false) :
    Runs ok s₀ ⟨.afterRound d i, .afterRound d name i, n⟩ := by
  obtain ⟨commands, entered, handled, up, down, conn, heard, ports⟩ := n
  obtain rfl : conn = link [] [] false false := hconn
  have hsent := h.client hok .dhWrite
  have hheard := hsent.server hok (.dhRead rfl)
  have hanswered := hheard.server hok .dhWrite
  exact hanswered.client hok (.dhRead rfl)

/-- The command that begins a transfer. -/
def transfer (name : String) : Direction → Command
  | .get => .get (some name)
  | .put => .put (some name)

/-- The two agree on a key. -/
theorem Runs.agrees (hok : ok none) {d : Direction} {name : String}
    (h : Runs ok s₀ ⟨.dispatch (transfer name d), .readCommand, n⟩)
    (hup : n.toServer = []) (hconn : n.conn = link [] [] false false) :
    Runs ok s₀ ⟨.afterRound d 3, .afterRound d (some name) 3, n⟩ := by
  have hasked : Runs ok s₀ ⟨.dhWrite d 0, .dhRead d (some name) 0, n⟩ := by
    obtain ⟨commands, entered, handled, up, down, conn, heard, ports⟩ := n
    obtain rfl : up = [] := hup
    cases d with
    | get =>
        have hsent := h.client hok .retr
        have hread := hsent.server hok (.retr rfl rfl)
        exact hread
    | put =>
        have hsent := h.client hok .stor
        have hread := hsent.server hok (.stor rfl rfl)
        exact hread
  have hone := hasked.round hok hconn
  have htwo := hone.round hok hconn
  have hthree := htwo.round hok hconn
  exact hthree.round hok hconn

/-- A session whose first command is a transfer, once the two agree on a key. -/
theorem runs_transfer (hok : ok none) (d : Direction) (name : String)
    (rest : List Command) :
    Runs ok (start (transfer name d :: rest))
      ⟨.afterRound d 3, .afterRound d (some name) 3,
        (start (transfer name d :: rest)).net.begun rest⟩ := by
  have hcmd : transfer name d ≠ .quit := by
    cases d with
    | get => exact fun h => nomatch h
    | put => exact fun h => nomatch h
  have hbegun : Runs ok (start (transfer name d :: rest))
      ⟨.dispatch (transfer name d), .readCommand,
        (start (transfer name d :: rest)).net.begun rest⟩ :=
    Runs.begins hok .refl rfl hcmd rfl
  exact hbegun.agrees hok rfl rfl

end Scripts

section Stuck

variable {n : Net}

/-- Neither at its end nor able to take a step. -/
def State.Stuck (s : State) : Prop := ¬ s.Final ∧ ¬ ∃ f s', Step f s s'

/-- The client waits for the reply to its SKIP, the server for the file. -/
theorem stuck_putSkipReply (hreply : n.toClient = [])
    (hdata : n.conn.toServer = []) (hopen : n.conn.clientClosed = false) :
    State.Stuck ⟨.putSkipReply, .storRead, n⟩ := by
  refine ⟨by simp [State.Final], ?_⟩
  rintro ⟨f, s', hstep⟩
  cases hstep with
  | client h =>
      cases h with
      | putSkipReply hmsg => cases hreply.symm.trans hmsg
  | server h =>
      cases h with
      | storBlock hitem => cases hdata.symm.trans hitem
      | storEnd hempty hclosed => cases hopen.symm.trans hclosed
  | connect h => cases h
  | refused h => cases h
  | clientEof hgone => simp [ServerPc.Gone] at hgone
  | serverEof hgone => simp [ClientPc.Gone] at hgone
  | clientKilled h => cases h
  | serverKilled h => cases h

/-- The client waits for the reply to its file, the server for a command. -/
theorem stuck_putReply (hreply : n.toClient = []) (hcommand : n.toServer = []) :
    State.Stuck ⟨.putReply, .readPort, n⟩ := by
  refine ⟨by simp [State.Final], ?_⟩
  rintro ⟨f, s', hstep⟩
  cases hstep with
  | client h =>
      cases h with
      | putReply hmsg => cases hreply.symm.trans hmsg
  | server h =>
      cases h with
      | quit hmsg => cases hcommand.symm.trans hmsg
      | port hmsg => cases hcommand.symm.trans hmsg
      | garbage hmsg => cases hcommand.symm.trans hmsg
  | connect h => cases h
  | refused h => cases h
  | clientEof hgone => simp [ServerPc.Gone] at hgone
  | serverEof hgone => simp [ClientPc.Gone] at hgone
  | clientKilled h => cases h
  | serverKilled h => cases h

/-- The client waits for a data connection, and the server child is gone. -/
theorem stuck_accepting {cmd : Command} (hw : n.conn.waiting = false) :
    State.Stuck ⟨.accepting cmd, .dead, n⟩ := by
  refine ⟨by simp [State.Final], ?_⟩
  rintro ⟨f, s', hstep⟩
  cases hstep with
  | client h =>
      cases h with
      | accept hwaiting => cases hw.symm.trans hwaiting
  | server h => cases h
  | connect h => cases h
  | refused h => cases h
  | clientEof hgone hempty heof => cases heof
  | serverEof hgone => simp [ClientPc.Gone] at hgone
  | clientKilled h => cases h
  | serverKilled h => cases h

end Stuck

section Faults

variable {ok : Option Fault → Prop}

/-- `prepare_file` fails in `do_put`: the client announces with SKIP that there is
no file, and the server waits for the file. -/
theorem stuck_of_putPrepare (hok : ok none) (hfault : ok (some .putPrepare)) :
    ∃ s, Runs ok (start [.put (some "f")]) s ∧ s.client = .putSkipReply ∧
      s.server = .storRead ∧ s.Stuck := by
  have hagreed := runs_transfer hok .put "f" []
  have hskipped := hagreed.client hfault .putPrepareFails
  have hreads := hskipped.server hok .storOpen
  exact ⟨_, hreads, rfl, rfl, stuck_putSkipReply rfl rfl rfl⟩

/-- `do_stor` returns without a reply: both sides wait on the control
connection. -/
theorem stuck_of_storOpen (hok : ok none) (hfault : ok (some .storOpen)) :
    ∃ s, Runs ok (start [.put (some "f")]) s ∧ s.Stuck := by
  have hagreed := runs_transfer hok .put "f" []
  have hprepared := hagreed.client hok .putPrepare
  have hopened := hprepared.client hok .putOpen
  have hselected := hopened.client hok .putData
  have hsent := hselected.client hok .putSent
  have hfailed := hsent.server hfault .storOpenFails
  have hclosed := hfailed.server hok .close
  exact ⟨_, hclosed, stuck_putReply rfl rfl⟩

/-- `do_get` returns while the server is sending: the server child is killed, and
nobody connects for the next command. -/
theorem stuck_of_getOpen (hok : ok none) (hfault : ok (some .getOpen)) :
    ∃ s, Runs ok (start [.get (some "f"), .ls none]) s ∧ s.Stuck := by
  have hagreed := runs_transfer hok .get "f" [.ls none]
  have hfailed := hagreed.client hfault .getOpenFails
  have hprompt := hfailed.client hok .close
  have hsends := hprompt.server hok .retrOpen
  have hkilled := hsends.serverKilled hok .retrSend rfl
  have hported := hkilled.client hok (.port rfl (by decide))
  exact ⟨_, hported, stuck_accepting rfl⟩

/-- `do_put` returns without reading the reply, and from then on the client reads
the reply to the command before: when that one failed, `do_ls` closes the data
connection while the server is sending. -/
theorem stuck_of_putOpen (hok : ok none) (hfault : ok (some .putOpen)) :
    ∃ s, Runs ok
        (start [.put (some "f"), .ls (some "d"), .ls none, .ls none]) s ∧
      s.Stuck := by
  have hagreed := runs_transfer hok .put "f" [.ls (some "d"), .ls none, .ls none]
  -- the reply to STOR stays unread
  have hprepared := hagreed.client hok .putPrepare
  have hfailed := hprepared.client hfault .putOpenFails
  have hprompt := hfailed.client hok .close
  have hreads := hprompt.server hok .storOpen
  have hstored := hreads.server hok (.storEnd rfl rfl)
  have hreplied := hstored.server hok .reply
  have hclosed := hreplied.server hok .close
  -- it is taken for the reply to the first LIST, which fails
  have hbegun := hclosed.begins hok rfl (by decide) rfl
  have hlist := hbegun.client hok .list
  have hlisting := hlist.server hok (.list rfl rfl)
  have hnone := hlisting.server hok .listNone
  have hreplied' := hnone.server hok .reply
  have hclosed' := hreplied'.server hok .close
  have hheard := hclosed'.client hok (.lsControl rfl rfl)
  have hready := hheard.client hok (.lsData (.inr rfl))
  have hended := hready.client hok (.lsEnd rfl rfl)
  have hprompt' := hended.client hok .close
  -- whose reply is taken for the one to the second
  have hbegun' := hprompt'.begins hok rfl (by decide) rfl
  have hlist' := hbegun'.client hok .list
  have hlisting' := hlist'.server hok (.list rfl rfl)
  have hrefused := hlisting'.client hok (.lsRefused rfl (by decide))
  have hprompt'' := hrefused.client hok .close
  have hsends := hprompt''.server hok .listOpen
  have hkilled := hsends.serverKilled hok .listSend rfl
  have hported := hkilled.client hok (.port rfl (by decide))
  exact ⟨_, hported, stuck_accepting rfl⟩

/-- Each of the faults by itself can leave a session stuck. -/
theorem stuck_of_fault (fault : Fault) :
    ∃ commands s, Runs (fun f => f = none ∨ f = some fault) (start commands) s ∧
      s.Stuck := by
  cases fault with
  | getOpen => exact ⟨_, stuck_of_getOpen (.inl rfl) (.inr rfl)⟩
  | putPrepare =>
      obtain ⟨s, hrun, _, _, hstuck⟩ :=
        @stuck_of_putPrepare (fun f => f = none ∨ f = some .putPrepare)
          (.inl rfl) (.inr rfl)
      exact ⟨_, s, hrun, hstuck⟩
  | putOpen => exact ⟨_, stuck_of_putOpen (.inl rfl) (.inr rfl)⟩
  | storOpen => exact ⟨_, stuck_of_storOpen (.inl rfl) (.inr rfl)⟩

end Faults

/-- A session none of whose steps is a fault does not get stuck. -/
theorem session_progress (commands : List Command) (s : State)
    (h : Runs (fun f => f = none) (start commands) s) :
    s.Final ∨ ∃ f s', Step f s s' := by
  have hphase : Phase False s.client s.server s.net :=
    h.phase fun f hf => .inl hf
  rcases hphase.progress with hfinal | ⟨s', hstep⟩
  · exact .inl hfinal
  · exact .inr ⟨none, s', hstep⟩

/-- Such a session, as far as the first key. -/
theorem session_progress_put : ∃ s,
    Runs (fun f => f = none) (start [.put (some "f")]) s ∧
      s.client = .putPrepare ∧ (s.Final ∨ ∃ f s', Step f s s') := by
  have hagreed := @runs_transfer (fun f => f = none) rfl .put "f" []
  exact ⟨_, hagreed, rfl, session_progress _ _ hagreed⟩

/-- A file that cannot be prepared: the client waits on the control connection,
the server on the data connection. -/
theorem session_stuck_put : ∃ s, Runs (fun _ => True) (start [.put (some "f")]) s ∧
    s.client = .putSkipReply ∧ s.server = .storRead ∧
      ¬ (s.Final ∨ ∃ f s', Step f s s') := by
  obtain ⟨s, hrun, hclient, hserver, hfinal, hstep⟩ :=
    @stuck_of_putPrepare (fun _ => True) trivial trivial
  exact ⟨s, hrun, hclient, hserver, fun h => h.elim hfinal hstep⟩

/-- In a session in which `do_get` and `do_stor` receive, and `do_put` sends,
replies match commands. -/
theorem session_matched (commands : List Command) (s : State)
    (h : Runs (fun f => f = none ∨ f = some .putPrepare) (start commands) s) :
    s.Matched := by
  have hphase : Phase True s.client s.server s.net :=
    h.phase fun f hf => hf.imp id fun hput => ⟨hput, trivial⟩
  obtain ⟨up, down, ahead, hcontrol, _, _⟩ := hphase.control
  refine ⟨hcontrol.heard, fun hprompt => ?_, hcontrol.ports⟩
  rw [hprompt] at hphase
  exact hphase.at_prompt

/-- A session of two commands, one of them without its filename. -/
theorem session_matched_skip : ∃ s,
    Runs (fun f => f = none ∨ f = some .putPrepare) (start [.get none, .quit]) s ∧
      s.net.heard = [⟨1, 1, .noSuchFilename⟩, ⟨2, 2, .goodbye⟩] ∧ s.Matched := by
  have hok : (none : Option Fault) = none ∨ none = some Fault.putPrepare := .inl rfl
  have hbegun : Runs (fun f => f = none ∨ f = some .putPrepare)
      (start [.get none, .quit]) ⟨.dispatch (.get none), .readCommand,
        (start [.get none, .quit]).net.begun [.quit]⟩ :=
    Runs.begins hok .refl rfl (by decide) rfl
  have hskipped := hbegun.client hok (.skip (.inl rfl))
  have hskips := hskipped.server hok (.skip rfl rfl)
  have hreplied := hskips.server hok .reply
  have hclosed := hreplied.server hok .close
  have hheard := hclosed.client hok (.skipReply rfl)
  have hprompt := hheard.client hok .close
  have hquit := hprompt.client hok (.quit rfl)
  have hgoodbye := hquit.server hok (.quit rfl rfl)
  have hfinished := hgoodbye.client hok (.quitReply rfl)
  exact ⟨_, hfinished, rfl, session_matched _ _ hfinished⟩

/-- `do_get` and `do_put` can leave a reply unread; and where both `do_put` and
`do_stor` return early, the server takes SKIP for PORT. -/
theorem session_unmatched :
    (∃ s, Runs (fun f => f = none ∨ f = some .getOpen)
      (start [.get (some "f")]) s ∧ ¬ s.Matched) ∧
    (∃ s, Runs (fun f => f = none ∨ f = some .putOpen)
      (start [.put (some "f")]) s ∧ ¬ s.Matched) ∧
    ∃ s, Runs (fun f => f = none ∨ f = some .putPrepare ∨ f = some .storOpen)
      (start [.put (some "f")]) s ∧ ¬ s.Matched := by
  refine ⟨?_, ?_, ?_⟩
  · have hagreed := @runs_transfer (fun f => f = none ∨ f = some .getOpen)
      (.inl rfl) .get "f" []
    have hfailed := hagreed.client (.inr rfl) .getOpenFails
    have hprompt := hfailed.client (.inl rfl) .close
    have hnone := hprompt.server (.inl rfl) .retrNone
    have hreplied := hnone.server (.inl rfl) .reply
    refine ⟨_, hreplied, fun hmatched => ?_⟩
    cases (hmatched.prompt rfl).1
  · have hagreed := @runs_transfer (fun f => f = none ∨ f = some .putOpen)
      (.inl rfl) .put "f" []
    have hprepared := hagreed.client (.inl rfl) .putPrepare
    have hfailed := hprepared.client (.inr rfl) .putOpenFails
    have hprompt := hfailed.client (.inl rfl) .close
    have hreads := hprompt.server (.inl rfl) .storOpen
    have hstored := hreads.server (.inl rfl) (.storEnd rfl rfl)
    have hreplied := hstored.server (.inl rfl) .reply
    refine ⟨_, hreplied, fun hmatched => ?_⟩
    cases (hmatched.prompt rfl).1
  · have hagreed := @runs_transfer
      (fun f => f = none ∨ f = some .putPrepare ∨ f = some .storOpen) (.inl rfl)
      .put "f" []
    have hskipped := hagreed.client (.inr (.inl rfl)) .putPrepareFails
    have hfailed := hskipped.server (.inr (.inr rfl)) .storOpenFails
    have hclosed := hfailed.server (.inl rfl) .close
    have hgarbage := hclosed.server (.inl rfl)
      (.garbage rfl (by decide) (by decide))
    refine ⟨_, hgarbage, fun hmatched => ?_⟩
    rcases hmatched.ports ⟨.skip, none⟩ (by decide) with hport | hquit
    · cases hport
    · cases hquit

end EcFtp.Ftp
