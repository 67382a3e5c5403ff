/-
The phases of a session in which no side returns without the message the other
one counts on.  Within a command the two are never more than one message apart
on the control connection; behind a reply the server may still have its end of
the data connection to close while the client is on its way to the next command.
-/
import EcFtp.FtpMachine

namespace EcFtp.Ftp

/-- What is on its way on the control connection, replies tagged with the command
the server is handling, and how many commands the client is ahead; and what the
two have heard so far. -/
structure Control (n : Net) (up : List Message) (down : List Reply) (ahead : Nat) :
    Prop where
  toServer : n.toServer = up
  toClient : n.toClient = down.map (Prod.mk n.handled)
  entered : n.entered = n.handled + ahead
  heard : ∀ h ∈ n.heard, h.server = h.client
  ports : ∀ m ∈ n.ports, m.verb = .port ∨ m.verb = .quit

namespace Control

variable {n : Net} {up : List Message} {down : List Reply} {ahead : Nat}
  {m m' : Message} {r : Reply} {tagged : Nat × Reply}
  {rest : List (Nat × Reply)} {more : List Message}

theorem withConn (h : Control n up down ahead) (conn : DataConn) :
    Control (n.withConn conn) up down ahead :=
  ⟨h.toServer, h.toClient, h.entered, h.heard, h.ports⟩

theorem enter (h : Control n [] down 0) (rest : List Command) (m : Message) :
    Control ((n.enter rest).send m) [m] down 1 where
  toServer := congrArg (· ++ [m]) h.toServer
  toClient := h.toClient
  entered := congrArg (· + 1) h.entered
  heard := h.heard
  ports := h.ports

theorem send (h : Control n [] down ahead) (m : Message) :
    Control (n.send m) [m] down ahead :=
  ⟨congrArg (· ++ [m]) h.toServer, h.toClient, h.entered, h.heard, h.ports⟩

theorem reply (h : Control n up [] ahead) (r : Reply) :
    Control (n.reply r) up [r] ahead where
  toServer := h.toServer
  toClient := congrArg (· ++ [(n.handled, r)]) h.toClient
  entered := h.entered
  heard := h.heard
  ports := h.ports

/-- The one reply on its way is read. -/
theorem hear (h : Control n up [r] 0) (hmsg : n.toClient = tagged :: rest) :
    tagged.2 = r ∧ Control (n.hear tagged rest) up [] 0 := by
  have hone := hmsg.symm.trans h.toClient
  obtain ⟨rfl, rfl⟩ : tagged = (n.handled, r) ∧ rest = [] := by
    simpa using hone
  refine ⟨rfl, h.toServer, rfl, h.entered, fun heard hmem => ?_, h.ports⟩
  rcases List.mem_append.mp hmem with hold | hnew
  · exact h.heard heard hold
  · rw [List.mem_singleton.mp hnew]
    exact h.entered.symm

theorem not_hear (h : Control n up [] ahead) : n.toClient ≠ tagged :: rest := by
  intro hmsg
  cases hmsg.symm.trans h.toClient

/-- The one message on its way is read. -/
theorem take (h : Control n [m] down ahead) (hmsg : n.toServer = m' :: more) :
    m' = m ∧ Control (n.take more) [] down ahead := by
  obtain ⟨rfl, rfl⟩ : m' = m ∧ more = [] := by
    simpa using hmsg.symm.trans h.toServer
  exact ⟨rfl, rfl, h.toClient, h.entered, h.heard, h.ports⟩

theorem not_take (h : Control n [] down ahead) : n.toServer ≠ m :: more := by
  intro hmsg
  cases hmsg.symm.trans h.toServer

/-- PORT or QUIT is read. -/
theorem beginCommand (h : Control n [m] [] 1) (hmsg : n.toServer = m' :: more)
    (hverb : m.verb = .port ∨ m.verb = .quit) :
    m' = m ∧ Control (n.beginCommand m' more) [] [] 0 := by
  obtain ⟨rfl, rfl⟩ : m' = m ∧ more = [] := by
    simpa using hmsg.symm.trans h.toServer
  refine ⟨rfl, rfl, h.toClient, h.entered, h.heard, fun p hp => ?_⟩
  rcases List.mem_append.mp hp with hold | hnew
  · exact h.ports p hold
  · rw [List.mem_singleton.mp hnew]
    exact hverb

end Control

/-- A data connection that both sides have. -/
def link (up down : List Item) (clientClosed serverClosed : Bool) : DataConn :=
  ⟨up, down, clientClosed, serverClosed, false⟩

/-- The server behind its reply: it closes the data connection, which has been
accepted, and reads on. -/
inductive Behind (n : Net) : ServerPc → Prop
  | closing (hw : n.conn.waiting = false) : Behind n .closing
  | readPort (hw : n.conn.waiting = false) (h : n.conn.serverClosed = true) :
      Behind n .readPort

/-- The client in `do_ls`, having seen neither end. -/
inductive Listens : ClientPc → Prop
  | select : Listens (.lsSelect false false)
  | drain : Listens (.lsDrain false)

/-- The client in `do_ls`, having heard the reply. -/
inductive HasHeard : ClientPc → Prop
  | select : HasHeard (.lsSelect true false)
  | drain : HasHeard (.lsDrain true)

/-- The server in `do_list`, before its reply. -/
inductive Lists : ServerPc → Prop
  | listing (name : Option String) : Lists (.listing name)
  | listSend : Lists .listSend
  | replying (r : Reply) : Lists (.replying r)

/-- The client in `do_get`, from the last value of the key agreement on, and what
is on its way to it. -/
inductive Gets : ClientPc → List Item → Prop
  | last (down : List Item) : Gets (.dhRead .get 3) (.word :: down)
  | opens (down : List Item) : Gets .getOpen down
  | receives (down : List Item) : Gets .getRecv down

/-- The server in `do_retr`, before its reply. -/
inductive Retrieves : ServerPc → Prop
  | find (name : Option String) : Retrieves (.retrFind name)
  | sends : Retrieves .retrSend
  | replying (r : Reply) : Retrieves (.replying r)

/-- The client in `do_put`, from the last value of the key agreement on, and what
is on its way either way. -/
inductive Puts : ClientPc → List Item → List Item → Prop
  | last : Puts (.dhRead .put 3) [] [.word]
  | prepares (up : List Item) : Puts .putPrepare up []
  | opens (up : List Item) : Puts .putOpen up []
  | selects (up : List Item) : Puts (.putSelect false) up []
  | sends (up : List Item) : Puts (.putSend false) up []

/-- The server in `do_stor`, before the end of the file. -/
inductive Stores : ServerPc → Prop
  | opens (name : String) : Stores (.storOpen (some name))
  | receives : Stores .storRead

/-- The client waiting for the reply that ends a command. -/
inductive Awaits : ClientPc → Prop
  | skip : Awaits .skipReply
  | get : Awaits .getReply
  | put : Awaits .putReply

/-- The message that begins a transfer. -/
def request (name : String) : Direction → Message
  | .get => ⟨.retr, some name⟩
  | .put => ⟨.stor, some name⟩

/-- Where a session can be.  `late` says whether `prepare_file` may have failed
in `do_put`. -/
inductive Phase (late : Prop) : ClientPc → ServerPc → Net → Prop
  | closing {v : ServerPc} {n : Net} (hv : Behind n v) (hn : Control n [] [] 0) :
      Phase late .closing v n
  | prompt {v : ServerPc} {n : Net} (hv : Behind n v) (hn : Control n [] [] 0) :
      Phase late .prompt v n
  | quitting {v : ServerPc} {n : Net} (hv : Behind n v)
      (hn : Control n [⟨.quit, none⟩] [] 1) : Phase late .quitReply v n
  | goodbye {n : Net} (hn : Control n [] [.goodbye] 0) :
      Phase late .quitReply .exited n
  | finished {n : Net} (hn : Control n [] [] 0) : Phase late .finished .exited n
  | ported {cmd : Command} {v : ServerPc} {n : Net} (hcmd : cmd ≠ .quit)
      (hv : Behind n v) (hn : Control n [⟨.port, none⟩] [] 1) :
      Phase late (.accepting cmd) v n
  | connecting {cmd : Command} {n : Net} (hcmd : cmd ≠ .quit)
      (hw : n.conn.waiting = false) (hn : Control n [] [] 0) :
      Phase late (.accepting cmd) .connecting n
  | connected {cmd : Command} {n : Net} (hcmd : cmd ≠ .quit)
      (hn : Control n [] [] 0) (hconn : n.conn = .fresh) :
      Phase late (.accepting cmd) .readCommand n
  | accepted {cmd : Command} {n : Net} (hcmd : cmd ≠ .quit)
      (hn : Control n [] [] 0) (hconn : n.conn = link [] [] false false) :
      Phase late (.dispatch cmd) .readCommand n
  | skipSent {n : Net} (hw : n.conn.waiting = false)
      (hn : Control n [⟨.skip, none⟩] [] 0) : Phase late .skipReply .readCommand n
  | skipping {r : Reply} {n : Net} (hw : n.conn.waiting = false)
      (hn : Control n [] [] 0) : Phase late .skipReply (.replying r) n
  | answered {c : ClientPc} {v : ServerPc} {r : Reply} {n : Net} (hc : Awaits c)
      (hv : Behind n v) (hn : Control n [] [r] 0) : Phase late c v n
  | listSent {name : Option String} {n : Net}
      (hn : Control n [⟨.list, name⟩] [] 0)
      (hconn : n.conn = link [] [] false false) :
      Phase late (.lsSelect false false) .readCommand n
  | listing {c : ClientPc} {v : ServerPc} {down : List Item} {n : Net}
      (hc : Listens c) (hv : Lists v) (hn : Control n [] [] 0)
      (hconn : n.conn = link [] down false false) : Phase late c v n
  | listed {c : ClientPc} {v : ServerPc} {r : Reply} {n : Net} (hc : Listens c)
      (hv : Behind n v) (hn : Control n [] [r] 0) : Phase late c v n
  | drained {v : ServerPc} {r : Reply} {n : Net} (hv : Behind n v)
      (hn : Control n [] [r] 0) : Phase late (.lsSelect false true) v n
  | heard {c : ClientPc} {v : ServerPc} {n : Net} (hc : HasHeard c)
      (hv : Behind n v) (hn : Control n [] [] 0) : Phase late c v n
  | asked {d : Direction} {name : String} {n : Net}
      (hn : Control n [request name d] [] 0)
      (hconn : n.conn = link [] [] false false) :
      Phase late (.dhWrite d 0) .readCommand n
  | askedSent {d : Direction} {name : String} {n : Net}
      (hn : Control n [request name d] [] 0)
      (hconn : n.conn = link [.word] [] false false) :
      Phase late (.dhRead d 0) .readCommand n
  | round {d : Direction} {name : String} {i : Nat} {n : Net} (hi : i < 4)
      (hn : Control n [] [] 0) (hconn : n.conn = link [] [] false false) :
      Phase late (.dhWrite d i) (.dhRead d (some name) i) n
  | roundSent {d : Direction} {name : String} {i : Nat} {n : Net} (hi : i < 4)
      (hn : Control n [] [] 0) (hconn : n.conn = link [.word] [] false false) :
      Phase late (.dhRead d i) (.dhRead d (some name) i) n
  | roundHeard {d : Direction} {name : String} {i : Nat} {n : Net} (hi : i < 4)
      (hn : Control n [] [] 0) (hconn : n.conn = link [] [] false false) :
      Phase late (.dhRead d i) (.dhWrite d (some name) i) n
  | roundAnswered {d : Direction} {name : String} {i : Nat} {n : Net}
      (hi : i + 1 < 4) (hn : Control n [] [] 0)
      (hconn : n.conn = link [] [.word] false false) :
      Phase late (.dhRead d i) (.dhRead d (some name) (i + 1)) n
  | getting {c : ClientPc} {v : ServerPc} {down : List Item} {n : Net}
      (hc : Gets c down) (hv : Retrieves v) (hn : Control n [] [] 0)
      (hconn : n.conn = link [] down false false) : Phase late c v n
  | gotten {c : ClientPc} {v : ServerPc} {r : Reply} {n : Net}
      (hc : Gets c n.conn.toClient) (hv : Behind n v) (hn : Control n [] [r] 0) :
      Phase late c v n
  | putting {c : ClientPc} {v : ServerPc} {up down : List Item} {n : Net}
      (hc : Puts c up down) (hv : Stores v) (hn : Control n [] [] 0)
      (hconn : n.conn = link up down false false) : Phase late c v n
  | putSent {v : ServerPc} {up : List Item} {n : Net} (hv : Stores v)
      (hn : Control n [] [] 0) (hconn : n.conn = link up [] true false) :
      Phase late .putReply v n
  | stored {r : Reply} {n : Net} (hw : n.conn.waiting = false)
      (hn : Control n [] [] 0) : Phase late .putReply (.replying r) n
  | putSkipped {v : ServerPc} {up : List Item} {n : Net} (hlate : late)
      (hv : Stores v) (hn : Control n [⟨.skip, none⟩] [] 0)
      (hconn : n.conn = link up [] false false) : Phase late .putSkipReply v n

section Steps

variable {late : Prop} {f : Option Fault} {c c' : ClientPc} {v v' : ServerPc}
  {n n' : Net}

/-- The steps that keep to the phases. -/
def Keeps (late : Prop) (f : Option Fault) : Prop :=
  f = none ∨ f = some .putPrepare ∧ late

theorem Behind.waiting (h : Behind n v) : n.conn.waiting = false := by
  cases h with
  | closing hw => exact hw
  | readPort hw _ => exact hw

/-- What the client does to the data connection does not concern a server that
is behind its reply. -/
theorem Behind.of_eq (h : Behind n v)
    (hwaiting : n'.conn.waiting = n.conn.waiting)
    (hclosed : n'.conn.serverClosed = n.conn.serverClosed) : Behind n' v := by
  cases h with
  | closing hw => exact .closing (hwaiting.trans hw)
  | readPort hw h => exact .readPort (hwaiting.trans hw) (hclosed.trans h)

theorem clientPc_afterRound {d : Direction} {i : Nat} (h : i + 1 < 4) :
    ClientPc.afterRound d i = .dhWrite d (i + 1) := if_pos h

theorem serverPc_afterRound {d : Direction} {name : Option String} {i : Nat}
    (h : i + 1 < 4) :
    ServerPc.afterRound d name i = .dhRead d name (i + 1) := if_pos h

theorem waiting_of_link {up down : List Item} {cc sc : Bool}
    (h : n.conn = link up down cc sc) : n.conn.waiting = false :=
  congrArg DataConn.waiting h

theorem not_keeps_getOpen : ¬ Keeps late (some .getOpen) := by simp [Keeps]

theorem not_keeps_putOpen : ¬ Keeps late (some .putOpen) := by simp [Keeps]

theorem not_keeps_storOpen : ¬ Keeps late (some .storOpen) := by simp [Keeps]

/-- In the key agreement the client waits for the next value. -/
theorem not_clientStep_dhRead {d : Direction} {i : Nat} {up : List Item}
    (hconn : n.conn = link up [] false false) :
    ¬ ClientStep f (.dhRead d i) n c' n' := by
  intro hstep
  cases hstep with
  | dhRead hitem => cases (congrArg DataConn.toClient hconn).symm.trans hitem
  | dhEnd hempty hclosed =>
      cases (congrArg DataConn.serverClosed hconn).symm.trans hclosed

/-- It reads the value that is on its way. -/
theorem clientStep_dhRead {d : Direction} {i : Nat} {up down : List Item}
    {item : Item} (hconn : n.conn = link up (item :: down) false false)
    (hstep : ClientStep f (.dhRead d i) n c' n') :
    c' = .afterRound d i ∧ n' = n.withConn (link up down false false) := by
  cases hstep with
  | dhRead hitem =>
      rw [hconn] at hitem ⊢
      cases hitem
      exact ⟨rfl, rfl⟩
  | dhEnd hempty hclosed =>
      cases (congrArg DataConn.serverClosed hconn).symm.trans hclosed

/-- So does the server. -/
theorem not_serverStep_dhRead {d : Direction} {name : Option String} {i : Nat}
    {down : List Item} (hconn : n.conn = link [] down false false) :
    ¬ ServerStep f (.dhRead d name i) n v' n' := by
  intro hstep
  cases hstep with
  | dhRead hitem => cases (congrArg DataConn.toServer hconn).symm.trans hitem
  | dhEnd hempty hclosed =>
      cases (congrArg DataConn.clientClosed hconn).symm.trans hclosed

/-- A client that listens hears the reply, goes on listening, or has come to the
end of the data connection. -/
theorem Listens.step (hc : Listens c) (hstep : ClientStep f c n c' n') :
    (∃ tagged rest, n.toClient = tagged :: rest ∧ n' = n.hear tagged rest ∧
        (c' = .closing ∨ HasHeard c')) ∨
      (Listens c' ∧ ∃ down, n' = n.withConn { n.conn with toClient := down }) ∨
      c' = .lsSelect false true ∧ n' = n ∧ n.conn.serverClosed = true := by
  cases hc with
  | select =>
      cases hstep with
      | lsRefused hmsg => exact .inl ⟨_, _, hmsg, rfl, .inl rfl⟩
      | lsControl hmsg => exact .inl ⟨_, _, hmsg, rfl, .inr .select⟩
      | lsData hready => exact .inr (.inl ⟨.drain, n.conn.toClient, rfl⟩)
  | drain =>
      cases hstep with
      | @lsBlock _ _ _ rest hitem => exact .inr (.inl ⟨.drain, rest, rfl⟩)
      | lsEnd hempty hclosed => exact .inr (.inr ⟨rfl, rfl, hclosed⟩)

/-- A client that is getting a file goes on, or has come to its end. -/
theorem Gets.step (hf : Keeps late f) (hc : Gets c n.conn.toClient)
    (hstep : ClientStep f c n c' n') :
    (∃ down, Gets c' down ∧ n' = n.withConn { n.conn with toClient := down }) ∨
      c' = .getReply ∧ n' = n ∧ n.conn.serverClosed = true := by
  generalize hdown : n.conn.toClient = down at hc
  cases hc with
  | last down =>
      cases hstep with
      | @dhRead _ _ _ _ rest hitem => exact .inl ⟨rest, .opens rest, rfl⟩
      | dhEnd hempty hclosed => cases hdown.symm.trans hempty
  | opens down =>
      cases hstep with
      | getOpen => exact .inl ⟨n.conn.toClient, .receives _, rfl⟩
      | getOpenFails => exact absurd hf not_keeps_getOpen
  | receives down =>
      cases hstep with
      | @getBlock _ _ rest hitem => exact .inl ⟨rest, .receives rest, rfl⟩
      | getEnd hempty hclosed => exact .inr ⟨rfl, rfl, hclosed⟩

/-- A server that stores a file goes on, or has come to its end. -/
theorem Stores.step (hf : Keeps late f) (hv : Stores v)
    (hstep : ServerStep f v n v' n') :
    (Stores v' ∧ ∃ up, (n.conn.toServer = up ∨
        ∃ item, n.conn.toServer = item :: up) ∧
        n' = n.withConn { n.conn with toServer := up }) ∨
      v' = .replying .commandOk ∧ n' = n ∧ n.conn.clientClosed = true := by
  cases hv with
  | opens name =>
      cases hstep with
      | storOpen => exact .inl ⟨.receives, _, .inl rfl, rfl⟩
      | storOpenFails => exact absurd hf not_keeps_storOpen
  | receives =>
      cases hstep with
      | @storBlock _ item rest hitem =>
          exact .inl ⟨.receives, rest, .inr ⟨item, hitem⟩, rfl⟩
      | storEnd hempty hclosed => exact .inr ⟨rfl, rfl, hclosed⟩

/-- A step of the client leads from phase to phase. -/
theorem Phase.clientStep (hf : Keeps late f) (h : Phase late c v n)
    (hstep : ClientStep f c n c' n') : Phase late c' v n' := by
  cases h with
  | closing hv hn =>
      cases hstep with
      | close => exact .prompt (hv.of_eq rfl rfl) (hn.withConn _)
  | prompt hv hn =>
      cases hstep with
      | quit hcmds => exact .quitting (hv.of_eq rfl rfl) (hn.enter _ _)
      | port hcmds hcmd => exact .ported hcmd (hv.of_eq rfl rfl) (hn.enter _ _)
  | quitting hv hn =>
      cases hstep with
      | quitReply hmsg => exact absurd hmsg hn.not_hear
  | goodbye hn =>
      cases hstep with
      | quitReply hmsg => exact .finished (hn.hear hmsg).2
  | finished hn => cases hstep
  | ported hcmd hv hn =>
      cases hstep with
      | accept hwaiting => cases hv.waiting.symm.trans hwaiting
  | connecting hcmd hw hn =>
      cases hstep with
      | accept hwaiting => cases hw.symm.trans hwaiting
  | connected hcmd hn hconn =>
      cases hstep with
      | accept hwaiting =>
          refine .accepted hcmd (hn.withConn _) ?_
          rw [Net.withConn, hconn]
          rfl
  | accepted hcmd hn hconn =>
      cases hstep with
      | skip hcmd =>
          have hw : n.conn.waiting = false := congrArg DataConn.waiting hconn
          exact .skipSent hw (hn.send _)
      | list => exact .listSent (hn.send _) hconn
      | retr => exact .asked (hn.send _) hconn
      | stor => exact .asked (hn.send _) hconn
  | skipSent hw hn =>
      cases hstep with
      | skipReply hmsg => exact absurd hmsg hn.not_hear
  | skipping hw hn =>
      cases hstep with
      | skipReply hmsg => exact absurd hmsg hn.not_hear
  | answered hc hv hn =>
      cases hc with
      | skip =>
          cases hstep with
          | skipReply hmsg => exact .closing (hv.of_eq rfl rfl) (hn.hear hmsg).2
      | get =>
          cases hstep with
          | getReply hmsg => exact .closing (hv.of_eq rfl rfl) (hn.hear hmsg).2
      | put =>
          cases hstep with
          | putReply hmsg => exact .closing (hv.of_eq rfl rfl) (hn.hear hmsg).2
  | listSent hn hconn =>
      cases hstep with
      | lsRefused hmsg => exact absurd hmsg hn.not_hear
      | lsControl hmsg => exact absurd hmsg hn.not_hear
      | lsData hready =>
          rw [hconn] at hready
          simp [link] at hready
  | listing hc hv hn hconn =>
      rcases hc.step hstep with
        ⟨_, _, hmsg, _⟩ | ⟨hc', down, rfl⟩ | ⟨_, _, hclosed⟩
      · exact absurd hmsg hn.not_hear
      · refine @Phase.listing _ _ _ down _ hc' hv (hn.withConn _) ?_
        rw [Net.withConn, hconn]
        rfl
      · cases (congrArg DataConn.serverClosed hconn).symm.trans hclosed
  | listed hc hv hn =>
      rcases hc.step hstep with
        ⟨_, _, hmsg, rfl, rfl | hc'⟩ | ⟨hc', _, rfl⟩ | ⟨rfl, rfl, _⟩
      · exact .closing (hv.of_eq rfl rfl) (hn.hear hmsg).2
      · exact .heard hc' (hv.of_eq rfl rfl) (hn.hear hmsg).2
      · exact .listed hc' (hv.of_eq rfl rfl) (hn.withConn _)
      · exact .drained hv hn
  | drained hv hn =>
      cases hstep with
      | lsRefused hmsg => exact .closing (hv.of_eq rfl rfl) (hn.hear hmsg).2
      | lsControl hmsg => exact .closing (hv.of_eq rfl rfl) (hn.hear hmsg).2
  | heard hc hv hn =>
      cases hc with
      | select =>
          cases hstep with
          | lsData hready => exact .heard .drain hv hn
      | drain =>
          cases hstep with
          | lsBlock hitem => exact .heard .drain (hv.of_eq rfl rfl) (hn.withConn _)
          | lsEnd hempty hclosed => exact .closing hv hn
  | asked hn hconn =>
      cases hstep with
      | dhWrite =>
          refine .askedSent (hn.withConn _) ?_
          rw [Net.withConn, hconn]
          rfl
  | askedSent hn hconn => exact absurd hstep (not_clientStep_dhRead hconn)
  | round hi hn hconn =>
      cases hstep with
      | dhWrite =>
          refine .roundSent hi (hn.withConn _) ?_
          rw [Net.withConn, hconn]
          rfl
  | roundSent hi hn hconn => exact absurd hstep (not_clientStep_dhRead hconn)
  | roundHeard hi hn hconn => exact absurd hstep (not_clientStep_dhRead hconn)
  | roundAnswered hi hn hconn =>
      obtain ⟨rfl, rfl⟩ := clientStep_dhRead hconn hstep
      rw [clientPc_afterRound hi]
      exact .round hi (hn.withConn _) rfl
  | getting hc hv hn hconn =>
      have hc : Gets c n.conn.toClient := by
        rw [hconn]
        exact hc
      rcases hc.step hf hstep with ⟨down, hc', rfl⟩ | ⟨_, _, hclosed⟩
      · refine .getting hc' hv (hn.withConn _) ?_
        rw [Net.withConn, hconn]
        rfl
      · cases (congrArg DataConn.serverClosed hconn).symm.trans hclosed
  | gotten hc hv hn =>
      rcases hc.step hf hstep with ⟨down, hc', rfl⟩ | ⟨rfl, rfl, _⟩
      · exact .gotten hc' (hv.of_eq rfl rfl) (hn.withConn _)
      · exact .answered .get hv hn
  | putting hc hv hn hconn =>
      cases hc with
      | last =>
          obtain ⟨rfl, rfl⟩ := clientStep_dhRead hconn hstep
          exact .putting (.prepares []) hv (hn.withConn _) rfl
      | prepares up =>
          cases hstep with
          | putPrepare => exact .putting (.opens _) hv hn hconn
          | putPrepareFails =>
              refine .putSkipped ?_ hv (hn.send _) hconn
              simpa [Keeps] using hf
      | opens up =>
          cases hstep with
          | putOpen => exact .putting (.selects _) hv hn hconn
          | putOpenFails => exact absurd hf not_keeps_putOpen
      | selects up =>
          cases hstep with
          | putRefused hmsg => exact absurd hmsg hn.not_hear
          | putControl hmsg => exact absurd hmsg hn.not_hear
          | putData => exact .putting (.sends _) hv hn hconn
      | sends up =>
          cases hstep with
          | putBlock =>
              refine .putting (.sends (n.conn.toServer ++ [.block])) hv
                (hn.withConn _) ?_
              rw [Net.withConn, hconn]
              rfl
          | putSent =>
              refine @Phase.putSent _ _ n.conn.toServer _ hv (hn.withConn _) ?_
              rw [Net.withConn, hconn]
              rfl
  | putSent hv hn hconn =>
      cases hstep with
      | putReply hmsg => exact absurd hmsg hn.not_hear
  | stored hw hn =>
      cases hstep with
      | putReply hmsg => exact absurd hmsg hn.not_hear
  | putSkipped hlate hv hn hconn =>
      cases hstep with
      | putSkipReply hmsg => exact absurd hmsg hn.not_hear

/-- The server closes its end of the data connection. -/
theorem Behind.close (hw : n.conn.waiting = false) :
    Behind (n.withConn { n.conn with serverClosed := true }) .readPort :=
  .readPort hw rfl

/-- A server that is behind its reply has nothing to read before the next
command. -/
theorem Behind.step (h : Behind n v) {down : List Reply}
    (hn : Control n [] down 0) (hstep : ServerStep f v n v' n') :
    Behind n' v' ∧ Control n' [] down 0 ∧ n'.conn.toClient = n.conn.toClient := by
  cases h with
  | closing hw =>
      cases hstep with
      | close => exact ⟨.close hw, hn.withConn _, rfl⟩
  | readPort hw hclosed =>
      cases hstep with
      | quit hmsg => exact absurd hmsg hn.not_take
      | port hmsg => exact absurd hmsg hn.not_take
      | garbage hmsg => exact absurd hmsg hn.not_take

/-- Before it reads a command, a server that is behind its reply may still close
the data connection. -/
theorem Behind.step_ahead (h : Behind n v) {m : Message}
    (hn : Control n [m] [] 1) (hverb : m.verb = .port ∨ m.verb = .quit)
    (hstep : ServerStep f v n v' n') :
    Behind n' v' ∧ Control n' [m] [] 1 ∨
      m.verb = .port ∧ v' = .connecting ∧ n'.conn.waiting = false ∧
        Control n' [] [] 0 ∨
      m.verb = .quit ∧ v' = .exited ∧ Control n' [] [.goodbye] 0 := by
  cases h with
  | closing hw =>
      cases hstep with
      | close => exact .inl ⟨.close hw, hn.withConn _⟩
  | readPort hw hclosed =>
      cases hstep with
      | quit hmsg hquit =>
          obtain ⟨rfl, hn'⟩ := hn.beginCommand hmsg hverb
          exact .inr (.inr ⟨hquit, rfl, hn'.reply _⟩)
      | port hmsg hport =>
          obtain ⟨rfl, hn'⟩ := hn.beginCommand hmsg hverb
          exact .inr (.inl ⟨hport, rfl, hw, hn'⟩)
      | garbage hmsg hquit hport =>
          obtain ⟨rfl, hn'⟩ := hn.beginCommand hmsg hverb
          rcases hverb with hp | hq
          · exact absurd hp hport
          · exact absurd hq hquit

/-- Where the server's main loop goes with a command. -/
def afterCommand (m : Message) : ServerPc :=
  match m.verb with
  | .list => .listing m.name
  | .retr => .dhRead .get m.name 0
  | .stor => .dhRead .put m.name 0
  | .skip => .replying .noSuchFilename
  | .port => .closing
  | .quit => .closing

theorem readCommand_step {m : Message} (hn : Control n [m] [] 0)
    (hstep : ServerStep f .readCommand n v' n') :
    v' = afterCommand m ∧ Control n' [] [] 0 ∧ n'.conn = n.conn := by
  cases hstep with
  | list hmsg hverb =>
      obtain ⟨rfl, hn'⟩ := hn.take hmsg
      exact ⟨by rw [afterCommand, hverb], hn', rfl⟩
  | retr hmsg hverb =>
      obtain ⟨rfl, hn'⟩ := hn.take hmsg
      exact ⟨by rw [afterCommand, hverb], hn', rfl⟩
  | stor hmsg hverb =>
      obtain ⟨rfl, hn'⟩ := hn.take hmsg
      exact ⟨by rw [afterCommand, hverb], hn', rfl⟩
  | skip hmsg hverb =>
      obtain ⟨rfl, hn'⟩ := hn.take hmsg
      exact ⟨by rw [afterCommand, hverb], hn', rfl⟩
  | unknown hmsg hverb =>
      obtain ⟨rfl, hn'⟩ := hn.take hmsg
      refine ⟨?_, hn', rfl⟩
      rcases hverb with hport | hquit
      · rw [afterCommand, hport]
      · rw [afterCommand, hquit]

theorem not_readCommand_step {down : List Reply} {ahead : Nat}
    (hn : Control n [] down ahead) : ¬ ServerStep f .readCommand n v' n' := by
  intro hstep
  cases hstep with
  | list hmsg => exact hn.not_take hmsg
  | retr hmsg => exact hn.not_take hmsg
  | stor hmsg => exact hn.not_take hmsg
  | skip hmsg => exact hn.not_take hmsg
  | unknown hmsg => exact hn.not_take hmsg

/-- The last value of the server's key agreement is sent. -/
theorem Phase.lastRound {d : Direction} {name : String} {conn : DataConn}
    (hn : Control n [] [] 0) (hconn : conn = link [] [.word] false false) :
    Phase late (.dhRead d 3) (.afterRound d (some name) 3) (n.withConn conn) := by
  cases d with
  | get => exact .getting (.last []) (.find _) (hn.withConn _) hconn
  | put => exact .putting .last (.opens name) (hn.withConn _) hconn

theorem Gets.append {down : List Item} (h : Gets c down) (item : Item) :
    Gets c (down ++ [item]) := by
  cases h with
  | last down => exact .last (down ++ [item])
  | opens => exact .opens _
  | receives => exact .receives _

/-- The server has taken an item, or none. -/
theorem Puts.after {up up' down : List Item} (h : Puts c up down)
    (hup : up = up' ∨ ∃ item, up = item :: up') : Puts c up' down := by
  rcases hup with rfl | ⟨item, rfl⟩
  · exact h
  · cases h with
    | prepares => exact .prepares up'
    | opens => exact .opens up'
    | selects => exact .selects up'
    | sends => exact .sends up'

/-- A step of the server leads from phase to phase. -/
theorem Phase.serverStep (hf : Keeps late f) (h : Phase late c v n)
    (hstep : ServerStep f v n v' n') : Phase late c v' n' := by
  cases h with
  | closing hv hn =>
      obtain ⟨hv', hn', _⟩ := hv.step hn hstep
      exact .closing hv' hn'
  | prompt hv hn =>
      obtain ⟨hv', hn', _⟩ := hv.step hn hstep
      exact .prompt hv' hn'
  | quitting hv hn =>
      rcases hv.step_ahead hn (.inr rfl) hstep with
        ⟨hv', hn'⟩ | ⟨hport, _⟩ | ⟨_, rfl, hn'⟩
      · exact .quitting hv' hn'
      · cases hport
      · exact .goodbye hn'
  | goodbye hn => cases hstep
  | finished hn => cases hstep
  | ported hcmd hv hn =>
      rcases hv.step_ahead hn (.inl rfl) hstep with
        ⟨hv', hn'⟩ | ⟨_, rfl, hw, hn'⟩ | ⟨hquit, _⟩
      · exact .ported hcmd hv' hn'
      · exact .connecting hcmd hw hn'
      · cases hquit
  | connecting hcmd hw hn => cases hstep
  | connected hcmd hn hconn => exact absurd hstep (not_readCommand_step hn)
  | accepted hcmd hn hconn => exact absurd hstep (not_readCommand_step hn)
  | skipSent hw hn =>
      obtain ⟨rfl, hn', hsame⟩ := readCommand_step hn hstep
      exact .skipping (hsame ▸ hw) hn'
  | skipping hw hn =>
      cases hstep with
      | reply => exact .answered .skip (.closing hw) (hn.reply _)
  | answered hc hv hn =>
      obtain ⟨hv', hn', _⟩ := hv.step hn hstep
      exact .answered hc hv' hn'
  | listSent hn hconn =>
      obtain ⟨rfl, hn', hsame⟩ := readCommand_step hn hstep
      exact .listing .select (.listing _) hn' (hsame.trans hconn)
  | listing hc hv hn hconn =>
      have hw := waiting_of_link hconn
      cases hv with
      | listing name =>
          cases hstep with
          | listNone => exact .listing hc (.replying _) hn hconn
          | listAborted => exact .listing hc (.replying _) hn hconn
          | listOpen => exact .listing hc .listSend hn hconn
      | listSend =>
          cases hstep with
          | listBlock =>
              refine @Phase.listing _ _ _ (n.conn.toClient ++ [.block]) _ hc
                .listSend (hn.withConn _) ?_
              rw [Net.withConn, hconn]
              rfl
          | listSent => exact .listing hc (.replying _) hn hconn
      | replying r =>
          cases hstep with
          | reply => exact .listed hc (.closing hw) (hn.reply _)
  | listed hc hv hn =>
      obtain ⟨hv', hn', _⟩ := hv.step hn hstep
      exact .listed hc hv' hn'
  | drained hv hn =>
      obtain ⟨hv', hn', _⟩ := hv.step hn hstep
      exact .drained hv' hn'
  | heard hc hv hn =>
      obtain ⟨hv', hn', _⟩ := hv.step hn hstep
      exact .heard hc hv' hn'
  | @asked d name n hn hconn =>
      obtain ⟨rfl, hn', hsame⟩ := readCommand_step hn hstep
      cases d with
      | get => exact .round (by decide) hn' (hsame.trans hconn)
      | put => exact .round (by decide) hn' (hsame.trans hconn)
  | @askedSent d name n hn hconn =>
      obtain ⟨rfl, hn', hsame⟩ := readCommand_step hn hstep
      cases d with
      | get => exact .roundSent (by decide) hn' (hsame.trans hconn)
      | put => exact .roundSent (by decide) hn' (hsame.trans hconn)
  | round hi hn hconn => exact absurd hstep (not_serverStep_dhRead hconn)
  | roundSent hi hn hconn =>
      cases hstep with
      | dhRead hitem =>
          rw [hconn] at hitem
          cases hitem
          refine .roundHeard hi (hn.withConn _) ?_
          rw [Net.withConn, hconn]
          rfl
      | dhEnd hempty hclosed =>
          rw [hconn] at hclosed
          cases hclosed
  | @roundHeard d name i n hi hn hconn =>
      cases hstep with
      | dhWrite =>
          have hsent : { n.conn with toClient := n.conn.toClient ++ [.word] } =
              link [] [.word] false false := by
            rw [hconn]
            rfl
          by_cases hmore : i + 1 < 4
          · rw [serverPc_afterRound hmore]
            exact .roundAnswered hmore (hn.withConn _) hsent
          · obtain rfl : i = 3 := by omega
            exact .lastRound hn hsent
  | roundAnswered hi hn hconn =>
      exact absurd hstep (not_serverStep_dhRead hconn)
  | getting hc hv hn hconn =>
      have hw := waiting_of_link hconn
      cases hv with
      | find name =>
          cases hstep with
          | retrNotDetected => exact .getting hc (.replying _) hn hconn
          | retrNone => exact .getting hc (.replying _) hn hconn
          | retrAborted => exact .getting hc (.replying _) hn hconn
          | retrOpen => exact .getting hc .sends hn hconn
      | sends =>
          cases hstep with
          | retrBlock =>
              refine .getting (hc.append .block) .sends (hn.withConn _) ?_
              rw [Net.withConn, hconn]
              rfl
          | retrSent => exact .getting hc (.replying _) hn hconn
      | replying r =>
          cases hstep with
          | reply =>
              have hc' : Gets c n.conn.toClient := by
                rw [hconn]
                exact hc
              exact .gotten hc' (.closing hw) (hn.reply _)
  | gotten hc hv hn =>
      obtain ⟨hv', hn', hdown⟩ := hv.step hn hstep
      exact .gotten (hdown ▸ hc) hv' hn'
  | putting hc hv hn hconn =>
      rcases hv.step hf hstep with ⟨hv', up, hup, rfl⟩ | ⟨_, _, hclosed⟩
      · rw [hconn] at hup
        refine .putting (hc.after hup) hv' (hn.withConn _) ?_
        rw [Net.withConn, hconn]
        rfl
      · cases (congrArg DataConn.clientClosed hconn).symm.trans hclosed
  | putSent hv hn hconn =>
      rcases hv.step hf hstep with ⟨hv', up, _, rfl⟩ | ⟨rfl, rfl, _⟩
      · refine @Phase.putSent _ _ up _ hv' (hn.withConn _) ?_
        rw [Net.withConn, hconn]
        rfl
      · exact .stored (waiting_of_link hconn) hn
  | stored hw hn =>
      cases hstep with
      | reply => exact .answered .put (.closing hw) (hn.reply _)
  | putSkipped hlate hv hn hconn =>
      rcases hv.step hf hstep with ⟨hv', up, _, rfl⟩ | ⟨_, _, hclosed⟩
      · refine @Phase.putSkipped _ _ up _ hlate hv' (hn.withConn _) ?_
        rw [Net.withConn, hconn]
        rfl
      · cases (congrArg DataConn.clientClosed hconn).symm.trans hclosed

end Steps

end EcFtp.Ftp
