/-
One client and its server child as two processes.  A control connection joins
them for good, a data connection for each command.  Each `write` is one message
and each `read` takes one; the connections lose nothing, and setting them up
does not fail.  What the two do on their own hosts is left open: every outcome
is a step.
-/
import EcFtp.ServerTransfer
import Mathlib.Logic.Relation

namespace EcFtp.Ftp

/-- What the user enters; the name may be missing. -/
inductive Command where
  | ls (name : Option String)
  | get (name : Option String)
  | put (name : Option String)
  | quit
deriving Repr, DecidableEq

/-- The first word of what the client sends. -/
inductive Verb where
  | port
  | quit
  | list
  | retr
  | stor
  | skip
deriving Repr, DecidableEq

structure Message where
  verb : Verb
  name : Option String
deriving Repr, DecidableEq

/-- What goes over a data connection: a public value of the key agreement, or
some bytes of a listing or a file. -/
inductive Item where
  | word
  | block
deriving Repr, DecidableEq

/-- A data connection: what is on its way, which ends are closed, and whether the
client has still to accept it. -/
structure DataConn where
  toServer : List Item
  toClient : List Item
  clientClosed : Bool
  serverClosed : Bool
  waiting : Bool
deriving Repr, DecidableEq

/-- As `connect` leaves it. -/
def DataConn.fresh : DataConn := ⟨[], [], false, false, true⟩

/-- A reply the client has read: the command it was handling, and the command
the server was handling when it sent it. -/
structure Heard where
  client : Nat
  server : Nat
  reply : Reply
deriving Repr, DecidableEq

/-- What lies between the two and behind them: what the user has still to enter,
how many commands either side has begun, the two connections, what the client
has heard, and what the server has read where it expects PORT or QUIT. -/
structure Net where
  commands : List Command
  entered : Nat
  handled : Nat
  toServer : List Message
  toClient : List (Nat × Reply)
  conn : DataConn
  heard : List Heard
  ports : List Message
deriving Repr, DecidableEq

namespace Net

variable (n : Net)

/-- The user has entered a command. -/
def enter (rest : List Command) : Net :=
  { n with commands := rest, entered := n.entered + 1 }

def send (m : Message) : Net := { n with toServer := n.toServer ++ [m] }

/-- `write(controlfd, sendline, strlen(sendline))` of the server. -/
def reply (r : Reply) : Net :=
  { n with toClient := n.toClient ++ [(n.handled, r)] }

/-- The client reads a reply. -/
def hear (tagged : Nat × Reply) (rest : List (Nat × Reply)) : Net :=
  { n with toClient := rest,
           heard := n.heard ++ [⟨n.entered, tagged.1, tagged.2⟩] }

/-- The server reads what should be PORT or QUIT. -/
def beginCommand (m : Message) (rest : List Message) : Net :=
  { n with toServer := rest, handled := n.handled + 1, ports := n.ports ++ [m] }

/-- The server reads a command. -/
def take (rest : List Message) : Net := { n with toServer := rest }

def withConn (conn : DataConn) : Net := { n with conn }

end Net

/-- The two commands that transfer a file. -/
inductive Direction where
  | get
  | put
deriving Repr, DecidableEq

/-- The points of the client's main loop, of `do_quit`, `do_ls`, `do_get`,
`do_put` and of `do_dh_client` within the last two.  `control` and `data` are
the flags `control_finished` and `data_finished`. -/
inductive ClientPc where
  | prompt
  | quitReply
  | accepting (cmd : Command)
  | dispatch (cmd : Command)
  | skipReply
  | lsSelect (control data : Bool)
  | lsDrain (control : Bool)
  | dhWrite (d : Direction) (i : Nat)
  | dhRead (d : Direction) (i : Nat)
  | getOpen
  | getRecv
  | getReply
  | putPrepare
  | putSkipReply
  | putOpen
  | putSelect (control : Bool)
  | putSend (control : Bool)
  | putReply
  | closing
  | finished
  | dead
deriving Repr, DecidableEq

/-- The points of the server's main loop, of `do_list`, `do_retr`, `do_stor` and
of `do_dh_server` within the last two. -/
inductive ServerPc where
  | readPort
  | connecting
  | readCommand
  | listing (name : Option String)
  | listSend
  | dhRead (d : Direction) (name : Option String) (i : Nat)
  | dhWrite (d : Direction) (name : Option String) (i : Nat)
  | retrFind (name : Option String)
  | retrSend
  | storOpen (name : Option String)
  | storRead
  | replying (r : Reply)
  | closing
  | exited
  | dead
deriving Repr, DecidableEq

/-- Outcomes on either host after which one side returns without the message the
other side counts on: `temp_recv_name` or `fopen` fails in `do_get`,
`prepare_file` fails in `do_put`, `fopen` fails in `do_put`, `temp_recv_name` or
`fopen` fails in `do_stor`. -/
inductive Fault where
  | getOpen
  | putPrepare
  | putOpen
  | storOpen
deriving Repr, DecidableEq

/-- The client behind round `i` of the key agreement. -/
def ClientPc.afterRound (d : Direction) (i : Nat) : ClientPc :=
  if i + 1 < 4 then .dhWrite d (i + 1)
  else match d with
    | .get => .getOpen
    | .put => .putPrepare

/-- The server behind round `i` of the key agreement. -/
def ServerPc.afterRound (d : Direction) (name : Option String) (i : Nat) :
    ServerPc :=
  if i + 1 < 4 then .dhRead d name (i + 1)
  else match d with
    | .get => .retrFind name
    | .put => .storOpen name

/-- A step of the client. -/
inductive ClientStep :
    Option Fault → ClientPc → Net → ClientPc → Net → Prop
  -- `main`, and `do_quit`
  | quit {n : Net} {rest : List Command} (h : n.commands = .quit :: rest) :
      ClientStep none .prompt n .quitReply ((n.enter rest).send ⟨.quit, none⟩)
  | quitReply {n : Net} {r : Nat × Reply} {rest : List (Nat × Reply)}
      (h : n.toClient = r :: rest) :
      ClientStep none .quitReply n .finished (n.hear r rest)
  | port {n : Net} {cmd : Command} {rest : List Command}
      (h : n.commands = cmd :: rest) (hcmd : cmd ≠ .quit) :
      ClientStep none .prompt n (.accepting cmd)
        ((n.enter rest).send ⟨.port, none⟩)
  | accept {n : Net} {cmd : Command} (h : n.conn.waiting = true) :
      ClientStep none (.accepting cmd) n (.dispatch cmd)
        (n.withConn { n.conn with waiting := false })
  | close {n : Net} :
      ClientStep none .closing n .prompt
        (n.withConn { n.conn with clientClosed := true })
  -- a command without its filename
  | skip {n : Net} {cmd : Command} (h : cmd = .get none ∨ cmd = .put none) :
      ClientStep none (.dispatch cmd) n .skipReply (n.send ⟨.skip, none⟩)
  | skipReply {n : Net} {r : Nat × Reply} {rest : List (Nat × Reply)}
      (h : n.toClient = r :: rest) :
      ClientStep none .skipReply n .closing (n.hear r rest)
  -- `do_ls`: whichever connection `select` finds ready
  | list {n : Net} {name : Option String} :
      ClientStep none (.dispatch (.ls name)) n (.lsSelect false false)
        (n.send ⟨.list, name⟩)
  | lsRefused {n : Net} {data : Bool} {r : Nat × Reply}
      {rest : List (Nat × Reply)} (h : n.toClient = r :: rest)
      (hcode : r.2.code ≠ 200) :
      ClientStep none (.lsSelect false data) n .closing (n.hear r rest)
  | lsControl {n : Net} {data : Bool} {r : Nat × Reply}
      {rest : List (Nat × Reply)} (h : n.toClient = r :: rest)
      (hcode : r.2.code = 200) :
      ClientStep none (.lsSelect false data) n
        (if data then .closing else .lsSelect true data) (n.hear r rest)
  | lsData {n : Net} {control : Bool}
      (h : n.conn.toClient ≠ [] ∨ n.conn.serverClosed = true) :
      ClientStep none (.lsSelect control false) n (.lsDrain control) n
  | lsBlock {n : Net} {control : Bool} {item : Item} {rest : List Item}
      (h : n.conn.toClient = item :: rest) :
      ClientStep none (.lsDrain control) n (.lsDrain control)
        (n.withConn { n.conn with toClient := rest })
  | lsEnd {n : Net} {control : Bool} (h : n.conn.toClient = [])
      (hclosed : n.conn.serverClosed = true) :
      ClientStep none (.lsDrain control) n
        (if control then .closing else .lsSelect control true) n
  -- `do_get` and `do_put` up to the key agreement, and `do_dh_client`
  | retr {n : Net} {name : String} :
      ClientStep none (.dispatch (.get (some name))) n (.dhWrite .get 0)
        (n.send ⟨.retr, some name⟩)
  | stor {n : Net} {name : String} :
      ClientStep none (.dispatch (.put (some name))) n (.dhWrite .put 0)
        (n.send ⟨.stor, some name⟩)
  | dhWrite {n : Net} {d : Direction} {i : Nat} :
      ClientStep none (.dhWrite d i) n (.dhRead d i)
        (n.withConn { n.conn with toServer := n.conn.toServer ++ [.word] })
  | dhRead {n : Net} {d : Direction} {i : Nat} {item : Item} {rest : List Item}
      (h : n.conn.toClient = item :: rest) :
      ClientStep none (.dhRead d i) n (.afterRound d i)
        (n.withConn { n.conn with toClient := rest })
  | dhEnd {n : Net} {d : Direction} {i : Nat} (h : n.conn.toClient = [])
      (hclosed : n.conn.serverClosed = true) :
      ClientStep none (.dhRead d i) n (.afterRound d i) n
  -- the rest of `do_get`
  | getOpen {n : Net} : ClientStep none .getOpen n .getRecv n
  | getOpenFails {n : Net} :
      ClientStep (some .getOpen) .getOpen n .closing n
  | getBlock {n : Net} {item : Item} {rest : List Item}
      (h : n.conn.toClient = item :: rest) :
      ClientStep none .getRecv n .getRecv
        (n.withConn { n.conn with toClient := rest })
  | getEnd {n : Net} (h : n.conn.toClient = [])
      (hclosed : n.conn.serverClosed = true) :
      ClientStep none .getRecv n .getReply n
  | getReply {n : Net} {r : Nat × Reply} {rest : List (Nat × Reply)}
      (h : n.toClient = r :: rest) :
      ClientStep none .getReply n .closing (n.hear r rest)
  -- the rest of `do_put`
  | putPrepare {n : Net} : ClientStep none .putPrepare n .putOpen n
  | putPrepareFails {n : Net} :
      ClientStep (some .putPrepare) .putPrepare n .putSkipReply
        (n.send ⟨.skip, none⟩)
  | putSkipReply {n : Net} {r : Nat × Reply} {rest : List (Nat × Reply)}
      (h : n.toClient = r :: rest) :
      ClientStep none .putSkipReply n .closing (n.hear r rest)
  | putOpen {n : Net} : ClientStep none .putOpen n (.putSelect false) n
  | putOpenFails {n : Net} : ClientStep (some .putOpen) .putOpen n .closing n
  | putRefused {n : Net} {control : Bool} {r : Nat × Reply}
      {rest : List (Nat × Reply)} (h : n.toClient = r :: rest)
      (hcode : r.2.code ≠ 200) :
      ClientStep none (.putSelect control) n .closing (n.hear r rest)
  | putControl {n : Net} {control : Bool} {r : Nat × Reply}
      {rest : List (Nat × Reply)} (h : n.toClient = r :: rest)
      (hcode : r.2.code = 200) :
      ClientStep none (.putSelect control) n (.putSelect true) (n.hear r rest)
  | putData {n : Net} {control : Bool} :
      ClientStep none (.putSelect control) n (.putSend control) n
  | putBlock {n : Net} {control : Bool} :
      ClientStep none (.putSend control) n (.putSend control)
        (n.withConn { n.conn with toServer := n.conn.toServer ++ [.block] })
  | putSent {n : Net} {control : Bool} :
      ClientStep none (.putSend control) n
        (if control then .closing else .putReply)
        (n.withConn { n.conn with clientClosed := true })
  -- `select` fails on the closed `datafd`, so the reply is waited for in `read`
  | putReply {n : Net} {r : Nat × Reply} {rest : List (Nat × Reply)}
      (h : n.toClient = r :: rest) :
      ClientStep none .putReply n .closing (n.hear r rest)

/-- A step of the server. -/
inductive ServerStep :
    Option Fault → ServerPc → Net → ServerPc → Net → Prop
  -- the main loop; what is neither QUIT nor PORT has no port to parse
  | quit {n : Net} {m : Message} {rest : List Message}
      (h : n.toServer = m :: rest) (hverb : m.verb = .quit) :
      ServerStep none .readPort n .exited ((n.beginCommand m rest).reply .goodbye)
  | port {n : Net} {m : Message} {rest : List Message}
      (h : n.toServer = m :: rest) (hverb : m.verb = .port) :
      ServerStep none .readPort n .connecting (n.beginCommand m rest)
  | garbage {n : Net} {m : Message} {rest : List Message}
      (h : n.toServer = m :: rest) (hquit : m.verb ≠ .quit)
      (hport : m.verb ≠ .port) :
      ServerStep none .readPort n .dead (n.beginCommand m rest)
  | list {n : Net} {m : Message} {rest : List Message}
      (h : n.toServer = m :: rest) (hverb : m.verb = .list) :
      ServerStep none .readCommand n (.listing m.name) (n.take rest)
  | retr {n : Net} {m : Message} {rest : List Message}
      (h : n.toServer = m :: rest) (hverb : m.verb = .retr) :
      ServerStep none .readCommand n (.dhRead .get m.name 0) (n.take rest)
  | stor {n : Net} {m : Message} {rest : List Message}
      (h : n.toServer = m :: rest) (hverb : m.verb = .stor) :
      ServerStep none .readCommand n (.dhRead .put m.name 0) (n.take rest)
  | skip {n : Net} {m : Message} {rest : List Message}
      (h : n.toServer = m :: rest) (hverb : m.verb = .skip) :
      ServerStep none .readCommand n (.replying .noSuchFilename) (n.take rest)
  | unknown {n : Net} {m : Message} {rest : List Message}
      (h : n.toServer = m :: rest) (hverb : m.verb = .port ∨ m.verb = .quit) :
      ServerStep none .readCommand n .closing (n.take rest)
  | reply {n : Net} {r : Reply} :
      ServerStep none (.replying r) n .closing (n.reply r)
  | close {n : Net} :
      ServerStep none .closing n .readPort
        (n.withConn { n.conn with serverClosed := true })
  -- `do_list`
  | listNone {n : Net} {name : String} :
      ServerStep none (.listing (some name)) n (.replying .noSuchFile) n
  | listAborted {n : Net} {name : Option String} :
      ServerStep none (.listing name) n (.replying .listAborted) n
  | listOpen {n : Net} {name : Option String} :
      ServerStep none (.listing name) n .listSend n
  | listBlock {n : Net} :
      ServerStep none .listSend n .listSend
        (n.withConn { n.conn with toClient := n.conn.toClient ++ [.block] })
  | listSent {n : Net} :
      ServerStep none .listSend n (.replying .commandOk) n
  -- `do_dh_server`
  | dhRead {n : Net} {d : Direction} {name : Option String} {i : Nat}
      {item : Item} {rest : List Item} (h : n.conn.toServer = item :: rest) :
      ServerStep none (.dhRead d name i) n (.dhWrite d name i)
        (n.withConn { n.conn with toServer := rest })
  | dhEnd {n : Net} {d : Direction} {name : Option String} {i : Nat}
      (h : n.conn.toServer = []) (hclosed : n.conn.clientClosed = true) :
      ServerStep none (.dhRead d name i) n (.dhWrite d name i) n
  | dhWrite {n : Net} {d : Direction} {name : Option String} {i : Nat} :
      ServerStep none (.dhWrite d name i) n (.afterRound d name i)
        (n.withConn { n.conn with toClient := n.conn.toClient ++ [.word] })
  -- the rest of `do_retr`
  | retrNotDetected {n : Net} :
      ServerStep none (.retrFind none) n (.replying .notDetected) n
  | retrNone {n : Net} {name : String} :
      ServerStep none (.retrFind (some name)) n (.replying .noSuchFile) n
  | retrAborted {n : Net} {name : String} :
      ServerStep none (.retrFind (some name)) n (.replying .aborted) n
  | retrOpen {n : Net} {name : String} :
      ServerStep none (.retrFind (some name)) n .retrSend n
  | retrBlock {n : Net} :
      ServerStep none .retrSend n .retrSend
        (n.withConn { n.conn with toClient := n.conn.toClient ++ [.block] })
  | retrSent {n : Net} :
      ServerStep none .retrSend n (.replying .commandOk) n
  -- the rest of `do_stor`; `process_received_file` comes after the reply
  | storNotTaken {n : Net} :
      ServerStep none (.storOpen none) n (.replying .notTaken) n
  | storOpen {n : Net} {name : String} :
      ServerStep none (.storOpen (some name)) n .storRead n
  | storOpenFails {n : Net} {name : String} :
      ServerStep (some .storOpen) (.storOpen (some name)) n .closing n
  | storBlock {n : Net} {item : Item} {rest : List Item}
      (h : n.conn.toServer = item :: rest) :
      ServerStep none .storRead n .storRead
        (n.withConn { n.conn with toServer := rest })
  | storEnd {n : Net} (h : n.conn.toServer = [])
      (hclosed : n.conn.clientClosed = true) :
      ServerStep none .storRead n (.replying .commandOk) n

/-- Both processes, and what lies between them. -/
structure State where
  client : ClientPc
  server : ServerPc
  net : Net
deriving Repr, DecidableEq

/-- The connections of a process that has ended are closed. -/
def ClientPc.Gone (c : ClientPc) : Prop := c = .finished ∨ c = .dead

def ServerPc.Gone (v : ServerPc) : Prop := v = .exited ∨ v = .dead

/-- The points from which the client goes on by writing, to the control
connection or to the data connection. -/
inductive ClientPc.Writes : ClientPc → Bool → Prop
  | prompt : Writes .prompt true
  | dispatch (cmd : Command) : Writes (.dispatch cmd) true
  | dhWrite (d : Direction) (i : Nat) : Writes (.dhWrite d i) false
  | putPrepare : Writes .putPrepare true
  | putSend (control : Bool) : Writes (.putSend control) false

inductive ServerPc.Writes : ServerPc → Bool → Prop
  | listSend : Writes .listSend false
  | dhWrite (d : Direction) (name : Option String) (i : Nat) :
      Writes (.dhWrite d name i) false
  | retrSend : Writes .retrSend false
  | replying (r : Reply) : Writes (.replying r) true

/-- What the client makes of the end of the control connection: some reads go
unchecked, and where the reply is parsed there is no word in it. -/
inductive ClientPc.AtEof : ClientPc → ClientPc → Prop
  | quitReply : AtEof .quitReply .finished
  | skipReply : AtEof .skipReply .closing
  | getReply : AtEof .getReply .closing
  | putSkipReply : AtEof .putSkipReply .closing
  | lsSelect (data : Bool) : AtEof (.lsSelect false data) .dead
  | putSelect (control : Bool) : AtEof (.putSelect control) .dead
  | putReply : AtEof .putReply .dead

/-- A step of the pair. -/
inductive Step : Option Fault → State → State → Prop
  | client {f : Option Fault} {s : State} {c : ClientPc} {n : Net}
      (h : ClientStep f s.client s.net c n) : Step f s ⟨c, s.server, n⟩
  | server {f : Option Fault} {s : State} {v : ServerPc} {n : Net}
      (h : ServerStep f s.server s.net v n) : Step f s ⟨s.client, v, n⟩
  | connect {s : State} (h : s.server = .connecting) (hlistens : ¬ s.client.Gone) :
      Step none s ⟨s.client, .readCommand, s.net.withConn .fresh⟩
  | refused {s : State} (h : s.server = .connecting) (hgone : s.client.Gone) :
      Step none s ⟨s.client, .exited, s.net⟩
  -- the end of the control connection, which the other side has left
  | clientEof {s : State} {c : ClientPc} (hgone : s.server.Gone)
      (hempty : s.net.toClient = []) (h : s.client.AtEof c) :
      Step none s ⟨c, s.server, s.net.withConn
        { s.net.conn with clientClosed := true }⟩
  | serverEof {s : State} (hgone : s.client.Gone) (hempty : s.net.toServer = [])
      (h : s.server = .readPort ∨ s.server = .readCommand) :
      Step none s ⟨s.client, .dead, s.net.withConn
        { s.net.conn with serverClosed := true }⟩
  -- SIGPIPE, on a connection the other side has closed
  | clientKilled {s : State} {control : Bool} (h : s.client.Writes control)
      (hclosed : if control then s.server.Gone else s.net.conn.serverClosed = true) :
      Step none s ⟨.dead, s.server, s.net.withConn
        { s.net.conn with clientClosed := true }⟩
  | serverKilled {s : State} {control : Bool} (h : s.server.Writes control)
      (hclosed : if control then s.client.Gone else s.net.conn.clientClosed = true) :
      Step none s ⟨s.client, .dead, s.net.withConn
        { s.net.conn with serverClosed := true }⟩

/-- Before the first command: no data connection has been set up. -/
def start (commands : List Command) : State where
  client := .prompt
  server := .readPort
  net :=
    { commands, entered := 0, handled := 0, toServer := [], toClient := [],
      conn := ⟨[], [], true, true, false⟩, heard := [], ports := [] }

/-- Runs whose steps all are `ok`. -/
def Runs (ok : Option Fault → Prop) : State → State → Prop :=
  Relation.ReflTransGen fun s s' => ∃ f, ok f ∧ Step f s s'

/-- The client has quit and the server child is gone, or the user has nothing
more to enter. -/
def State.Final (s : State) : Prop :=
  s.client = .finished ∧ s.server = .exited ∨
    s.client = .prompt ∧ s.net.commands = []

/-- Replies match commands: what the client has heard was sent for the command
it was handling, at its prompt nothing is left to read or about to be sent, and
what the server took for PORT or QUIT was that. -/
structure State.Matched (s : State) : Prop where
  heard : ∀ h ∈ s.net.heard, h.server = h.client
  prompt : s.client = .prompt → s.net.toClient = [] ∧
    (s.server = .readPort ∨ s.server = .closing)
  ports : ∀ m ∈ s.net.ports, m.verb = .port ∨ m.verb = .quit

end EcFtp.Ftp
