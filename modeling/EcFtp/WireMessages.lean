/-
The messages of a session as the bytes that go over the control connection: the texts
either side writes, and what the string functions of the other one make of them.
-/
import EcFtp.CommandLine
import EcFtp.FtpReplies

namespace EcFtp.Ftp

open CStrings

/-- A name as the client's `get_filename` has it: one word, which fits into the buffer. -/
structure Named (name : String) : Prop where
  word : Word isspace (ascii name)
  noNul : 0 ∉ ascii name
  short : (ascii name).length ≤ 255

def Command.name : Command → Option String
  | ls name => name
  | get name => name
  | put name => name
  | quit => none

/-- What the client writes for the first word; `portText` is the text of its PORT. -/
def Verb.text (portText : Bytes) : Verb → Bytes
  | port => portText
  | quit => ascii "QUIT"
  | list => ascii "LIST"
  | retr => ascii "RETR"
  | stor => ascii "STOR"
  | skip => ascii "SKIP"

def Message.text (portText : Bytes) (m : Message) : Bytes :=
  match m.name with
  | none => m.verb.text portText
  | some name => m.verb.text portText ++ (32 : UInt8) :: ascii name

/-- The code `do_ls` and `do_put` take from a reply: `atoi(strtok(recvline, " "))`. -/
def replyValue (msg : Bytes) : Option Int := do
  let recvline ← stringIn (zeroed (maxLine + 1) msg)
  let temp ← (strtok isBlank recvline).1
  pure (atoi temp)

/-- Where the server's main loop goes with a command it has parsed. -/
inductive Takes : CommandOutcome → ServerPc → Prop
  | listAll : Takes (.list none) (.listing none)
  | list {directory : Bytes} {name : String}
    (h : stringIn directory = some (ascii name)) :
      Takes (.list (some directory)) (.listing (some name))
  | retr {filename : Bytes} {name : String} (h : stringIn filename = some (ascii name)) :
      Takes (.retr (some filename)) (.dhRead .get (some name) 0)
  | stor {filename : Bytes} {name : String} (h : stringIn filename = some (ascii name)) :
      Takes (.stor (some filename)) (.dhRead .put (some name) 0)
  | skip : Takes .skip (.replying .noSuchFilename)

section Texts

variable {name : String} {verb w portText ip : Bytes} {addr : Address} {port : UInt16}

theorem Named.commandLine (h : Named name) (hverb : Word isspace verb) :
    IsCommandLine verb 32 (ascii name) :=
  ⟨hverb, rfl, h.word⟩

/-- What the server makes of a command with a name. -/
theorem commandPosition_named (h : IsCommandLine verb 32 w) (hverb : 0 ∉ verb)
    (hnul : 0 ∉ w)
    (hfour : verb.length = 4) (hshort : w.length ≤ 255) :
    ∃ filename, stringIn filename = some w ∧
      commandPosition (verb ++ 32 :: w) =
        (if commandValue verb = 1 then some (.list (some filename))
        else if commandValue verb = 2 then some (.retr (some filename))
        else if commandValue verb = 3 then some (.stor (some filename))
        else if commandValue verb = 4 then some .skip
        else some .ignored) := by
  have hlen : (verb ++ 32 :: w).length < 1024 := by
    rw [List.length_append, List.length_cons]
    omega
  have hfree : 0 ∉ verb ++ 32 :: w := by
    rw [List.mem_append, List.mem_cons]
    rintro (hin | hzero | hin)
    · exact hverb hin
    · cases hzero
    · exact hnul hin
  obtain ⟨hcommand, filename, hname, hread⟩ := server_reads h hnul hlen
  have hmax : maxLine = 4096 := rfl
  have hstring :
      stringIn (zeroed maxLine (verb ++ 32 :: w)) = some (verb ++ 32 :: w) := by
    rw [stringIn_zeroed (by omega), cstr_of_not_mem hfree]
  refine ⟨filename, hread, ?_⟩
  simp only [commandPosition, hstring, hcommand, hname,
    Option.bind_eq_bind, Option.bind_some]
  split_ifs <;> rfl

theorem commandPosition_list : commandPosition (ascii "LIST") = some (.list none) := by
  have hstring : stringIn (zeroed maxLine (ascii "LIST")) = some (ascii "LIST") := by
    rw [stringIn_zeroed (by decide +kernel), cstr_of_not_mem (by decide +kernel)]
  simp only [commandPosition, hstring, Option.bind_eq_bind, Option.bind_some]
  decide +kernel

theorem commandPosition_skip : commandPosition (ascii "SKIP") = some .skip := by
  have hstring : stringIn (zeroed maxLine (ascii "SKIP")) = some (ascii "SKIP") := by
    rw [stringIn_zeroed (by decide +kernel), cstr_of_not_mem (by decide +kernel)]
  simp only [commandPosition, hstring, Option.bind_eq_bind, Option.bind_some]
  decide +kernel

theorem length_decimal_uint8 (b : UInt8) : (decimal b.toNat).length ≤ 3 := by
  have hall : ∀ n < 256, (decimal n).length ≤ 3 := by decide +kernel
  exact hall b.toNat b.toNat_lt

/-- The text of PORT is a string, and a short one. -/
theorem portText_string (hip : inetPton ip = some addr)
    (htext : generatePortCommand ip port = some portText) :
    0 ∉ portText ∧ portText.length ≤ 64 ∧ ¬ ascii "QUIT" <+: portText := by
  obtain ⟨hnul, hlen⟩ := inetPton_text hip
  rw [generatePortCommand_eq hnul hlen] at htext
  obtain rfl := Option.some.inj htext
  have hdigits : ∀ n, 0 ∉ decimal n := by
    intro n hin
    have hdigit := isdigit_of_mem_decimal hin
    exact absurd hdigit (by decide)
  have hcommas : 0 ∉ ip.map comma := by
    intro hin
    obtain ⟨b, hb, hzero⟩ := List.mem_map.mp hin
    unfold comma at hzero
    split at hzero
    · cases hzero
    · exact hnul (hzero ▸ hb)
  have hport : ascii "PORT " = 80 :: ascii "ORT " := by decide +kernel
  have hmax : inetAddrstrlen = 16 := rfl
  have hhigh := length_decimal_uint8 (port >>> 8).toUInt8
  have hlow := length_decimal_uint8 port.toUInt8
  have hfive : (ascii "PORT ").length = 5 := by decide +kernel
  refine ⟨?_, ?_, ?_⟩
  · have hword : 0 ∉ ascii "PORT " := by decide +kernel
    simp only [List.mem_append, List.mem_cons, hword, hcommas, hdigits]
    decide
  · simp only [List.length_append, List.length_cons, List.length_map, hfive]
    omega
  · rw [hport]
    rintro ⟨rest, hrest⟩
    have hquit : ascii "QUIT" = 81 :: ascii "UIT" := by decide +kernel
    rw [hquit] at hrest
    simp only [List.cons_append, List.cons.injEq] at hrest
    exact absurd hrest.1 (by decide)

/-- The server takes the address and the port from the text the client makes of them. -/
theorem portPosition_port (hip : inetPton ip = some addr)
    (htext : generatePortCommand ip port = some portText) :
    portPosition portText = some (.connects addr port) := by
  obtain ⟨hnul, hlen, hquit⟩ := portText_string hip htext
  obtain ⟨str, hstr, hread⟩ := exists_portCommand hip port
  obtain rfl := Option.some.inj (hstr.symm.trans htext)
  have hmax : maxLine = 4096 := rfl
  rw [portPosition_eq_some (by omega) (by rwa [cstr_of_not_mem hnul]),
    cstr_of_not_mem hnul]
  exact ⟨ip, port, hread, .inr ⟨addr, hip, rfl⟩⟩

theorem portPosition_quitText : portPosition (ascii "QUIT") = some .quit := by
  refine portPosition_quit (by decide +kernel) ⟨[], ?_⟩
  decide +kernel

/-- Every reply is read with the code it has. -/
theorem replyValue_text (r : Reply) : replyValue (ascii r.text) = some r.code := by
  have hstring : stringIn (zeroed (maxLine + 1) (ascii r.text)) =
    some (ascii r.text) := by
    have hshort : (ascii r.text).length < maxLine + 1 := by cases r <;> decide +kernel
    have hnul : 0 ∉ ascii r.text := by cases r <;> decide +kernel
    rw [stringIn_zeroed hshort, cstr_of_not_mem hnul]
  simp only [replyValue, hstring, Option.bind_eq_bind, Option.bind_some]
  cases r <;> decide +kernel

end Texts

section Names

variable {P : String → Prop} {f : Option Fault} {c c' : ClientPc} {v v' : ServerPc}
  {n n' : Net}
  {s s' : State}

/-- Every name that is entered, about to be sent or on its way has `P`. -/
structure NamesHave (P : String → Prop) (c : ClientPc) (n : Net) : Prop where
  commands : ∀ cmd ∈ n.commands, ∀ name ∈ cmd.name, P name
  begun : ∀ cmd, c = .accepting cmd ∨ c = .dispatch cmd → ∀ name ∈ cmd.name, P name
  sent : ∀ m ∈ n.toServer, ∀ name ∈ m.name, P name

/-- The client is between two commands, or within one. -/
def ClientPc.Busy (c : ClientPc) : Prop := ∀ cmd, c ≠ .accepting cmd ∧ c ≠ .dispatch cmd

theorem NamesHave.of_eq (h : NamesHave P c n) (hcommands : n'.commands = n.commands)
    (hsent : ∀ m ∈ n'.toServer, m ∈ n.toServer) (hbusy : c'.Busy) :
    NamesHave P c' n' := by
  refine ⟨fun cmd hcmd => h.commands cmd (hcommands ▸ hcmd), fun cmd hc => ?_,
    fun m hm => h.sent m (hsent m hm)⟩
  rcases hc with hc | hc
  · exact absurd hc (hbusy cmd).1
  · exact absurd hc (hbusy cmd).2

/-- The client sends a message with a name it has, or without one. -/
theorem NamesHave.send (h : NamesHave P c n) {m : Message} (hm : ∀ name ∈ m.name, P name)
    (hbusy : c'.Busy) : NamesHave P c' (n.send m) := by
  refine ⟨h.commands, fun cmd hc => ?_, fun m' hm' => ?_⟩
  · rcases hc with hc | hc
    · exact absurd hc (hbusy cmd).1
    · exact absurd hc (hbusy cmd).2
  · rcases List.mem_append.mp hm' with hold | hnew
    · exact h.sent m' hold
    · rw [List.mem_singleton.mp hnew]
      exact hm

theorem busy_afterRound (d : Direction) (i : Nat) : (ClientPc.afterRound d i).Busy := by
  intro cmd
  unfold ClientPc.afterRound
  split
  · exact ⟨by simp, by simp⟩
  · cases d
    · exact ⟨by simp, by simp⟩
    · exact ⟨by simp, by simp⟩

theorem busy_ite {b : Bool} (h : c.Busy) (h' : c'.Busy) :
    ClientPc.Busy (if b then c else c') := by
  cases b
  · exact h'
  · exact h

theorem NamesHave.clientStep (h : NamesHave P c n) (hstep : ClientStep f c n c' n') :
    NamesHave P c' n' := by
  cases hstep with
  | @quit _ rest hcmd =>
      refine ⟨fun cmd hmem => h.commands cmd (hcmd ▸ List.mem_cons_of_mem _ hmem),
        fun cmd hc => by simp at hc, fun m hm => ?_⟩
      rcases List.mem_append.mp hm with hold | hnew
      · exact h.sent m hold
      · rw [List.mem_singleton.mp hnew]
        exact fun name hname => nomatch hname
  | @port _ cmd rest hcmd hne =>
      refine ⟨fun cmd' hmem => h.commands cmd' (hcmd ▸ List.mem_cons_of_mem _ hmem),
        fun cmd' hc => ?_, fun m hm => ?_⟩
      · obtain rfl : cmd = cmd' := by simpa using hc
        exact h.commands cmd (hcmd ▸ List.mem_cons_self)
      · rcases List.mem_append.mp hm with hold | hnew
        · exact h.sent m hold
        · rw [List.mem_singleton.mp hnew]
          exact fun name hname => nomatch hname
  | @accept _ cmd hwaiting =>
      refine ⟨h.commands, fun cmd' hc => ?_, h.sent⟩
      obtain rfl : cmd = cmd' := by simpa using hc
      exact h.begun cmd (.inl rfl)
  | skip hcmd =>
      exact h.send (fun name hname => nomatch hname) fun cmd => ⟨by simp, by simp⟩
  | @list _ name =>
      exact h.send (h.begun (.ls name) (.inr rfl)) fun cmd => ⟨by simp, by simp⟩
  | @retr _ name =>
      exact h.send (h.begun (.get (some name)) (.inr rfl)) fun cmd => ⟨by simp, by simp⟩
  | @stor _ name =>
      exact h.send (h.begun (.put (some name)) (.inr rfl)) fun cmd => ⟨by simp, by simp⟩
  | putPrepareFails =>
      exact h.send (fun name hname => nomatch hname) fun cmd => ⟨by simp, by simp⟩
  | dhRead hitem => exact h.of_eq rfl (fun _ hm => hm) (busy_afterRound _ _)
  | dhEnd hempty hclosed => exact h.of_eq rfl (fun _ hm => hm) (busy_afterRound _ _)
  | lsControl hmsg hcode =>
      exact h.of_eq rfl (fun _ hm => hm)
        (busy_ite (fun cmd => ⟨by simp, by simp⟩) fun cmd => ⟨by simp, by simp⟩)
  | lsEnd hempty hclosed =>
      exact h.of_eq rfl (fun _ hm => hm)
        (busy_ite (fun cmd => ⟨by simp, by simp⟩) fun cmd => ⟨by simp, by simp⟩)
  | putSent =>
      exact h.of_eq rfl (fun _ hm => hm)
        (busy_ite (fun cmd => ⟨by simp, by simp⟩) fun cmd => ⟨by simp, by simp⟩)
  | _ => exact h.of_eq rfl (fun _ hm => hm) fun cmd => ⟨by simp, by simp⟩

theorem ServerStep.sent (h : ServerStep f v n v' n') :
    n'.commands = n.commands ∧ ∀ m ∈ n'.toServer, m ∈ n.toServer := by
  cases h with
  | quit hmsg | port hmsg | garbage hmsg | list hmsg | retr hmsg | stor hmsg | skip hmsg
  | unknown hmsg => exact ⟨rfl, fun m hm => hmsg ▸ List.mem_cons_of_mem _ hm⟩
  | _ => exact ⟨rfl, fun _ hm => hm⟩

theorem ClientPc.AtEof.busy (h : c.AtEof c') : c'.Busy := by
  intro cmd
  cases h <;> exact ⟨by simp, by simp⟩

theorem NamesHave.serverStep (h : NamesHave P c n) (hstep : ServerStep f v n v' n') :
    NamesHave P c n' := by
  obtain ⟨hcommands, hsent⟩ := hstep.sent
  exact ⟨fun cmd hcmd => h.commands cmd (hcommands ▸ hcmd), h.begun,
    fun m hm => h.sent m (hsent m hm)⟩

theorem NamesHave.step (h : NamesHave P s.client s.net) (hstep : Step f s s') :
    NamesHave P s'.client s'.net := by
  cases hstep with
  | client hstep => exact h.clientStep hstep
  | server hstep => exact h.serverStep hstep
  | connect hserver hlistens => exact ⟨h.commands, h.begun, h.sent⟩
  | refused hserver hgone => exact h
  | clientEof hgone hempty heof =>
      exact h.of_eq rfl (fun _ hm => hm) heof.busy
  | serverEof hgone hempty hreads => exact ⟨h.commands, h.begun, h.sent⟩
  | clientKilled hwrites hclosed =>
      exact h.of_eq rfl (fun _ hm => hm) fun cmd => ⟨by simp, by simp⟩
  | serverKilled hwrites hclosed => exact ⟨h.commands, h.begun, h.sent⟩

theorem Runs.namesHave {ok : Option Fault → Prop} {commands : List Command}
    (hnames : ∀ cmd ∈ commands, ∀ name ∈ cmd.name, P name)
    (h : Runs ok (start commands) s) :
    NamesHave P s.client s.net := by
  induction h with
  | refl =>
      exact ⟨hnames, fun cmd hc => by simp [start] at hc, fun m hm => nomatch hm⟩
  | tail _ hstep ih =>
      obtain ⟨_, _, hstep⟩ := hstep
      exact ih.step hstep

end Names

section Positions

variable {late : Prop} {f : Option Fault} {c : ClientPc} {v' : ServerPc} {n n' : Net}
  {m : Message} {rest : List Message}

theorem Behind.not_readCommand (h : Behind n .readCommand) : False := by
  cases h

/-- What the server reads in its main loop begins a command. -/
theorem Phase.at_readPort (h : Phase late c .readPort n) (hmsg : n.toServer = m :: rest) :
    (m = ⟨.port, none⟩ ∨ m = ⟨.quit, none⟩) := by
  have hhead : ∀ {m' : Message} {down : List Reply} {ahead : Nat},
    Control n [m'] down ahead →
      m = m' := fun hn => (hn.take hmsg).1
  cases h with
  | closing hv hn => exact absurd hmsg hn.not_take
  | prompt hv hn => exact absurd hmsg hn.not_take
  | quitting hv hn => exact .inr (hhead hn)
  | ported hcmd hv hn => exact .inl (hhead hn)
  | answered hc hv hn => exact absurd hmsg hn.not_take
  | listing hc hv hn hconn => exact absurd hmsg hn.not_take
  | listed hc hv hn => exact absurd hmsg hn.not_take
  | drained hv hn => exact absurd hmsg hn.not_take
  | heard hc hv hn => exact absurd hmsg hn.not_take
  | getting hc hv hn hconn => exact absurd hmsg hn.not_take
  | gotten hc hv hn => exact absurd hmsg hn.not_take
  | putting hc hv hn hconn => exact absurd hmsg hn.not_take
  | putSent hv hn hconn => exact absurd hmsg hn.not_take
  | putSkipped hlate hv hn hconn => cases hv

/-- What it reads behind that is the command. -/
theorem Phase.at_readCommand (h : Phase late c .readCommand n)
    (hmsg : n.toServer = m :: rest) :
    Control n [m] [] 0 ∧ (m = ⟨.skip, none⟩ ∨ (∃ name, m = ⟨.list, name⟩) ∨
      ∃ name d, m = request name d) := by
  have hhead : ∀ {m' : Message} {down : List Reply} {ahead : Nat},
    Control n [m'] down ahead →
      m = m' := fun hn => (hn.take hmsg).1
  cases h with
  | closing hv hn => exact absurd hmsg hn.not_take
  | prompt hv hn => exact absurd hmsg hn.not_take
  | quitting hv hn => exact hv.not_readCommand.elim
  | ported hcmd hv hn => exact hv.not_readCommand.elim
  | connected hcmd hn hconn => exact absurd hmsg hn.not_take
  | accepted hcmd hn hconn => exact absurd hmsg hn.not_take
  | skipSent hw hn =>
      obtain rfl := hhead hn
      exact ⟨hn, .inl rfl⟩
  | answered hc hv hn => exact absurd hmsg hn.not_take
  | @listSent name n hn hconn =>
      obtain rfl := hhead hn
      exact ⟨hn, .inr (.inl ⟨name, rfl⟩)⟩
  | listing hc hv hn hconn => exact absurd hmsg hn.not_take
  | listed hc hv hn => exact absurd hmsg hn.not_take
  | drained hv hn => exact absurd hmsg hn.not_take
  | heard hc hv hn => exact absurd hmsg hn.not_take
  | @asked d name n hn hconn =>
      obtain rfl := hhead hn
      exact ⟨hn, .inr (.inr ⟨name, d, rfl⟩)⟩
  | @askedSent d name n hn hconn =>
      obtain rfl := hhead hn
      exact ⟨hn, .inr (.inr ⟨name, d, rfl⟩)⟩
  | getting hc hv hn hconn => exact absurd hmsg hn.not_take
  | gotten hc hv hn => exact absurd hmsg hn.not_take
  | putting hc hv hn hconn => exact absurd hmsg hn.not_take
  | putSent hv hn hconn => exact absurd hmsg hn.not_take
  | putSkipped hlate hv hn hconn => cases hv

/-- Where the server's main loop goes with a text it has parsed: to the port of the
client. -/
inductive Begins (addr : Address) (port : UInt16) : PortOutcome → ServerPc → Prop
  | quit : Begins addr port .quit .exited
  | connects : Begins addr port (.connects addr port) .connecting

theorem readPort_step (hmsg : n.toServer = m :: rest)
    (hstep : ServerStep f .readPort n v' n') :
    (m.verb = .quit → v' = .exited) ∧ (m.verb = .port → v' = .connecting) := by
  cases hstep with
  | quit hmsg' hverb =>
      obtain ⟨rfl, _⟩ := List.cons.inj (hmsg.symm.trans hmsg')
      exact ⟨fun _ => rfl, fun hport => (nomatch hport.symm.trans hverb)⟩
  | port hmsg' hverb =>
      obtain ⟨rfl, _⟩ := List.cons.inj (hmsg.symm.trans hmsg')
      exact ⟨fun hquit => (nomatch hquit.symm.trans hverb), fun _ => rfl⟩
  | garbage hmsg' hquit hport =>
      obtain ⟨rfl, _⟩ := List.cons.inj (hmsg.symm.trans hmsg')
      exact ⟨fun h => absurd h hquit, fun h => absurd h hport⟩

variable {portText : Bytes}

/-- The bytes of a command lead the server where the message does. -/
theorem command_takes (hform : m = ⟨.skip, none⟩ ∨ (∃ name, m = ⟨.list, name⟩) ∨
      ∃ name d, m = request name d) (hnames : ∀ name ∈ m.name, Named name) :
    ∃ outcome, commandPosition (m.text portText) = some outcome ∧
      Takes outcome (afterCommand m) := by
  rcases hform with rfl | ⟨name, rfl⟩ | ⟨name, d, rfl⟩
  · exact ⟨.skip, commandPosition_skip, .skip⟩
  · cases name with
    | none => exact ⟨.list none, commandPosition_list, .listAll⟩
    | some name =>
        have hname := hnames name rfl
        have hverb : Word isspace (ascii "LIST") := ⟨by decide +kernel, by decide +kernel⟩
        obtain ⟨filename, hread, hposition⟩ :=
          commandPosition_named (hname.commandLine hverb)
          (by decide +kernel) hname.noNul (by decide +kernel) hname.short
        have hvalue : commandValue (ascii "LIST") = 1 := by decide +kernel
        rw [hvalue] at hposition
        exact ⟨_, hposition, .list hread⟩
  · cases d with
    | get =>
        have hname := hnames name rfl
        have hverb : Word isspace (ascii "RETR") := ⟨by decide +kernel, by decide +kernel⟩
        obtain ⟨filename, hread, hposition⟩ :=
          commandPosition_named (hname.commandLine hverb)
          (by decide +kernel) hname.noNul (by decide +kernel) hname.short
        have hvalue : commandValue (ascii "RETR") = 2 := by decide +kernel
        rw [hvalue] at hposition
        exact ⟨_, hposition, .retr hread⟩
    | put =>
        have hname := hnames name rfl
        have hverb : Word isspace (ascii "STOR") := ⟨by decide +kernel, by decide +kernel⟩
        obtain ⟨filename, hread, hposition⟩ :=
          commandPosition_named (hname.commandLine hverb)
          (by decide +kernel) hname.noNul (by decide +kernel) hname.short
        have hvalue : commandValue (ascii "STOR") = 3 := by decide +kernel
        rw [hvalue] at hposition
        exact ⟨_, hposition, .stor hread⟩

end Positions

/-- The bytes on the control connection say what the messages do: in every state of such
a session whatever the server is about to read is parsed, and leads its main loop where
the message leads it, behind PORT to the client's address and port, behind a command to
its handler with the same name; and every reply is read with its code. -/
theorem session_wire (commands : List Command) (s : State) (ip portText : Bytes)
    (addr : Address)
    (port : UInt16) (hnames : ∀ cmd ∈ commands, ∀ name ∈ cmd.name, Named name)
    (hip : inetPton ip = some addr) (htext : generatePortCommand ip port = some portText)
    (h : Runs (fun f => f = none ∨ f = some .putPrepare) (start commands) s) :
    (∀ m rest, s.net.toServer = m :: rest → s.server = .readPort →
      ∃ outcome, portPosition (m.text portText) = some outcome ∧
        (m.verb = .port → outcome = .connects addr port) ∧
        ∀ f v n, ServerStep f s.server s.net v n → Begins addr port outcome v) ∧
    (∀ m rest, s.net.toServer = m :: rest → s.server = .readCommand →
      ∃ outcome, commandPosition (m.text portText) = some outcome ∧
        ∀ f v n, ServerStep f s.server s.net v n → Takes outcome v) ∧
    ∀ r ∈ s.net.toClient, replyValue (ascii r.2.text) = some r.2.code := by
  have hkeeps : ∀ g, g = none ∨ g = some .putPrepare → Keeps True g :=
    fun g hg => hg.imp id fun hput => ⟨hput, trivial⟩
  have hphase : Phase True s.client s.server s.net := Runs.phase hkeeps h
  have hhave := Runs.namesHave hnames h
  refine ⟨fun m rest hmsg hserver => ?_, fun m rest hmsg hserver => ?_,
    fun r _ => replyValue_text r.2⟩
  · rw [hserver] at hphase ⊢
    rcases hphase.at_readPort hmsg with rfl | rfl
    · refine ⟨_, portPosition_port hip htext, fun _ => rfl, fun f v n hstep => ?_⟩
      rw [(readPort_step hmsg hstep).2 rfl]
      exact .connects
    · refine ⟨_, portPosition_quitText, fun hport => ?_, fun f v n hstep => ?_⟩
      · cases hport
      rw [(readPort_step hmsg hstep).1 rfl]
      exact .quit
  · rw [hserver] at hphase ⊢
    obtain ⟨hcontrol, hform⟩ := hphase.at_readCommand hmsg
    have hsent := hhave.sent m (hmsg ▸ List.mem_cons_self)
    obtain ⟨outcome, hposition, htakes⟩ := @command_takes m portText hform hsent
    refine ⟨outcome, hposition, fun f v n hstep => ?_⟩
    rw [(readCommand_step hcontrol hstep).1]
    exact htakes

/-- Such a session, when the client has sent RETR. -/
theorem session_wire_get : ∃ s portText outcome,
    Runs (fun f => f = none ∨ f = some .putPrepare) (start [.get (some "f")]) s ∧
      s.net.toServer = [⟨.retr, some "f"⟩] ∧
      generatePortCommand loopbackText 5120 = some portText ∧
      commandPosition (Message.text portText ⟨.retr, some "f"⟩) = some outcome ∧
      ∀ f v n, ServerStep f s.server s.net v n → Takes outcome v := by
  have hok : (none : Option Fault) = none ∨ none = some Fault.putPrepare := .inl rfl
  have hbegun : Runs (fun f => f = none ∨ f = some .putPrepare) (start [.get (some "f")])
      ⟨.dispatch (.get (some "f")), .readCommand,
        (start [.get (some "f")]).net.begun []⟩ :=
    Runs.begins hok .refl rfl (by decide) rfl
  have hasked := hbegun.client hok .retr
  have hnames : ∀ cmd ∈ [Command.get (some "f")], ∀ name ∈ cmd.name, Named name := by
    intro cmd hcmd name hname
    rw [List.mem_singleton.mp hcmd] at hname
    obtain rfl := Option.some.inj hname
    exact ⟨⟨by decide +kernel, by decide +kernel⟩, by decide +kernel, by decide +kernel⟩
  have hip : inetPton loopbackText = some #v[127, 0, 0, 1] := by decide +kernel
  obtain ⟨portText, htext, _⟩ := exists_portCommand hip 5120
  obtain ⟨_, hcommand, _⟩ :=
    session_wire _ _ loopbackText portText #v[127, 0, 0, 1] 5120 hnames hip htext hasked
  obtain ⟨outcome, hposition, htakes⟩ := hcommand _ _ rfl rfl
  exact ⟨_, portText, outcome, hasked, rfl, htext, hposition, htakes⟩

end EcFtp.Ftp
