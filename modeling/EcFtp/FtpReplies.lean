/-
What the reads of a session get.  Each command is answered once, in its turn; the
control connection never holds more than one message; and what is read from a data
connection as a public value was sent as one, and what is read as part of a file or a
listing was not.
-/
import EcFtp.FtpSessions
import Mathlib.Data.List.Infix

namespace EcFtp.Ftp

/-- The client has begun a command, and not heard the reply that ends it. -/
def ClientPc.owed : ClientPc → Nat
  | .prompt => 0
  | .closing => 0
  | .finished => 0
  | .lsSelect control _ => if control then 0 else 1
  | .lsDrain control => if control then 0 else 1
  | .putSelect control => if control then 0 else 1
  | .putSend control => if control then 0 else 1
  | _ => 1

/-- The replies heard so far are those to the first commands, one each. -/
def Answered (c : ClientPc) (n : Net) : Prop :=
  n.heard.map Heard.client = List.range' 1 (n.entered - c.owed) ∧ c.owed ≤ n.entered

/-- The points of `do_put` behind the reply, which a session with nothing wrong in it
does not come to: the reply is sent behind the end of the file. -/
inductive ClientPc.HeardEarly : ClientPc → Prop
  | select : HeardEarly (.putSelect true)
  | send : HeardEarly (.putSend true)

section Answers

variable {late : Prop} {f : Option Fault} {c c' : ClientPc} {v v' : ServerPc} {n n' : Net}
  {s s' : State}

theorem Phase.not_heardEarly (h : Phase late c v n) : ¬ c.HeardEarly := by
  intro hearly
  cases h with
  | answered hc => cases hc <;> cases hearly
  | listing hc => cases hc <;> cases hearly
  | listed hc => cases hc <;> cases hearly
  | heard hc => cases hc <;> cases hearly
  | getting hc => cases hc <;> cases hearly
  | gotten hc =>
      generalize n.conn.toClient = down at hc
      cases hc <;> cases hearly
  | putting hc => cases hc <;> cases hearly
  | _ => cases hearly

/-- One more reply. -/
theorem Answered.hear (h : Answered c n) (howed : c.owed = 1) (hpaid : c'.owed = 0)
    (tagged : Nat × Reply) (rest : List (Nat × Reply)) :
    Answered c' (n.hear tagged rest) := by
  obtain ⟨hheard, hle⟩ := h
  rw [howed] at hheard hle
  refine ⟨?_, hpaid ▸ Nat.zero_le _⟩
  obtain ⟨k, hk⟩ : ∃ k, n.entered = k + 1 := ⟨n.entered - 1, by omega⟩
  change (n.heard ++ [_]).map Heard.client = List.range' 1 (n.entered - c'.owed)
  rw [hpaid, List.map_append, hheard, hk, Nat.add_sub_cancel,
    Nat.sub_zero, List.range'_concat]
  simp [Nat.add_comm]

/-- One more command. -/
theorem Answered.enter (h : Answered c n) (hpaid : c.owed = 0) (howed : c'.owed = 1)
    (rest : List Command) (m : Message) : Answered c' ((n.enter rest).send m) := by
  obtain ⟨hheard, _⟩ := h
  rw [hpaid] at hheard
  refine ⟨?_, howed ▸ Nat.le_add_left 1 n.entered⟩
  change n.heard.map Heard.client = List.range' 1 (n.entered + 1 - c'.owed)
  rw [howed, hheard]
  rfl

/-- Nothing that concerns the replies. -/
theorem Answered.of_eq (h : Answered c n) (hheard : n'.heard = n.heard)
    (hentered : n'.entered = n.entered) (howed : c'.owed = c.owed) : Answered c' n' := by
  unfold Answered
  rw [hheard, hentered, howed]
  exact h

theorem owed_afterRound (d : Direction) (i : Nat) :
    (ClientPc.afterRound d i).owed = 1 := by
  unfold ClientPc.afterRound
  split
  · rfl
  · cases d <;> rfl

/-- A step of the client keeps count of the replies. -/
theorem Answered.clientStep (hf : Keeps late f) (h : Answered c n)
    (hearly : ¬ c.HeardEarly)
    (hstep : ClientStep f c n c' n') : Answered c' n' := by
  cases hstep with
  | quit hcmds => exact h.enter rfl rfl _ _
  | port hcmds hcmd => exact h.enter rfl rfl _ _
  | quitReply hmsg => exact h.hear rfl rfl _ _
  | skipReply hmsg => exact h.hear rfl rfl _ _
  | getReply hmsg => exact h.hear rfl rfl _ _
  | putSkipReply hmsg => exact h.hear rfl rfl _ _
  | putReply hmsg => exact h.hear rfl rfl _ _
  | lsRefused hmsg hcode => exact h.hear rfl rfl _ _
  | @lsControl _ data r rest hmsg hcode => cases data <;> exact h.hear rfl rfl _ _
  | @putRefused _ control r rest hmsg hcode =>
      cases control with
      | false => exact h.hear rfl rfl _ _
      | true => exact absurd .select hearly
  | @putControl _ control r rest hmsg hcode =>
      cases control with
      | false => exact h.hear rfl rfl _ _
      | true => exact absurd .select hearly
  | @lsEnd _ control hempty hclosed => cases control <;> exact h.of_eq rfl rfl rfl
  | @putSent _ control =>
      cases control with
      | false => exact h.of_eq rfl rfl rfl
      | true => exact absurd .send hearly
  | @dhRead _ d i item rest hitem => exact h.of_eq rfl rfl (owed_afterRound d i)
  | @dhEnd _ d i hempty hclosed => exact h.of_eq rfl rfl (owed_afterRound d i)
  | getOpenFails => exact absurd hf not_keeps_getOpen
  | putOpenFails => exact absurd hf not_keeps_putOpen
  | _ => exact h.of_eq rfl rfl rfl

theorem ServerStep.answered (h : Answered c n) (hstep : ServerStep f v n v' n') :
    Answered c n' := by
  cases hstep <;> exact h.of_eq rfl rfl rfl

/-- So does any step within the phases. -/
theorem Answered.step (hf : Keeps late f) (hphase : Phase late s.client s.server s.net)
    (h : Answered s.client s.net) (hstep : Step f s s') : Answered s'.client s'.net := by
  cases hstep with
  | client hstep => exact h.clientStep hf hphase.not_heardEarly hstep
  | server hstep => exact hstep.answered h
  | connect hserver hlistens => exact h.of_eq rfl rfl rfl
  | refused hserver hgone => exact h
  | clientEof hgone hempty heof =>
      rcases hphase.serverGone hgone with ⟨_, hreply⟩ | hfinished
      · exact absurd hempty hreply
      · rw [hfinished] at heof
        cases heof
  | serverEof hgone hempty hreads => exact h.of_eq rfl rfl rfl
  | clientKilled hwrites hclosed => exact absurd hclosed (hphase.clientWrites hwrites)
  | serverKilled hwrites hclosed => exact h.of_eq rfl rfl rfl

/-- Every command is answered once: at the prompt the client has heard one reply to
each command it has taken, in their order. -/
theorem session_answers (commands : List Command) (s : State)
    (h : Runs (fun f => f = none ∨ f = some .putPrepare) (start commands) s) :
    s.net.heard.map Heard.client = List.range' 1 (s.net.entered - s.client.owed) ∧
      (s.client = .prompt → s.net.heard.length = s.net.entered) := by
  have hanswered : Answered s.client s.net := by
    induction h with
    | refl => exact ⟨rfl, Nat.zero_le _⟩
    | tail hruns hstep ih =>
        obtain ⟨f, hf, hstep⟩ := hstep
        have hkeeps : ∀ g, g = none ∨ g = some .putPrepare → Keeps True g :=
          fun g hg => hg.imp id fun hput => ⟨hput, trivial⟩
        exact ih.step (hkeeps f hf) (Runs.phase hkeeps hruns) hstep
  refine ⟨hanswered.1, fun hprompt => ?_⟩
  have hlen := congrArg List.length hanswered.1
  rw [hprompt, List.length_map, List.length_range'] at hlen
  exact hlen

/-- A session of one `put`, up to the next prompt. -/
theorem session_answers_put : ∃ s,
    Runs (fun f => f = none ∨ f = some .putPrepare) (start [.put (some "f")]) s ∧
      s.client = .prompt ∧ s.net.heard.length = s.net.entered ∧ s.net.entered = 1 := by
  have hok : (none : Option Fault) = none ∨ none = some Fault.putPrepare := .inl rfl
  have hagreed :=
    @runs_transfer (fun f => f = none ∨ f = some .putPrepare) hok .put "f" []
  have hprepared := hagreed.client hok .putPrepare
  have hopened := hprepared.client hok .putOpen
  have hselected := hopened.client hok .putData
  have hsent := hselected.client hok .putBlock
  have hended := hsent.client hok .putSent
  have hreceives := hended.server hok .storOpen
  have hstored := hreceives.server hok (.storBlock rfl)
  have heof := hstored.server hok (.storEnd rfl rfl)
  have hreplied := heof.server hok .reply
  have hheard := hreplied.client hok (.putReply rfl)
  have hprompt := hheard.client hok .close
  exact ⟨_, hprompt, rfl, (session_answers _ _ hprompt).2 rfl, rfl⟩

end Answers

/-- What is to be read after the public value the client is waiting for. -/
def ClientPc.behindWord : ClientPc → List Item → List Item
  | .dhRead _ _, l => l.tail
  | _, l => l

def AllBlocks (l : List Item) : Prop := ∀ item ∈ l, item = .block

/-- Behind the public values there are only blocks on their way: to the client always,
to the server once it is in the rest of `do_stor`. -/
structure Framed (c : ClientPc) (v : ServerPc) (conn : DataConn) : Prop where
  down : AllBlocks (c.behindWord conn.toClient)
  up : Stores v → AllBlocks conn.toServer

section Framing

variable {late : Prop} {f : Option Fault} {c c' : ClientPc} {v v' : ServerPc} {n n' : Net}
  {s s' : State} {l rest : List Item} {item : Item}

theorem allBlocks_nil : AllBlocks [] := fun _ hmem => nomatch hmem

theorem AllBlocks.append (h : AllBlocks l) : AllBlocks (l ++ [.block]) := by
  intro item hmem
  rcases List.mem_append.mp hmem with hold | hnew
  · exact h item hold
  · exact List.mem_singleton.mp hnew

theorem AllBlocks.tail (h : AllBlocks l) : AllBlocks l.tail :=
  fun item hmem => h item (List.mem_of_mem_tail hmem)

theorem AllBlocks.behindWord (h : AllBlocks l) (c : ClientPc) :
    AllBlocks (c.behindWord l) := by
  cases c with
  | dhRead d i => exact h.tail
  | _ => exact h

/-- A block that the server sends comes behind the public value, if there is one. -/
theorem behindWord_append (h : AllBlocks (c.behindWord l)) :
    AllBlocks (c.behindWord (l ++ [.block])) := by
  cases c with
  | dhRead d i =>
      cases l with
      | nil => exact allBlocks_nil
      | cons first rest => exact AllBlocks.append h
  | _ => exact AllBlocks.append h

theorem behindWord_afterRound (d : Direction) (i : Nat) (l : List Item) :
    (ClientPc.afterRound d i).behindWord l = l := by
  unfold ClientPc.afterRound
  split
  · rfl
  · cases d <;> rfl

/-- In the key agreement at most the one value is on its way to the server. -/
theorem Phase.toServer_dhRead {d : Direction} {name : Option String} {i : Nat}
    (h : Phase late c (.dhRead d name i) n) :
    n.conn.toServer = [] ∨ n.conn.toServer = [.word] := by
  cases h with
  | round hi hn hconn => exact .inl (congrArg DataConn.toServer hconn)
  | roundSent hi hn hconn => exact .inr (congrArg DataConn.toServer hconn)
  | roundAnswered hi hn hconn => exact .inl (congrArg DataConn.toServer hconn)
  | closing hv => cases hv
  | prompt hv => cases hv
  | quitting hv => cases hv
  | ported hcmd hv => cases hv
  | answered hc hv => cases hv
  | listing hc hv => cases hv
  | listed hc hv => cases hv
  | drained hv => cases hv
  | heard hc hv => cases hv
  | getting hc hv => cases hv
  | gotten hc hv => cases hv
  | putting hc hv => cases hv
  | putSent hv => cases hv
  | putSkipped hlate hv => cases hv

/-- The client that waits for a value finds one, if anything. -/
theorem Phase.toClient_dhRead {d : Direction} {i : Nat}
    (h : Phase late (.dhRead d i) v n) :
    n.conn.toClient = [] ∨ ∃ rest, n.conn.toClient = .word :: rest := by
  cases h with
  | askedSent hn hconn => exact .inl (congrArg DataConn.toClient hconn)
  | roundSent hi hn hconn => exact .inl (congrArg DataConn.toClient hconn)
  | roundHeard hi hn hconn => exact .inl (congrArg DataConn.toClient hconn)
  | roundAnswered hi hn hconn => exact .inr ⟨[], congrArg DataConn.toClient hconn⟩
  | getting hc hv hn hconn =>
      cases hc with
      | last down => exact .inr ⟨down, congrArg DataConn.toClient hconn⟩
  | gotten hc hv hn =>
      generalize n.conn.toClient = down at hc
      cases hc with
      | last down => exact .inr ⟨down, rfl⟩
  | putting hc hv hn hconn =>
      cases hc with
      | last => exact .inr ⟨[], congrArg DataConn.toClient hconn⟩
  | answered hc => cases hc
  | listing hc => cases hc
  | listed hc => cases hc
  | heard hc => cases hc

/-- While the client sends a value there is nothing else to read for the server. -/
theorem Phase.not_stores_dhWrite {d : Direction} {i : Nat}
    (h : Phase late (.dhWrite d i) v n) :
    ¬ Stores v := by
  intro hstores
  cases h with
  | asked => cases hstores
  | round => cases hstores
  | answered hc => cases hc
  | listing hc => cases hc
  | listed hc => cases hc
  | heard hc => cases hc
  | getting hc => cases hc
  | gotten hc =>
      generalize n.conn.toClient = down at hc
      cases hc
  | putting hc => cases hc

/-- While the server sends a value there is nothing on its way, and the client waits. -/
theorem Phase.at_serverDhWrite {d : Direction} {name : Option String} {i : Nat}
    (h : Phase late c (.dhWrite d name i) n) :
    c = .dhRead d i ∧ n.conn.toClient = [] ∧ n.conn.toServer = [] := by
  cases h with
  | roundHeard hi hn hconn =>
      exact ⟨rfl, congrArg DataConn.toClient hconn, congrArg DataConn.toServer hconn⟩
  | closing hv => cases hv
  | prompt hv => cases hv
  | quitting hv => cases hv
  | ported hcmd hv => cases hv
  | answered hc hv => cases hv
  | listing hc hv => cases hv
  | listed hc hv => cases hv
  | drained hv => cases hv
  | heard hc hv => cases hv
  | getting hc hv => cases hv
  | gotten hc hv => cases hv
  | putting hc hv => cases hv
  | putSent hv => cases hv
  | putSkipped hlate hv => cases hv

/-- At most one message is on its way on the control connection, either way. -/
theorem Phase.one_message (h : Phase late c v n) :
    n.toServer.length + n.toClient.length ≤ 1 := by
  have hcounts : ∀ {up : List Message} {down : List Reply} {ahead : Nat},
      Control n up down ahead → up.length + down.length ≤ 1 →
        n.toServer.length + n.toClient.length ≤ 1 := by
    intro up down ahead hn hle
    rw [hn.toServer, hn.toClient, List.length_map]
    exact hle
  cases h <;> exact hcounts (by assumption) (by simp)

/-- The client keeps to it. -/
theorem Framed.clientStep (hphase : Phase late c v n) (h : Framed c v n.conn)
    (hstep : ClientStep f c n c' n') : Framed c' v n'.conn := by
  cases hstep with
  | dhWrite =>
      exact ⟨h.down.tail, fun hstores => absurd hstores hphase.not_stores_dhWrite⟩
  | @dhRead _ d i item rest hitem =>
      refine ⟨?_, h.up⟩
      have hrest : AllBlocks n.conn.toClient.tail := h.down
      rw [hitem] at hrest
      rw [behindWord_afterRound]
      exact hrest
  | @dhEnd _ d i hempty hclosed =>
      refine ⟨?_, h.up⟩
      rw [behindWord_afterRound, hempty]
      exact allBlocks_nil
  | lsBlock hitem =>
      refine ⟨?_, h.up⟩
      have hall : AllBlocks n.conn.toClient := h.down
      rw [hitem] at hall
      exact hall.tail
  | getBlock hitem =>
      refine ⟨?_, h.up⟩
      have hall : AllBlocks n.conn.toClient := h.down
      rw [hitem] at hall
      exact hall.tail
  | putBlock => exact ⟨h.down, fun hstores => (h.up hstores).append⟩
  | @lsControl _ data _ _ hmsg hcode => cases data <;> exact ⟨h.down, h.up⟩
  | @lsEnd _ control hempty hclosed => cases control <;> exact ⟨h.down, h.up⟩
  | @putSent _ control => cases control <;> exact ⟨h.down, h.up⟩
  | _ => exact ⟨h.down, h.up⟩

/-- The server keeps to it. -/
theorem Framed.serverStep (hphase : Phase late c v n) (h : Framed c v n.conn)
    (hstep : ServerStep f v n v' n') : Framed c v' n'.conn := by
  cases hstep with
  | @dhWrite _ d name i =>
      obtain ⟨rfl, hdown, hup⟩ := hphase.at_serverDhWrite
      refine ⟨?_, fun _ => ?_⟩
      · change AllBlocks (n.conn.toClient ++ [Item.word]).tail
        rw [hdown]
        exact allBlocks_nil
      · change AllBlocks n.conn.toServer
        rw [hup]
        exact allBlocks_nil
  | listBlock => exact ⟨behindWord_append h.down, fun hstores => nomatch hstores⟩
  | retrBlock => exact ⟨behindWord_append h.down, fun hstores => nomatch hstores⟩
  | storOpen => exact ⟨h.down, fun _ => h.up (.opens _)⟩
  | storBlock hitem =>
      refine ⟨h.down, fun _ => ?_⟩
      have hall : AllBlocks n.conn.toServer := h.up .receives
      rw [hitem] at hall
      exact hall.tail
  | _ => exact ⟨h.down, fun hstores => nomatch hstores⟩

theorem framed_fresh (c : ClientPc) (v : ServerPc) : Framed c v .fresh :=
  ⟨allBlocks_nil.behindWord c, fun _ => allBlocks_nil⟩

/-- So does every step within the phases. -/
theorem Framed.step (hphase : Phase late s.client s.server s.net)
    (h : Framed s.client s.server s.net.conn) (hstep : Step f s s') :
    Framed s'.client s'.server s'.net.conn := by
  cases hstep with
  | client hstep => exact h.clientStep hphase hstep
  | server hstep => exact h.serverStep hphase hstep
  | connect hserver hlistens => exact framed_fresh _ _
  | refused hserver hgone => exact ⟨h.down, fun hstores => nomatch hstores⟩
  | clientEof hgone hempty heof =>
      rcases hphase.serverGone hgone with ⟨_, hreply⟩ | hfinished
      · exact absurd hempty hreply
      · rw [hfinished] at heof
        cases heof
  | serverEof hgone hempty hreads => exact ⟨h.down, fun hstores => nomatch hstores⟩
  | clientKilled hwrites hclosed => exact absurd hclosed (hphase.clientWrites hwrites)
  | serverKilled hwrites hclosed => exact ⟨h.down, fun hstores => nomatch hstores⟩

/-- What the reads of the two are about to take, where they take something. -/
structure State.Typed (s : State) : Prop where
  clientWord : ∀ d i item rest, s.client = .dhRead d i →
    s.net.conn.toClient = item :: rest → item = .word
  clientBlock : ∀ item rest, s.client = .getRecv ∨
    (∃ control, s.client = .lsDrain control) →
    s.net.conn.toClient = item :: rest → item = .block
  serverWord : ∀ d name i item rest, s.server = .dhRead d name i →
    s.net.conn.toServer = item :: rest → item = .word ∧ rest = []
  serverBlock : ∀ item rest, s.server = .storRead →
    s.net.conn.toServer = item :: rest → item = .block

theorem Framed.typed (hphase : Phase late s.client s.server s.net)
    (h : Framed s.client s.server s.net.conn) : s.Typed where
  clientWord d i item rest hclient hitem := by
    rw [hclient] at hphase
    rcases hphase.toClient_dhRead with hempty | ⟨_, hword⟩
    · cases hempty.symm.trans hitem
    · cases hword.symm.trans hitem
      rfl
  clientBlock item rest hclient hitem := by
    have hall : AllBlocks (s.client.behindWord s.net.conn.toClient) := h.down
    rw [hitem] at hall
    rcases hclient with hget | ⟨control, hls⟩
    · rw [hget] at hall
      exact hall item List.mem_cons_self
    · rw [hls] at hall
      exact hall item List.mem_cons_self
  serverWord d name i item rest hserver hitem := by
    rw [hserver] at hphase
    rcases hphase.toServer_dhRead with hempty | hword
    · cases hempty.symm.trans hitem
    · cases hword.symm.trans hitem
      exact ⟨rfl, rfl⟩
  serverBlock item rest hserver hitem := by
    have hall : AllBlocks s.net.conn.toServer := h.up (hserver ▸ .receives)
    rw [hitem] at hall
    exact hall item List.mem_cons_self

/-- However the two interleave, a read of the key agreement takes a public value
and nothing else does, and the client never has more than one message of the control
connection to wait for. -/
theorem session_typed (commands : List Command) (s : State)
    (h : Runs (fun f => f = none ∨ f = some .putPrepare) (start commands) s) :
    s.Typed ∧ s.net.toServer.length + s.net.toClient.length ≤ 1 := by
  have hkeeps : ∀ g, g = none ∨ g = some .putPrepare → Keeps True g :=
    fun g hg => hg.imp id fun hput => ⟨hput, trivial⟩
  have hphase : Phase True s.client s.server s.net := Runs.phase hkeeps h
  have hframed : Framed s.client s.server s.net.conn := by
    induction h with
    | refl => exact ⟨allBlocks_nil, fun _ => allBlocks_nil⟩
    | tail hruns hstep ih =>
        obtain ⟨f, hf, hstep⟩ := hstep
        have hbefore := Runs.phase hkeeps hruns
        exact (ih hbefore).step hbefore hstep
  exact ⟨hframed.typed hphase, hphase.one_message⟩

/-- Such a session, when the client has sent its first public value. -/
theorem session_typed_get : ∃ s,
    Runs (fun f => f = none ∨ f = some .putPrepare) (start [.get (some "f")]) s ∧
      s.client = .dhRead .get 0 ∧ s.net.conn.toServer = [.word] ∧
      s.net.toServer.length = 1 ∧
      s.Typed ∧ s.net.toServer.length + s.net.toClient.length ≤ 1 := by
  have hok : (none : Option Fault) = none ∨ none = some Fault.putPrepare := .inl rfl
  have hbegun : Runs (fun f => f = none ∨ f = some .putPrepare) (start [.get (some "f")])
      ⟨.dispatch (.get (some "f")), .readCommand,
        (start [.get (some "f")]).net.begun []⟩ :=
    Runs.begins hok .refl rfl (by decide) rfl
  have hasked := hbegun.client hok .retr
  have hwritten := hasked.client hok .dhWrite
  exact ⟨_, hwritten, rfl, rfl, rfl, session_typed _ _ hwritten⟩

end Framing

end EcFtp.Ftp
