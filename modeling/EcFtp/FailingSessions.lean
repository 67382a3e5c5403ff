/-
Whichever of the checked calls fail during the commands of a session, wherever their data
connections break off, and whenever one of the two processes is killed: every file of the
two hosts is a beginning of a file that one of them had under the same name, and the files
no command names are as they were.
-/
import EcFtp.HostCopies
import EcFtp.ReceivedPrefix

namespace EcFtp

open Duplex Exec

section Handlers

variable (lzma : Lzma) (pieces : List Nat) (key : Key)

/-- The handler of the side that sends. -/
def sendActivity (env : PrepareEnv) (opens : Bool) :
    DhRole → Option Path → FileActivity Bytes
  | .client => putActivity lzma pieces env opens key
  | .server => retrActivity lzma pieces env opens key

/-- The handler of the side that receives. -/
def recvActivity (env : ProcessEnv) (host : RecvHost) :
    DhRole → Option Path → FileActivity PUnit
  | .client => getActivity lzma pieces env host key
  | .server => storActivity lzma pieces env host key

/-- What the side that sends has to send: the prepared file, where it could be opened. -/
def bytesToSend (env : PrepareEnv) (opens : Bool) (filename : Path) (fs : FileSystem) :
    Bytes :=
  match prepareFile lzma env filename key fs with
  | .error _ _ => []
  | .ok preparedFp fs' => if opens then (fs'.content preparedFp).getD [] else []

end Handlers

/-- One command, however it goes, and the files it leaves.  What is received is a
beginning of what there was to send, and whoever has received any of it has been through
the exchange of the keys; either side may be stopped between any two of its calls. -/
structure Attempt (lzma : Lzma) (h : Hosts) (cmd : TransferCommand) where
  key : Key
  penv : PrepareEnv
  opens : Bool
  sendPieces : List Nat
  renv : ProcessEnv
  rhost : RecvHost
  rkey : Key
  recvPieces : List Nat
  senderFs : FileSystem
  receiverFs : FileSystem
  begins : rhost.received <+: bytesToSend lzma key penv opens cmd.name (h.files cmd.sends)
  agreed : rhost.received ≠ [] → rkey = key
  senderStops : senderFs ∈ (sendActivity lzma sendPieces key penv opens cmd.sends
    (some cmd.name)).activity.trace (h.files cmd.sends)
  receiverStops :
    receiverFs ∈ (recvActivity lzma recvPieces rkey renv rhost cmd.sends.other
    (some cmd.name)).activity.trace (h.files cmd.sends.other)

def Attempt.leaves {lzma : Lzma} {h : Hosts} {cmd : TransferCommand}
    (a : Attempt lzma h cmd) :
    Hosts :=
  (h.withFiles a.senderFs cmd.sends).withFiles a.receiverFs cmd.sends.other

/-- Some commands, one after the other. -/
inductive Attempts (lzma : Lzma) : Hosts → List TransferCommand → Hosts → Prop
  | nil (h : Hosts) : Attempts lzma h [] h
  | cons {h h' : Hosts} {cmd : TransferCommand} {cmds : List TransferCommand}
      (a : Attempt lzma h cmd) (rest : Attempts lzma a.leaves cmds h') :
      Attempts lzma h (cmd :: cmds) h'

/-- The files of the two hosts, those of temporary names left aside, are beginnings of the
files there were; none is missing, and those no command names are unchanged. -/
structure OnlyBeginnings (cmds : List TransferCommand) (h h' : Hosts) : Prop where
  begins : ∀ role fp y, (∀ cmd ∈ cmds, ¬ IsTempName cmd.name fp) →
    h'.files role fp = some y →
    ∃ role₀ x, h.files role₀ fp = some x ∧ y.bytes <+: x.bytes
  stays : ∀ role fp, (∀ cmd ∈ cmds, ¬ IsTempName cmd.name fp) → h'.files role fp = none →
    h.files role fp = none
  others : ∀ role fp, (∀ cmd ∈ cmds, ¬ IsTempName cmd.name fp) →
    (∀ cmd ∈ cmds, cmd.name ≠ fp) →
    h'.files role fp = h.files role fp

theorem isTempName_of_mem {filename fp : Path} {compDigits encDigits : Digits}
    (h : fp ∈ tempFiles filename compDigits encDigits) : IsTempName filename fp := by
  rcases List.mem_append.mp h with hcomp | henc
  · obtain ⟨d, _, rfl⟩ := List.mem_map.mp hcomp
    exact .inl ⟨d, rfl⟩
  · obtain ⟨d, _, rfl⟩ := List.mem_map.mp henc
    exact .inr ⟨d, rfl⟩

/-- The sending side touches temporary files only. -/
theorem onlyTemp_sendActivity {lzma : Lzma} {pieces : List Nat} {key : Key}
    {env : PrepareEnv}
    {opens : Bool} {filename : Path} (role : DhRole) :
    OnlyTemp filename (sendActivity lzma pieces key env opens role (some filename)) := by
  have htemp : ∀ f ∈ some filename, ∀ fp ∈ tempFiles f env.compDigits env.encDigits,
      fp ∈ Set.univ ∧ fp ∈ {fp | IsTempName filename fp} := by
    intro f hf fp hfp
    cases hf
    exact ⟨Set.mem_univ _, isTempName_of_mem hfp⟩
  cases role with
  | client => exact within_putActivity (fun _ _ => Set.mem_univ _) htemp
  | server => exact within_retrActivity (fun _ _ => Set.mem_univ _) htemp

section Sessions

variable {lzma : Lzma} {h h' h'' : Hosts} {cmd : TransferCommand}
  {cmds : List TransferCommand}

/-- What is received becomes a beginning of the file that was to be sent, or nothing. -/
theorem Attempt.receiver_leavesOnly (hundoes : lzma.Undoes) (a : Attempt lzma h cmd) :
    LeavesOnly (fun bs => ∃ x, h.files cmd.sends cmd.name = some x ∧
      bs <+: x.bytes) cmd.name
      (h.files cmd.sends.other) a.receiverFs := by
  have hdec : ∀ d, Decrypts a.renv (.clip a.rhost.received) a.rkey d → ∀ env written,
      (finalState (uncompFileOf lzma env d)).MayHold written →
        ∃ x, h.files cmd.sends cmd.name = some x ∧ written <+: x.bytes := by
    intro d hd env written hwritten
    by_cases hnil : a.rhost.received = []
    · rw [hnil] at hd
      exact absurd hd.1 (decFileOf_empty rfl)
    · have hbegins := a.begins
      rw [a.agreed hnil] at hd
      unfold bytesToSend at hbegins
      cases hprepare : prepareFile lzma a.penv cmd.name a.key (h.files cmd.sends) with
      | error ex fs' =>
          rw [hprepare] at hbegins
          exact absurd (List.prefix_nil.mp hbegins) hnil
      | ok preparedFp fs' =>
          rw [hprepare] at hbegins
          obtain ⟨x, hx⟩ := prepareFile_source hprepare
          cases hopens : a.opens with
          | false =>
              rw [hopens] at hbegins
              exact absurd (List.prefix_nil.mp hbegins) hnil
          | true =>
              rw [hopens] at hbegins
              exact ⟨x, hx, prepared_begins hundoes hx hprepare hbegins hd hwritten⟩
  have hstops := a.receiverStops
  generalize cmd.sends.other = role at hstops ⊢
  cases role with
  | client => exact trace_receiveActivity hdec hstops
  | server =>
      change a.receiverFs ∈ (storActivity lzma a.recvPieces a.renv a.rhost a.rkey
        (some cmd.name)).activity.trace _ at hstops
      exact trace_receiveActivity hdec hstops

theorem DhRole.eq_or_eq_other (role role' : DhRole) :
    role = role' ∨ role = role'.other := by
  cases role <;> cases role' <;> simp [DhRole.other]

/-- The step. -/
theorem Attempt.onlyBeginnings (hundoes : lzma.Undoes) (a : Attempt lzma h cmd) :
    OnlyBeginnings [cmd] h a.leaves := by
  have hleaves := a.receiver_leavesOnly hundoes
  have hsent : ∀ fp, ¬ IsTempName cmd.name fp →
      a.leaves.files cmd.sends fp = h.files cmd.sends fp := by
    intro fp htemp
    unfold Attempt.leaves
    rw [Hosts.files_withFiles_other, Hosts.files_withFiles]
    exact (onlyTemp_sendActivity cmd.sends).trace_frame a.senderStops htemp
  have hreceived : a.leaves.files cmd.sends.other = a.receiverFs := by
    unfold Attempt.leaves
    rw [Hosts.files_withFiles]
  rw [← hreceived] at hleaves
  refine ⟨fun role fp y htemp hy => ?_, fun role fp htemp hnone => ?_,
    fun role fp htemp hname => ?_⟩
  · have htemp := htemp cmd List.mem_cons_self
    rcases role.eq_or_eq_other cmd.sends with rfl | rfl
    · rw [hsent fp htemp] at hy
      exact ⟨_, y, hy, List.prefix_rfl⟩
    · by_cases hfp : fp = cmd.name
      · subst hfp
        rcases hleaves.dest with hsame | ⟨y', hy', x, hx, hbegins⟩
        · rw [hsame] at hy
          exact ⟨_, y, hy, List.prefix_rfl⟩
        · obtain rfl : y' = y := Option.some.inj (hy'.symm.trans hy)
          exact ⟨_, x, hx, hbegins⟩
      · rw [hleaves.others fp hfp htemp] at hy
        exact ⟨_, y, hy, List.prefix_rfl⟩
  · have htemp := htemp cmd List.mem_cons_self
    rcases role.eq_or_eq_other cmd.sends with rfl | rfl
    · rwa [hsent fp htemp] at hnone
    · by_cases hfp : fp = cmd.name
      · subst hfp
        rcases hleaves.dest with hsame | ⟨y', hy', _⟩
        · rwa [hsame] at hnone
        · rw [hnone] at hy'
          cases hy'
      · rwa [hleaves.others fp hfp htemp] at hnone
  · have htemp := htemp cmd List.mem_cons_self
    have hname := hname cmd List.mem_cons_self
    rcases role.eq_or_eq_other cmd.sends with rfl | rfl
    · exact hsent fp htemp
    · exact hleaves.others fp hname.symm htemp

theorem OnlyBeginnings.refl (h : Hosts) : OnlyBeginnings [] h h :=
  ⟨fun role _ y _ hy => ⟨role, y, hy, List.prefix_rfl⟩, fun _ _ _ hnone => hnone,
    fun _ _ _ _ => rfl⟩

/-- A beginning of a beginning is one. -/
theorem OnlyBeginnings.cons (hfirst : OnlyBeginnings [cmd] h h')
    (hrest : OnlyBeginnings cmds h' h'') : OnlyBeginnings (cmd :: cmds) h h'' := by
  have head : ∀ {p : TransferCommand → Prop}, (∀ c ∈ cmd :: cmds, p c) →
    ∀ c ∈ [cmd], p c := by
    intro p hall c hc
    rw [List.mem_singleton] at hc
    exact hall c (hc ▸ List.mem_cons_self)
  have tail : ∀ {p : TransferCommand → Prop},
    (∀ c ∈ cmd :: cmds, p c) → ∀ c ∈ cmds, p c :=
    fun hall c hc => hall c (List.mem_cons_of_mem _ hc)
  refine ⟨fun role fp z htemp hz => ?_, fun role fp htemp hnone => ?_,
    fun role fp htemp hname => ?_⟩
  · obtain ⟨role₁, y, hy, hzy⟩ := hrest.begins role fp z (tail htemp) hz
    obtain ⟨role₀, x, hx, hyx⟩ := hfirst.begins role₁ fp y (head htemp) hy
    exact ⟨role₀, x, hx, hzy.trans hyx⟩
  · exact hfirst.stays role fp (head htemp) (hrest.stays role fp (tail htemp) hnone)
  · rw [hrest.others role fp (tail htemp) (tail hname)]
    exact hfirst.others role fp (head htemp) (head hname)

/-- Commands that fail in any way, and whose processes are killed at any moment, leave no
file that is not a beginning of one there was. -/
theorem attempts_onlyBeginnings (lzma : Lzma) (hundoes : lzma.Undoes) (h h' : Hosts)
    (cmds : List TransferCommand) (hattempts : Attempts lzma h cmds h') :
    OnlyBeginnings cmds h h' := by
  induction hattempts with
  | nil h => exact .refl h
  | cons a rest ih => exact (a.onlyBeginnings hundoes).cons ih

end Sessions

/-- A command whose data connection breaks off behind `n` bytes. -/
def cutAttempt (h : Hosts) (cmd : TransferCommand) (n : Nat) :
    Attempt .storing h cmd where
  key := (putSession fileOfA).key
  penv := (putSession fileOfA).senderEnv
  opens := true
  sendPieces := []
  renv := (putSession fileOfA).receiverEnv
  rhost := ⟨some "aaaaaa", true, (bytesToSend .storing (putSession fileOfA).key
    (putSession fileOfA).senderEnv true cmd.name (h.files cmd.sends)).take n, true⟩
  rkey := (putSession fileOfA).key
  recvPieces := [1]
  senderFs := _
  receiverFs := _
  begins := List.take_prefix _ _
  agreed := fun _ => rfl
  senderStops := Activities.Program.endState_mem_trace _ _
  receiverStops := Activities.Program.endState_mem_trace _ _

theorem attempts_onlyBeginnings_cut : ∃ h',
    Attempts .storing (putHosts fileOfA) [⟨.client, "f"⟩, ⟨.server, "f"⟩] h' ∧
      OnlyBeginnings [⟨.client, "f"⟩, ⟨.server, "f"⟩] (putHosts fileOfA) h' := by
  have hattempts := Attempts.cons (cutAttempt (putHosts fileOfA) ⟨.client, "f"⟩ 17)
    (.cons (cutAttempt _ ⟨.server, "f"⟩ 4) (.nil _))
  exact ⟨_, hattempts, attempts_onlyBeginnings .storing storing_undoes _ _ _ hattempts⟩

end EcFtp
