/-
What the server makes of the messages on the control connection.  A string
function that is handed no token, or more bytes than its destination holds, has
no meaning; here is for which messages that happens.
-/
import EcFtp.PortCommand
import EcFtp.ServerTransfer

namespace EcFtp

open CStrings

/-- A buffer of `n` zeroed bytes, once `msg` was read or copied into it. -/
def zeroed (n : Nat) (msg : Bytes) : Bytes := msg ++ List.replicate (n - msg.length) 0

section Functions

/-- `strcpy` into a buffer of `n` bytes, which has to hold the NUL as well. -/
def strcpy (n : Nat) (src : Bytes) : Option Bytes :=
  if src.length < n then some src else none

/-- `value`, from the first word of a command. -/
def commandValue (str : Bytes) : Nat :=
  if str = ascii "LIST" then 1
  else if str = ascii "RETR" then 2
  else if str = ascii "STOR" then 3
  else if str = ascii "SKIP" then 4
  else if str = ascii "ABOR" then 5
  else 0

/-- `get_command` of the server: `strcmp` has to be handed a word. -/
def getCommand (command : Bytes) : Option Nat := do
  let cpy ← strcpy 1024 command
  let str ← (strtok isBlank cpy).1
  pure (commandValue str)

/-- `get_filename` of the server, for a zeroed `fileptr` of `n` bytes: there may be no
second word, else it has to fit. -/
def getFilename (n : Nat) (input : Bytes) : Option (Option Bytes) :=
  match (strtok isBlank (strtok isBlank input).2).1 with
  | none => some none
  | some filename => if filename.length ≤ n then some (some (zeroed n filename)) else none

/-- How the server child goes on after the message that should be PORT. -/
inductive PortOutcome where
  | quit
  | refused
  | connects (addr : Address) (port : UInt16)
deriving Repr, DecidableEq

/-- `main` of the server, from reading that message to `setup_data_connection`. -/
def portPosition (msg : Bytes) : Option PortOutcome := do
  let recvline ← stringIn (zeroed (maxLine + 1) msg)
  if (ascii "QUIT").isPrefixOf recvline then pure .quit
  else
    let (clientIp, clientPort) ← readPortCommand recvline
    match inetPton clientIp with
    | none => pure .refused
    | some addr => pure (.connects addr clientPort)

/-- What the server child does about a command; a handler may find no name. -/
inductive CommandOutcome where
  | list (directory : Option Bytes)
  | retr (filename : Option Bytes)
  | stor (filename : Option Bytes)
  | skip
  | ignored
deriving Repr, DecidableEq

/-- `main` of the server, from reading the command to the handler and the name it
finds. -/
def commandPosition (msg : Bytes) : Option CommandOutcome := do
  let command ← stringIn (zeroed maxLine msg)
  let cmd ← getCommand command
  if cmd = 1 then return .list (← getFilename 1024 command)
  else if cmd = 2 then return .retr (← getFilename 1024 command)
  else if cmd = 3 then return .stor (← getFilename 1024 command)
  else if cmd = 4 then return .skip
  else return .ignored

end Functions

section Forms

/-- A message of the form that is documented for PORT. -/
def IsPortMessage (str : Bytes) : Prop := ∃ h1 h2 h3 h4 p1 p2,
  (IsField h1 ∧ IsField h2 ∧ IsField h3 ∧ IsField h4 ∧ IsField p1 ∧ IsField p2) ∧
    str = portMessage h1 h2 h3 h4 p1 p2

/-- A command the server carries out: LIST, or RETR or STOR with a name. -/
def IsCommand (str : Bytes) : Prop :=
  (tokens isBlank str).head? = some (ascii "LIST") ∨
    ∃ name, (tokens isBlank str).tail.head? = some name ∧
      ((tokens isBlank str).head? = some (ascii "RETR") ∨
        (tokens isBlank str).head? = some (ascii "STOR"))

/-- The server replies with an error, or does nothing about the command. -/
def CommandOutcome.Rejected : CommandOutcome → Prop
  | .list _ => False
  | .retr filename => filename = none
  | .stor filename => filename = none
  | .skip => True
  | .ignored => True

/-- The message in the place of PORT is read safely, and the server connects to
nothing unless it is QUIT or PORT. -/
def PortHandled (msg : Bytes) : Prop := ∃ outcome, portPosition msg = some outcome ∧
  (ascii "QUIT" <+: cstr msg ∨ IsPortMessage (cstr msg) ∨ outcome = .refused)

/-- The message in the place of a command is read safely, and rejected unless it is
a command. -/
def CommandHandled (msg : Bytes) : Prop := ∃ outcome, commandPosition msg = some outcome ∧
  (IsCommand (cstr msg) ∨ outcome.Rejected)

/-- QUIT; or, behind the first word, six fields of which the first four make an
address text of at most 15 bytes, and then PORT, or no address. -/
def PortReadable (str : Bytes) : Prop :=
  ascii "QUIT" <+: str ∨ ∃ h1 h2 h3 h4 p1 p2 l,
    tokens isComma (strtok isBlank str).2 = h1 :: h2 :: h3 :: h4 :: p1 :: p2 :: l ∧
      (h1 ++ 46 :: h2 ++ 46 :: h3 ++ 46 :: h4).length < inetAddrstrlen ∧
      (IsPortMessage str ∨ inetPton (h1 ++ 46 :: h2 ++ 46 :: h3 ++ 46 :: h4) = none)

/-- At most 1023 bytes, with a word among them. -/
def CommandReadable (str : Bytes) : Prop := str.length < 1024 ∧ tokens isBlank str ≠ []

end Forms

section Handled

variable {msg str : Bytes} {n : Nat}

theorem stringIn_zeroed (hlen : msg.length < n) :
    stringIn (zeroed n msg) = some (cstr msg) := by
  have hpos : n - msg.length ≠ 0 := by omega
  rw [stringIn, zeroed, if_pos (by simp [hpos]), cstr_append_replicate]

/-- A full buffer may hold no string. -/
theorem stringIn_zeroed_or (msg : Bytes) (n : Nat) :
    stringIn (zeroed n msg) = some (cstr msg) ∨
      stringIn (zeroed n msg) = none ∧ n ≤ (cstr msg).length := by
  by_cases hlen : msg.length < n
  · exact .inl (stringIn_zeroed hlen)
  · by_cases hnul : 0 ∈ zeroed n msg
    · left
      rw [stringIn, if_pos hnul, zeroed, cstr_append_replicate]
    · right
      refine ⟨if_neg hnul, ?_⟩
      have hmsg : 0 ∉ msg := fun hmem => hnul (List.mem_append_left _ hmem)
      rw [cstr_of_not_mem hmsg]
      omega

theorem readPortCommand_eq_some {clientIp : Bytes} {port : UInt16} :
    readPortCommand str = some (clientIp, port) ↔ ∃ h1 h2 h3 h4 p1 p2 l,
      tokens isComma (strtok isBlank str).2 = h1 :: h2 :: h3 :: h4 :: p1 :: p2 :: l ∧
        clientIp.length < inetAddrstrlen ∧
          clientIp = h1 ++ 46 :: h2 ++ 46 :: h3 ++ 46 :: h4 ∧
        port = (UInt16.ofInt (atoi p1) <<< 8) + UInt16.ofInt (atoi p2) := by
  rw [readPortCommand_eq]
  constructor
  · intro h
    unfold portOfTokens at h
    split at h
    · rename_i h1 h2 h3 h4 p1 p2 l htokens
      simp only [sprintfAddress, Option.bind_eq_bind, Option.bind_some] at h
      split at h
      · rename_i hlen
        cases h
        exact ⟨h1, h2, h3, h4, p1, p2, l, htokens, hlen, rfl, rfl⟩
      · cases h
    · cases h
  · rintro ⟨h1, h2, h3, h4, p1, p2, l, htokens, hlen, rfl, rfl⟩
    rw [htokens]
    simp only [portOfTokens, sprintfAddress, Option.bind_eq_bind,
      Option.bind_some, if_pos hlen]
    rfl

theorem portPosition_quit (hlen : msg.length ≤ maxLine)
    (hquit : ascii "QUIT" <+: cstr msg) :
    portPosition msg = some .quit := by
  have hread : stringIn (zeroed (maxLine + 1) msg) = some (cstr msg) :=
    stringIn_zeroed (by omega)
  simp only [portPosition, hread, Option.bind_eq_bind, Option.bind_some,
    List.isPrefixOf_iff_prefix.mpr hquit]
  rfl

/-- What becomes of a message that is not QUIT. -/
theorem portPosition_eq_some (hlen : msg.length ≤ maxLine)
    (hquit : ¬ ascii "QUIT" <+: cstr msg)
    {outcome : PortOutcome} : portPosition msg = some outcome ↔
      ∃ clientIp port, readPortCommand (cstr msg) = some (clientIp, port) ∧
        (inetPton clientIp = none ∧ outcome = .refused ∨
          ∃ addr, inetPton clientIp = some addr ∧ outcome = .connects addr port) := by
  have hread : stringIn (zeroed (maxLine + 1) msg) = some (cstr msg) :=
    stringIn_zeroed (by omega)
  have hprefix : (ascii "QUIT").isPrefixOf (cstr msg) = false :=
    Bool.eq_false_iff.mpr fun h => hquit (List.isPrefixOf_iff_prefix.mp h)
  simp only [portPosition, hread, Option.bind_eq_bind, Option.bind_some, hprefix,
    Bool.false_eq_true, ↓reduceIte, Option.bind_eq_some_iff, Prod.exists]
  refine exists_congr fun clientIp => exists_congr fun port => and_congr_right fun _ => ?_
  cases hip : inetPton clientIp with
  | none => simp [eq_comm]
  | some addr => simp [eq_comm]

theorem portHandled_iff (hlen : msg.length ≤ maxLine) :
    PortHandled msg ↔ PortReadable (cstr msg) := by
  by_cases hquit : ascii "QUIT" <+: cstr msg
  · exact iff_of_true ⟨.quit, portPosition_quit hlen hquit, .inl hquit⟩ (.inl hquit)
  constructor
  · rintro ⟨outcome, hposition, hor⟩
    obtain ⟨clientIp, port, hport, hconnect⟩ :=
      (portPosition_eq_some hlen hquit).mp hposition
    obtain ⟨h1, h2, h3, h4, p1, p2, l, htokens, hfits, rfl, rfl⟩ :=
      readPortCommand_eq_some.mp hport
    refine .inr ⟨h1, h2, h3, h4, p1, p2, l, htokens, hfits, ?_⟩
    rcases hor with hq | hform | rfl
    · exact absurd hq hquit
    · exact .inl hform
    · rcases hconnect with ⟨hnone, _⟩ | ⟨addr, _, hconnects⟩
      · exact .inr hnone
      · cases hconnects
  · rintro (hq | ⟨h1, h2, h3, h4, p1, p2, l, htokens, hfits, hor⟩)
    · exact absurd hq hquit
    · have hport := readPortCommand_eq_some.mpr
        ⟨h1, h2, h3, h4, p1, p2, l, htokens, hfits, rfl, rfl⟩
      cases hip : inetPton (h1 ++ 46 :: h2 ++ 46 :: h3 ++ 46 :: h4) with
      | none =>
          exact ⟨.refused, (portPosition_eq_some hlen hquit).mpr
            ⟨_, _, hport, .inl ⟨hip, rfl⟩⟩, .inr (.inr rfl)⟩
      | some addr =>
          refine ⟨_, (portPosition_eq_some hlen hquit).mpr
            ⟨_, _, hport, .inr ⟨addr, hip, rfl⟩⟩, .inr (.inl ?_)⟩
          rcases hor with hform | hnone
          · exact hform
          · rw [hip] at hnone
            cases hnone

theorem commandValue_cases (t : Bytes) :
    t = ascii "LIST" ∧ commandValue t = 1 ∨ t = ascii "RETR" ∧ commandValue t = 2 ∨
      t = ascii "STOR" ∧ commandValue t = 3 ∨ commandValue t ∉ [1, 2, 3] := by
  by_cases hlist : t = ascii "LIST"
  · exact .inl ⟨hlist, if_pos hlist⟩
  by_cases hretr : t = ascii "RETR"
  · exact .inr (.inl ⟨hretr, by rw [commandValue, if_neg hlist, if_pos hretr]⟩)
  by_cases hstor : t = ascii "STOR"
  · exact .inr (.inr (.inl ⟨hstor, by
      rw [commandValue, if_neg hlist, if_neg hretr, if_pos hstor]⟩))
  · right
    right
    right
    rw [commandValue, if_neg hlist, if_neg hretr, if_neg hstor]
    split_ifs <;> decide

/-- The name a handler finds is the second word, if that fits. -/
theorem getFilename_tokens (n : Nat) (str : Bytes) : getFilename n str =
    match (tokens isBlank str).tail.head? with
    | none => some none
    | some filename => if filename.length ≤ n then some (some (zeroed n filename))
      else none := by
  rw [getFilename, strtok_fst, tokens_strtok_snd]

theorem getFilename_eq (hlen : str.length ≤ n) :
    getFilename n str = some ((tokens isBlank str).tail.head?.map (zeroed n)) := by
  have hfirst := @strtok_length _ isBlank str
  have hsecond := @strtok_length _ isBlank (strtok isBlank str).2
  rw [strtok_fst, tokens_strtok_snd] at hsecond
  rw [getFilename_tokens]
  cases hfound : (tokens isBlank str).tail.head? with
  | none => rfl
  | some filename =>
      rw [hfound, Option.getD_some] at hsecond
      simp only [Option.map_some]
      rw [if_pos (by omega)]

/-- A command that is short enough and has a first word. -/
theorem commandHandled_of (hread : stringIn (zeroed maxLine msg) = some (cstr msg))
    (hlen : (cstr msg).length < 1024) {t : Bytes} {l : List Bytes}
    (htokens : tokens isBlank (cstr msg) = t :: l) : CommandHandled msg := by
  have hcommand : getCommand (cstr msg) = some (commandValue t) := by
    simp only [getCommand, strcpy, if_pos hlen, Option.bind_eq_bind, Option.bind_some,
      strtok_fst, htokens, List.head?_cons]
    rfl
  have hname := @getFilename_eq (cstr msg) 1024 (by omega)
  rw [htokens, List.tail_cons] at hname
  simp only [CommandHandled, commandPosition, hread,
    Option.bind_eq_bind, Option.bind_some,
    hcommand, hname, IsCommand, htokens, List.head?_cons, List.tail_cons]
  rcases commandValue_cases t with ⟨rfl, hval⟩ | ⟨rfl, hval⟩ | ⟨rfl, hval⟩ | hval
  · rw [hval]
    exact ⟨_, rfl, .inl (.inl rfl)⟩
  · rw [hval]
    refine ⟨_, rfl, ?_⟩
    cases hfound : l.head? with
    | none => exact .inr rfl
    | some name => exact .inl (.inr ⟨name, rfl, .inl rfl⟩)
  · rw [hval]
    refine ⟨_, rfl, ?_⟩
    cases hfound : l.head? with
    | none => exact .inr rfl
    | some name => exact .inl (.inr ⟨name, rfl, .inr rfl⟩)
  · by_cases hskip : commandValue t = 4
    · rw [hskip]
      exact ⟨_, rfl, .inr trivial⟩
    · simp only [List.mem_cons, List.not_mem_nil, or_false, not_or] at hval
      simp only [hval, hskip, ↓reduceIte]
      exact ⟨_, rfl, .inr trivial⟩

theorem commandHandled_iff : CommandHandled msg ↔ CommandReadable (cstr msg) := by
  constructor
  · rintro ⟨outcome, hposition, _⟩
    rcases stringIn_zeroed_or msg maxLine with hread | ⟨hread, _⟩
    · simp only [commandPosition, hread, Option.bind_eq_bind,
        Option.bind_some] at hposition
      obtain ⟨cmd, hcommand, _⟩ := Option.bind_eq_some_iff.mp hposition
      obtain ⟨cpy, hcopy, hword⟩ := Option.bind_eq_some_iff.mp hcommand
      obtain ⟨word, hword, _⟩ := Option.bind_eq_some_iff.mp hword
      unfold strcpy at hcopy
      split at hcopy
      · rename_i hlen
        cases hcopy
        refine ⟨hlen, fun hnone => ?_⟩
        rw [strtok_fst, hnone] at hword
        cases hword
      · cases hcopy
    · simp only [commandPosition, hread] at hposition
      cases hposition
  · rintro ⟨hlen, hne⟩
    obtain ⟨t, l, htokens⟩ := List.exists_cons_of_ne_nil hne
    rcases stringIn_zeroed_or msg maxLine with hread | ⟨_, hlong⟩
    · exact commandHandled_of hread hlen htokens
    · have hmax : maxLine = 4096 := rfl
      omega

/-- Exactly these messages are read safely, and rejected when they should be. -/
theorem messages_handled_iff (hlen : msg.length ≤ maxLine) :
    (PortHandled msg ↔ PortReadable (cstr msg)) ∧
      (CommandHandled msg ↔ CommandReadable (cstr msg)) :=
  ⟨portHandled_iff hlen, commandHandled_iff⟩

/-- At one message of the form documented for PORT. -/
theorem messages_handled_port :
    (PortHandled (ascii "PORT 1,2,3,4,5,6") ↔
      PortReadable (cstr (ascii "PORT 1,2,3,4,5,6"))) ∧
      (CommandHandled (ascii "PORT 1,2,3,4,5,6") ↔
        CommandReadable (cstr (ascii "PORT 1,2,3,4,5,6"))) :=
  messages_handled_iff (by decide +kernel)

/-- The server cannot read the empty message of a closed connection. -/
theorem messages_notHandled : ¬ PortHandled [] ∧ ¬ CommandHandled [] := by
  have hport : portPosition [] = none := by decide +kernel
  have hcommand : commandPosition [] = none := by decide +kernel
  simp [PortHandled, CommandHandled, hport, hcommand]

end Handled

end EcFtp
