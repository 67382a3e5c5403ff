/-
The prompt of the client.  A line is read into the command buffer, trimmed there and
copied; the user is asked again until a line begins with a command.  What earlier lines
leave in the two buffers makes no difference.
-/
import EcFtp.Trim

namespace EcFtp

open CStrings

section Stdin

/-- The bytes of one line: at most `n`, and none behind a newline. -/
def takeLine : Nat → Bytes → Bytes × Bytes
  | 0, stdin => ([], stdin)
  | _ + 1, [] => ([], [])
  | n + 1, b :: stdin =>
      if b = 10 then ([b], stdin)
      else (b :: (takeLine n stdin).1, (takeLine n stdin).2)

theorem takeLine_append (n : Nat) (stdin : Bytes) :
    (takeLine n stdin).1 ++ (takeLine n stdin).2 = stdin := by
  induction n generalizing stdin with
  | zero => rfl
  | succ n ih =>
      cases stdin with
      | nil => rfl
      | cons b stdin =>
          rw [takeLine]
          split
          · rfl
          · rw [List.cons_append, ih]

theorem length_takeLine_le (n : Nat) (stdin : Bytes) :
    (takeLine n stdin).1.length ≤ n := by
  induction n generalizing stdin with
  | zero => exact Nat.le_refl 0
  | succ n ih =>
      cases stdin with
      | nil => exact Nat.zero_le _
      | cons b stdin =>
          rw [takeLine]
          split
          · simp
          · rw [List.length_cons]
            exact Nat.succ_le_succ (ih stdin)

theorem length_takeLine_lt {stdin : Bytes} (hne : stdin ≠ []) (n : Nat) :
    (takeLine (n + 1) stdin).2.length < stdin.length := by
  obtain ⟨b, stdin, rfl⟩ := List.exists_cons_of_ne_nil hne
  have happend := congrArg List.length (takeLine_append n stdin)
  rw [List.length_append] at happend
  rw [takeLine]
  split
  · exact Nat.lt_succ_self _
  · exact Nat.lt_succ_of_le (Nat.le.intro (by rw [Nat.add_comm]; exact happend))

/-- The lines `fgets` hands out one by one, for a buffer of 1024 bytes. -/
def inputLines : Bytes → List Bytes
  | [] => []
  | b :: stdin =>
      (takeLine 1023 (b :: stdin)).1 :: inputLines (takeLine 1023 (b :: stdin)).2
termination_by stdin => stdin.length
decreasing_by exact length_takeLine_lt (List.cons_ne_nil b stdin) 1022

theorem inputLines_nil : inputLines [] = [] := by
  rw [inputLines]

theorem inputLines_of_ne {stdin : Bytes} (hne : stdin ≠ []) :
    inputLines stdin = (takeLine 1023 stdin).1 :: inputLines (takeLine 1023 stdin).2 := by
  obtain ⟨b, stdin, rfl⟩ := List.exists_cons_of_ne_nil hne
  rw [inputLines]

end Stdin

section Buffers

/-- `bzero(buf, n)`. -/
def bzero (n : Nat) (buf : Bytes) : Bytes := List.replicate n 0 ++ buf.drop n

/-- `fgets(buffer, size, stdin)`: the buffer and what is left to read, or `NULL` at the
end of the input. -/
def fgets (size : Nat) (buffer stdin : Bytes) : Option (Bytes × Bytes) :=
  if stdin = [] then none
  else
    let (line, stdin) := takeLine (size - 1) stdin
    some (line ++ 0 :: buffer.drop (line.length + 1), stdin)

/-- `strcpy(dest, src)`; `dest` has to hold the NUL as well. -/
def copyString (dest src : Bytes) : Option Bytes := do
  let s ← stringIn src
  if s.length < dest.length then some (s ++ 0 :: dest.drop (s.length + 1)) else none

end Buffers

section Client

/-- `sizeof(command)` where `command` is a pointer. -/
def sizeofPointer : Nat := 8

/-- What `get_command` carries from one round to the next: its two buffers, and what
is left of the input. -/
structure PromptState where
  command : Bytes
  copy : Bytes
  stdin : Bytes
deriving Repr, DecidableEq

/-- `get_user_input`. -/
def getUserInput (buffer stdin : Bytes) : Option (Bytes × Bytes) :=
  fgets 1024 (bzero sizeofPointer buffer) stdin

/-- What `get_command` does with a line that is long enough: `value`, unless the user
is asked again, and the buffers.  `strcmp` has to be handed a word. -/
def tryCommand (command copy : Bytes) : Option (Option Nat × Bytes × Bytes) := do
  let command ← trimBuffer command
  let copy ← copyString copy command
  let text ← stringIn copy
  if checkCommand text < 0 then
    pure (none, bzero sizeofPointer command, bzero 1024 copy)
  else
    let str ← (strtok isDelimit text).1
    match clientValue str with
    | some value => pure (some value, command, copy)
    | none => pure (none, bzero (← stringIn command).length command, bzero 1024 copy)

/-- One round of `get_command`. -/
def promptRound (s : PromptState) : Option (Option Nat × PromptState) :=
  match getUserInput s.command s.stdin with
  | none =>
      some
        (none, { s with command := bzero sizeofPointer (bzero sizeofPointer s.command) })
  | some (command, stdin) => do
      let text ← stringIn command
      if text.length < 2 then
        pure (none, { s with command := bzero sizeofPointer command, stdin })
      else
        let (value, command, copy) ← tryCommand command s.copy
        pure (value, { command, copy, stdin })

/-- How `get_command` ends. -/
inductive PromptEnd where
  | chosen (value : Nat) (s : PromptState)
  | undefined
deriving Repr, DecidableEq

/-- `get_command`, with a bound on the rounds. -/
def promptLoop : Nat → PromptState → Option PromptEnd
  | 0, _ => none
  | fuel + 1, s =>
      match promptRound s with
      | none => some .undefined
      | some (some value, s) => some (.chosen value s)
      | some (none, s) => promptLoop fuel s

end Client

/-- A line that names a command: at most one white space in the trimmed text, and a
first word that is a command. -/
def Names (line : Bytes) (value : Nat) : Prop :=
  (trim (cstr line)).countP isspace ≤ 1 ∧
    ∃ str, (tokens isspace (trim (cstr line))).head? = some str ∧
      clientValue str = some value

/-- A line that passes the check of its length, and is nothing but white space. -/
def Blank (line : Bytes) : Prop :=
  2 ≤ (cstr line).length ∧ ∀ b ∈ cstr line, isspace b = true

/-- The first line of the input that names a command names this one. -/
def FirstNamed (lines : List Bytes) (value : Nat) : Prop :=
  ∃ skipped line later, lines = skipped ++ line :: later ∧ Names line value ∧
    ∀ l ∈ skipped, ∀ v, ¬ Names l v

section Lines

variable {line text rest copy : Bytes} {value : Nat}

theorem isDelimit_eq : isDelimit = isspace := by
  funext b
  have hlt : b.toNat < 256 := b.toNat_lt
  simp only [isDelimit, isspace, List.mem_cons, List.not_mem_nil,
    or_false, Bool.decide_or, UInt8.le_iff_toNat_le, ← UInt8.toNat_inj]
  simp
  grind

theorem tokens_eq_nil (h : tokens isspace text = []) : ∀ b ∈ text, isspace b = true := by
  cases parts isspace text with
  | none hds => exact hds
  | last hds ht =>
      rw [tokens_delims_append hds, ht.tokens] at h
      cases h
  | more hds ht hd rest =>
      rw [tokens_delims_append hds, ht.tokens_append hd] at h
      cases h

/-- Nothing is left of a text of white space, and of no other. -/
theorem trim_eq_nil : trim text = [] ↔ ∀ b ∈ text, isspace b = true := by
  constructor
  · intro hnil
    obtain ⟨t, ht⟩ := exists_trimmed isspace text
    obtain rfl : t = [] := by
      rw [← hnil]
      exact ht.dropWhile.symm
    obtain ⟨ds, es, rfl, hds, _, hempty⟩ := ht.split
    simpa [hempty rfl] using hds
  · intro hall
    exact (Trimmed.blank hall).dropWhile

theorem tokens_trim_eq_nil :
    tokens isspace (trim text) = [] ↔ ∀ b ∈ text, isspace b = true := by
  rw [← trim_eq_nil]
  constructor
  · intro hnone
    have hall := tokens_eq_nil hnone
    obtain ⟨t, ht⟩ := exists_trimmed isspace text
    have hself : trim text = t := ht.dropWhile
    rw [hself] at hall ⊢
    by_contra hne
    obtain ⟨b, t, rfl⟩ := List.exists_cons_of_ne_nil hne
    have hwhite := hall b List.mem_cons_self
    rw [ht.tight.head b rfl] at hwhite
    cases hwhite
  · intro hnil
    rw [hnil]
    rfl

theorem clientValue_cases {str : Bytes} (h : clientValue str = some value) :
    (str, value) ∈
      [(ascii "ls", 1), (ascii "get", 2), (ascii "put", 3), (ascii "quit", 4)] := by
  unfold clientValue at h
  grind

theorem length_clientValue {str : Bytes} (h : clientValue str = some value) :
    2 ≤ str.length ∧ 1 ≤ value ∧ value ≤ 4 := by
  have hall :
      ∀ c ∈ [(ascii "ls", 1), (ascii "get", 2), (ascii "put", 3), (ascii "quit", 4)],
      2 ≤ c.1.length ∧ 1 ≤ c.2 ∧ c.2 ≤ 4 := by
    decide +kernel
  exact hall _ (clientValue_cases h)

/-- What is done with a line that is long enough and fits the buffer. -/
theorem acceptLine_of_long (hlong : 2 ≤ text.length) (hlen : text.length < 1024) :
    acceptLine text =
      if (trim text).countP isspace ≤ 1 then
        (tokens isspace (trim text)).head?.map fun str =>
          (clientValue str).map fun v => (v, trim text)
      else some none := by
  have hshort := (trim_sublist text).length_le
  have hcopy : strcpy 1024 (trim text) = some (trim text) := if_pos (by omega)
  rw [acceptLine, if_neg (by omega), hcopy, isDelimit_eq]
  simp only [Option.bind_eq_bind, Option.bind_some, strtok_fst, checkCommand]
  by_cases hcount : (trim text).countP isspace ≤ 1
  · simp only [hcount, if_true]
    cases (tokens isspace (trim text)).head? <;> simp
  · simp [hcount]

/-- Exactly the blank lines have no meaning. -/
theorem acceptLine_eq_none (hlen : (cstr line).length < 1024) :
    acceptLine (cstr line) = none ↔ Blank line := by
  unfold Blank
  by_cases hlong : 2 ≤ (cstr line).length
  · rw [acceptLine_of_long hlong hlen, ← tokens_trim_eq_nil]
    constructor
    · intro hnone
      split at hnone
      · refine ⟨hlong, ?_⟩
        simpa using hnone
      · cases hnone
    · rintro ⟨_, hnil⟩
      have htrim := trim_eq_nil.mpr (tokens_trim_eq_nil.mp hnil)
      rw [hnil, htrim]
      simp
  · rw [acceptLine, if_pos (by omega)]
    simp [hlong]

theorem acceptLine_eq_some (hlen : (cstr line).length < 1024) :
    acceptLine (cstr line) = some (some (value, trim (cstr line))) ↔
      Names line value := by
  unfold Names
  by_cases hlong : 2 ≤ (cstr line).length
  · rw [acceptLine_of_long hlong hlen]
    split
    · rename_i hcount
      simp [hcount]
    · rename_i hcount
      simp [hcount]
  · rw [acceptLine, if_pos (by omega)]
    constructor
    · intro h
      cases h
    · rintro ⟨_, str, hstr, hvalue⟩
      have hword := (length_clientValue hvalue).1
      have hfit := @strtok_length _ isspace (trim (cstr line))
      rw [strtok_fst, hstr] at hfit
      have hshort := (trim_sublist (cstr line)).length_le
      simp only [Option.getD_some] at hfit
      omega

end Lines

/-- The buffers of `main` and of `get_command` are arrays of 1024 bytes. -/
structure PromptState.Allocated (s : PromptState) : Prop where
  command : s.command.length = 1024
  copy : s.copy.length = 1024

section Rounds

variable {text rest copy : Bytes} {value fuel : Nat} {s s' : PromptState}

theorem length_bzero {n : Nat} {buf : Bytes} (hn : n ≤ buf.length) :
    (bzero n buf).length = buf.length := by
  rw [bzero, List.length_append, List.length_replicate, List.length_drop]
  omega

theorem copyString_eq {dest t : Bytes} (hnul : 0 ∉ t) (hlen : t.length < dest.length) :
    copyString dest (t ++ 0 :: rest) = some (t ++ 0 :: dest.drop (t.length + 1)) := by
  rw [copyString, stringIn_append_zero hnul]
  simp [hlen]

/-- What a round is to do with a line, given what `acceptLine` does with it. -/
def Follows (accepted : Option (Option (Nat × Bytes)))
    (tried : Option (Option Nat × Bytes × Bytes)) : Prop :=
  match accepted with
  | none => tried = none
  | some r => ∃ command copy, tried = some (r.map Prod.fst, command, copy) ∧
      command.length = 1024 ∧ copy.length = 1024 ∧
        ∀ v c, r = some (v, c) → stringIn command = some c

/-- Trimmed in place and copied, a line is treated as it is as a text. -/
theorem tryCommand_follows (hnul : 0 ∉ text) (hlong : 2 ≤ text.length)
    (hlen : text.length < 1024) (hcommand : (text ++ 0 :: rest).length = 1024)
    (hcopy : copy.length = 1024) :
    Follows (acceptLine text) (tryCommand (text ++ 0 :: rest) copy) := by
  have hshort := (trim_sublist text).length_le
  have hnul' : 0 ∉ trim text := fun hmem => hnul ((trim_sublist text).mem hmem)
  have htrim := trimBuffer_trim hnul (by omega) rest
  have hread := @stringIn_append_zero (trim text) hnul'
  have hstrcpy : strcpy 1024 (trim text) = some (trim text) := if_pos (by omega)
  have hroom :
      (trim text ++ 0 :: (text ++ 0 :: rest).drop ((trim text).length + 1)).length =
      1024 := by
    simp only [List.length_append, List.length_cons, List.length_drop] at hcommand ⊢
    omega
  have hroom' : (trim text ++ 0 :: copy.drop ((trim text).length + 1)).length = 1024 := by
    simp only [List.length_append, List.length_cons, List.length_drop]
    omega
  rw [tryCommand, htrim, acceptLine, if_neg (by omega), hstrcpy]
  simp only [Option.bind_eq_bind, Option.bind_some,
    copyString_eq hnul' (by omega : (trim text).length < copy.length), hread]
  by_cases hcheck : checkCommand (trim text) < 0
  · simp only [if_pos hcheck, Option.pure_def]
    refine ⟨_, _, rfl, ?_, ?_, by simp⟩
    · rw [length_bzero (by rw [hroom]; decide), hroom]
    · rw [length_bzero (by rw [hroom']), hroom']
  · simp only [if_neg hcheck]
    cases (strtok isDelimit (trim text)).1 with
    | none => rfl
    | some str =>
        simp only [Option.bind_some]
        cases clientValue str with
        | none =>
            refine ⟨_, _, rfl, ?_, ?_, by simp⟩
            · rw [length_bzero (by rw [hroom]; omega), hroom]
            · rw [length_bzero (by rw [hroom']), hroom']
        | some v =>
            refine ⟨_, _, rfl, hroom, hroom', ?_⟩
            intro v' c hpair
            cases hpair
            exact hread _

/-- A buffer that holds a line holds its text and a NUL. -/
theorem exists_cstr_append (line rest : Bytes) :
    ∃ rest', line ++ 0 :: rest = cstr line ++ 0 :: rest' := by
  have hsplit := List.takeWhile_append_dropWhile (p := (· != (0 : UInt8))) (l := line)
  cases hback : line.dropWhile (· != 0) with
  | nil =>
      rw [hback, List.append_nil] at hsplit
      exact ⟨rest, by rw [cstr, hsplit]⟩
  | cons b back =>
      have hb : b = 0 := by
        have hstop := List.head?_dropWhile_not (· != (0 : UInt8)) line
        rw [hback] at hstop
        simpa using hstop
      rw [hback, hb] at hsplit
      refine ⟨back ++ 0 :: rest, ?_⟩
      conv_lhs => rw [← hsplit]
      simp [cstr]

theorem length_cstr_le (line : Bytes) : (cstr line).length ≤ line.length :=
  (List.takeWhile_prefix _).length_le

theorem getUserInput_eq {buffer stdin : Bytes} (hbuffer : buffer.length = 1024)
    (hne : stdin ≠ []) :
    ∃ rest, getUserInput buffer stdin =
        some (cstr (takeLine 1023 stdin).1 ++ 0 :: rest, (takeLine 1023 stdin).2) ∧
      (cstr (takeLine 1023 stdin).1 ++ 0 :: rest).length = 1024 := by
  have hle := length_takeLine_le 1023 stdin
  have hzeroed : (bzero sizeofPointer buffer).length = 1024 := by
    rw [length_bzero (by rw [hbuffer]; decide), hbuffer]
  obtain ⟨rest, hrest⟩ := exists_cstr_append (takeLine 1023 stdin).1
    ((bzero sizeofPointer buffer).drop ((takeLine 1023 stdin).1.length + 1))
  refine ⟨rest, ?_, ?_⟩
  · rw [getUserInput, fgets, if_neg hne]
    exact congrArg some (Prod.ext hrest rfl)
  · rw [← hrest, List.length_append, List.length_cons, List.length_drop, hzeroed]
    omega

/-- What a round is to come to, given what `acceptLine` does with the text of the
line. -/
def RoundFollows (s : PromptState) : Option (Option (Nat × Bytes)) → Prop
  | none => promptRound s = none
  | some r => ∃ s' : PromptState,
    promptRound s = some (r.map Prod.fst, s') ∧ s'.Allocated ∧
      s'.stdin = (takeLine 1023 s.stdin).2 ∧ ∀ v c, r = some (v, c) →
        stringIn s'.command = some c

/-- A round on a line does what `acceptLine` does with its text, whatever the buffers
hold. -/
theorem promptRound_line (hs : s.Allocated) (hne : s.stdin ≠ []) :
    RoundFollows s (acceptLine (cstr (takeLine 1023 s.stdin).1)) := by
  obtain ⟨rest, hget, hroom⟩ := getUserInput_eq hs.command hne
  have hle := length_takeLine_le 1023 s.stdin
  have hcstr := length_cstr_le (takeLine 1023 s.stdin).1
  have hnul := not_mem_cstr (takeLine 1023 s.stdin).1
  have hround : promptRound s =
      if (cstr (takeLine 1023 s.stdin).1).length < 2 then
        some (none,
          ⟨bzero sizeofPointer (cstr (takeLine 1023 s.stdin).1 ++ 0 :: rest), s.copy,
          (takeLine 1023 s.stdin).2⟩)
      else (tryCommand (cstr (takeLine 1023 s.stdin).1 ++ 0 :: rest) s.copy).map
        fun tried =>
        (tried.1, ⟨tried.2.1, tried.2.2, (takeLine 1023 s.stdin).2⟩) := by
    rw [promptRound, hget]
    simp only [stringIn_append_zero hnul, Option.bind_eq_bind, Option.bind_some]
    split
    · rfl
    · rw [Option.map_eq_bind]
      rfl
  by_cases hshort : (cstr (takeLine 1023 s.stdin).1).length < 2
  · rw [if_pos hshort] at hround
    rw [acceptLine, if_pos hshort]
    refine ⟨_, hround, ⟨?_, hs.copy⟩, rfl, by simp⟩
    change (bzero sizeofPointer _).length = 1024
    rw [length_bzero (by rw [hroom]; decide), hroom]
  · have hfollow := tryCommand_follows hnul (by omega) (by omega) hroom hs.copy
    rw [if_neg hshort] at hround
    cases haccept : acceptLine (cstr (takeLine 1023 s.stdin).1) with
    | none =>
        rw [haccept] at hfollow
        have hnone : tryCommand _ s.copy = none := hfollow
        rw [hnone] at hround
        exact hround
    | some r =>
        rw [haccept] at hfollow
        obtain ⟨command, copy, htry, hcommand, hcopy, hread⟩ := hfollow
        rw [htry] at hround
        exact ⟨_, hround, ⟨hcommand, hcopy⟩, rfl, hread⟩

/-- At the end of the input a round changes nothing that matters. -/
theorem promptRound_end (hs : s.Allocated) (hend : s.stdin = []) :
    ∃ s' : PromptState, promptRound s = some (none, s') ∧
      s'.Allocated ∧ s'.stdin = [] := by
  have hnull : getUserInput s.command s.stdin = none := if_pos hend
  have hcommand := hs.command
  have hround : promptRound s =
      some (none,
        { s with command := bzero sizeofPointer (bzero sizeofPointer s.command) }) := by
    rw [promptRound, hnull]
  have hzeroed : (bzero sizeofPointer s.command).length = 1024 := by
    rw [length_bzero (by rw [hcommand]; decide), hcommand]
  refine ⟨_, hround, ⟨?_, hs.copy⟩, hend⟩
  change (bzero sizeofPointer _).length = 1024
  rw [length_bzero (by rw [hzeroed]; decide), hzeroed]

end Rounds

section Runs

variable {s s' : PromptState} {value fuel : Nat} {c : Bytes} {skipped later : List Bytes}
  {line : Bytes}

/-- At the end of the input the user is asked for ever. -/
theorem promptLoop_end (hs : s.Allocated) (hend : s.stdin = []) (fuel : Nat) :
    promptLoop fuel s = none := by
  induction fuel generalizing s with
  | zero => rfl
  | succ fuel ih =>
      obtain ⟨s', hround, hs', hend'⟩ := promptRound_end hs hend
      rw [promptLoop, hround]
      exact ih hs' hend'

theorem eq_of_inputLines {stdin : Bytes} {lines : List Bytes}
    (hlines : inputLines stdin = line :: lines) :
    stdin ≠ [] ∧ line = (takeLine 1023 stdin).1 ∧
      inputLines (takeLine 1023 stdin).2 = lines := by
  have hne : stdin ≠ [] := by
    intro hend
    rw [hend, inputLines_nil] at hlines
    cases hlines
  rw [inputLines_of_ne hne] at hlines
  obtain ⟨hfirst, hrest⟩ := List.cons.inj hlines
  exact ⟨hne, hfirst.symm, hrest⟩

/-- Lines on which the user is asked again are skipped, up to one that is accepted. -/
theorem promptLoop_of_accepted (hs : s.Allocated)
    (hlines : inputLines s.stdin = skipped ++ line :: later)
    (hskipped : ∀ l ∈ skipped, acceptLine (cstr l) = some none)
    (haccept : acceptLine (cstr line) = some (some (value, c))) :
    ∃ s', promptLoop (skipped.length + 1) s = some (.chosen value s') := by
  induction skipped generalizing s with
  | nil =>
      obtain ⟨hne, hfirst, _⟩ := eq_of_inputLines hlines
      have hround := promptRound_line hs hne
      rw [← hfirst, haccept] at hround
      obtain ⟨s', hround, _⟩ := hround
      exact ⟨s', by rw [promptLoop, hround]; rfl⟩
  | cons l skipped ih =>
      obtain ⟨hne, hfirst, hrest⟩ := eq_of_inputLines hlines
      have hround := promptRound_line hs hne
      rw [← hfirst, hskipped _ List.mem_cons_self] at hround
      obtain ⟨s₁, hround, hs₁, hstdin, _⟩ := hround
      rw [← hstdin] at hrest
      obtain ⟨s', hloop⟩ :=
        ih hs₁ hrest fun l hl => hskipped l (List.mem_cons_of_mem _ hl)
      exact ⟨s', by rw [List.length_cons, promptLoop, hround]; exact hloop⟩

/-- A run that ends with a command has skipped lines, and accepted the one behind
them. -/
theorem accepted_of_promptLoop (hs : s.Allocated)
    (hloop : promptLoop fuel s = some (.chosen value s')) :
    ∃ skipped line later c, inputLines s.stdin = skipped ++ line :: later ∧
      (∀ l ∈ skipped, acceptLine (cstr l) = some none) ∧
      acceptLine (cstr line) = some (some (value, c)) ∧ stringIn s'.command = some c := by
  induction fuel generalizing s with
  | zero => cases hloop
  | succ fuel ih =>
      by_cases hend : s.stdin = []
      · rw [promptLoop_end hs hend] at hloop
        cases hloop
      · have hround := promptRound_line hs hend
        rw [inputLines_of_ne hend]
        rw [promptLoop] at hloop
        cases haccept : acceptLine (cstr (takeLine 1023 s.stdin).1) with
        | none =>
            rw [haccept] at hround
            rw [show promptRound s = none from hround] at hloop
            cases hloop
        | some r =>
            rw [haccept] at hround
            obtain ⟨s₁, hround, hs₁, hstdin, hread⟩ := hround
            rw [hround] at hloop
            cases r with
            | none =>
                obtain ⟨skipped, line, later, c, hlines, hskipped, hline⟩ := ih hs₁ hloop
                rw [hstdin] at hlines
                refine ⟨_ :: skipped, line, later, c, by rw [hlines]; rfl, ?_, hline⟩
                exact List.forall_mem_cons.mpr ⟨haccept, hskipped⟩
            | some found =>
                cases hloop
                exact ⟨[], _, _, found.2, rfl, by simp, haccept, hread _ _ rfl⟩

/-- The texts of the lines fit the buffer. -/
theorem length_of_mem_inputLines {stdin : Bytes} {l : Bytes} (hl : l ∈ inputLines stdin) :
    (cstr l).length < 1024 := by
  induction stdin using inputLines.induct with
  | case1 =>
      rw [inputLines_nil] at hl
      cases hl
  | case2 b stdin ih =>
      rw [inputLines_of_ne (List.cons_ne_nil b stdin)] at hl
      rcases List.mem_cons.mp hl with rfl | hl
      · have hcstr := length_cstr_le (takeLine 1023 (b :: stdin)).1
        have hle := length_takeLine_le 1023 (b :: stdin)
        omega
      · exact ih hl

/-- Among lines of which one names a command, the first that does. -/
theorem exists_firstNamed (hnamed : ∃ value, Names line value) (later : List Bytes)
    (hskipped : ∀ l ∈ skipped, ¬ Blank l) :
    ∃ skipped' line' later' value, skipped ++ line :: later =
      skipped' ++ line' :: later' ∧
      Names line' value ∧ ∀ l ∈ skipped', ¬ Blank l ∧ ∀ v, ¬ Names l v := by
  induction skipped with
  | nil =>
      obtain ⟨value, hvalue⟩ := hnamed
      exact ⟨[], line, later, value, rfl, hvalue, by simp⟩
  | cons l skipped ih =>
      obtain ⟨hblank, hskipped⟩ := List.forall_mem_cons.mp hskipped
      by_cases hl : ∃ v, Names l v
      · obtain ⟨v, hv⟩ := hl
        exact ⟨[], l, skipped ++ line :: later, v, rfl, hv, by simp⟩
      · obtain ⟨skipped', line', later', value, heq, hvalue, hall⟩ := ih hskipped
        refine ⟨l :: skipped', line', later', value, by rw [List.cons_append, heq]; rfl,
          hvalue, ?_⟩
        exact List.forall_mem_cons.mpr ⟨⟨hblank, fun v hv => hl ⟨v, hv⟩⟩, hall⟩

/-- On a line that is neither blank nor names a command the user is asked again. -/
theorem acceptLine_again_iff {l : Bytes} (hlen : (cstr l).length < 1024) :
    acceptLine (cstr l) = some none ↔ ¬ Blank l ∧ ∀ v, ¬ Names l v := by
  have hnone := acceptLine_eq_none hlen
  have hsome := fun v => @acceptLine_eq_some l v hlen
  constructor
  · intro hagain
    constructor
    · intro hblank
      rw [hnone.mpr hblank] at hagain
      cases hagain
    · intro v hv
      rw [(hsome v).mpr hv] at hagain
      cases hagain
  · rintro ⟨hblank, hnames⟩
    cases haccept : acceptLine (cstr l) with
    | none => exact absurd (hnone.mp haccept) hblank
    | some r =>
        cases r with
        | none => rfl
        | some found =>
            obtain ⟨v, command⟩ := found
            obtain ⟨rfl, _⟩ := acceptLine_eq haccept
            exact absurd ((hsome v).mp haccept) (hnames v)

end Runs

/-- The prompt ends with a command, the first that a line of the input names, exactly
where such a line comes before any blank one. -/
theorem promptLoop_firstNamed_iff {command copy : Bytes}
    (hcommand : command.length = 1024)
    (hcopy : copy.length = 1024) (stdin : Bytes) :
    (∃ fuel value s, promptLoop fuel ⟨command, copy, stdin⟩ = some (.chosen value s) ∧
        FirstNamed (inputLines stdin) value) ↔
      ∃ skipped line later, inputLines stdin = skipped ++ line :: later ∧
        (∃ value, Names line value) ∧ ∀ l ∈ skipped, ¬ Blank l := by
  have hfit : ∀ l ∈ inputLines stdin, (cstr l).length < 1024 :=
    fun l hl => length_of_mem_inputLines hl
  constructor
  · rintro ⟨fuel, value, s, hloop, _⟩
    obtain ⟨skipped, line, later, c, hlines, hskipped, haccept, _⟩ :=
      accepted_of_promptLoop ⟨hcommand, hcopy⟩ hloop
    obtain ⟨rfl, _⟩ := acceptLine_eq haccept
    rw [hlines] at hfit
    refine ⟨skipped, line, later, hlines, ⟨value, ?_⟩, fun l hl => ?_⟩
    · exact (acceptLine_eq_some (hfit line (by simp))).mp haccept
    · exact ((acceptLine_again_iff (hfit l (by simp [hl]))).mp (hskipped l hl)).1
  · rintro ⟨skipped, line, later, hlines, hnamed, hskipped⟩
    obtain ⟨skipped', line', later', value, heq, hvalue, hall⟩ :=
      exists_firstNamed hnamed later hskipped
    rw [heq] at hlines
    rw [hlines] at hfit
    have hagain : ∀ l ∈ skipped', acceptLine (cstr l) = some none := fun l hl =>
      (acceptLine_again_iff (hfit l (by simp [hl]))).mpr (hall l hl)
    have haccept := (acceptLine_eq_some (hfit line' (by simp))).mpr hvalue
    have hs : PromptState.Allocated ⟨command, copy, stdin⟩ := ⟨hcommand, hcopy⟩
    obtain ⟨s', hloop⟩ := promptLoop_of_accepted hs hlines hagain haccept
    exact ⟨_, value, s', hloop, skipped', line', later', hlines, hvalue,
      fun l hl => (hall l hl).2⟩

/-- Buffers with nothing in them. -/
def emptyBuffer : Bytes := List.replicate 1024 0

theorem length_emptyBuffer : emptyBuffer.length = 1024 := List.length_replicate

/-- At an input with a line before the command. -/
theorem promptLoop_firstNamed_ls :
    (∃ fuel value s, promptLoop fuel ⟨emptyBuffer, emptyBuffer, [97, 10, 108, 115, 10]⟩ =
        some (.chosen value s) ∧ FirstNamed (inputLines [97, 10, 108, 115, 10]) value) ↔
      ∃ skipped line later, inputLines [97, 10, 108, 115, 10] = skipped ++ line :: later ∧
        (∃ value, Names line value) ∧ ∀ l ∈ skipped, ¬ Blank l :=
  promptLoop_firstNamed_iff length_emptyBuffer length_emptyBuffer _

/-- At the end of the input the prompt does not end, and a blank line has `strcmp` look
at `NULL`. -/
theorem promptLoop_not_total :
    (∀ fuel, promptLoop fuel ⟨emptyBuffer, emptyBuffer, []⟩ = none) ∧
      ∀ fuel,
        promptLoop (fuel + 1) ⟨emptyBuffer, emptyBuffer, [32, 10]⟩ = some .undefined := by
  have hempty : ∀ stdin, PromptState.Allocated ⟨emptyBuffer, emptyBuffer, stdin⟩ :=
    fun stdin => ⟨length_emptyBuffer, length_emptyBuffer⟩
  constructor
  · exact promptLoop_end (hempty []) rfl
  · intro fuel
    have hround := promptRound_line (hempty [32, 10]) (by simp)
    have hnone : acceptLine (cstr (takeLine 1023 [32, 10]).1) = none := by decide +kernel
    rw [hnone] at hround
    have hundef : promptRound ⟨emptyBuffer, emptyBuffer, [32, 10]⟩ = none := hround
    rw [promptLoop, hundef]

end EcFtp
