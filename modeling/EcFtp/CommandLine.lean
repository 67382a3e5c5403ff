/-
From the line a user types to the name both sides have of it.  The client takes
any white space for the end of the command word when it looks for the command,
but only a space when it looks for the name.
-/
import EcFtp.ControlMessages

namespace EcFtp

open CStrings

section Client

/-- `trim`. -/
def trim (str : Bytes) : Bytes := (str.dropWhile isspace).rdropWhile isspace

/-- `check_command`: `space` is never set, so every white space counts. -/
def checkCommand (command : Bytes) : Int := if command.countP isspace ≤ 1 then 1 else -1

/-- The characters of `delimit`. -/
def isDelimit (b : UInt8) : Bool := b ∈ ([32, 9, 13, 10, 11, 12] : Bytes)

/-- `value`, if the first word is a command of the client. -/
def clientValue (str : Bytes) : Option Nat :=
  if str = ascii "ls" then some 1
  else if str = ascii "get" then some 2
  else if str = ascii "put" then some 3
  else if str = ascii "quit" then some 4
  else none

/-- One round of `get_command` of the client, on the line that was read: the value
and the command, unless the user is asked again.  `strcmp` has to be handed a
word. -/
def acceptLine (line : Bytes) : Option (Option (Nat × Bytes)) :=
  if line.length < 2 then some none
  else do
    let copy ← strcpy 1024 (trim line)
    if checkCommand copy < 0 then pure none
    else
      let str ← (strtok isDelimit copy).1
      pure ((clientValue str).map fun value => (value, trim line))

/-- `get_filename` of the client, for a zeroed `fileptr` of 256 bytes. -/
def clientGetFilename (input : Bytes) : Option (Option Bytes) := do
  let cpy ← strcpy 1024 input
  getFilename 256 (trim cpy)

/-- What `do_get` and `do_put` send first. -/
def sendName (verb input : Bytes) : Option Bytes := do
  match ← clientGetFilename input with
  | none => pure (ascii "SKIP")
  | some filename =>
      let text ← stringIn filename
      pure (verb ++ (32 : UInt8) :: text)

/-- The control message for a command of the given value. -/
def clientMessage (value : Nat) (command : Bytes) : Option Bytes :=
  if value = 2 then sendName (ascii "RETR") command
  else if value = 3 then sendName (ascii "STOR") command
  else none

end Client

/-- Both sides have the command and the name `w`: the client stores it in its buffer,
and the server gets it from the message the client sends. -/
def ReadAlike (value : Nat) (command w : Bytes) : Prop :=
  (∃ filename, clientGetFilename command = some (some filename) ∧
    stringIn filename = some w) ∧
    ∃ msg, clientMessage value command = some msg ∧ getCommand msg = some value ∧
      ∃ filename, getFilename 1024 msg = some (some filename) ∧ stringIn filename = some w

section Lines

variable {line command t w : Bytes} {value : Nat} {d : UInt8}

/-- One white space, and a word on each side of it. -/
structure IsCommandLine (t : Bytes) (d : UInt8) (w : Bytes) : Prop where
  first : Word isspace t
  white : isspace d = true
  second : Word isspace w

theorem trim_sublist (str : Bytes) : (trim str).Sublist str :=
  (List.rdropWhile_prefix _ _).sublist.trans (List.dropWhile_sublist _)

theorem trim_eq (h : IsCommandLine t d w) : trim (t ++ d :: w) = t ++ d :: w := by
  obtain ⟨a, t, rfl⟩ := List.exists_cons_of_ne_nil h.first.ne_nil
  obtain ⟨w, b, rfl⟩ := (List.eq_nil_or_concat' w).resolve_left h.second.ne_nil
  have ha : ¬ isspace a = true := by simp [h.first.not_delim a List.mem_cons_self]
  have hb : ¬ isspace b = true := by simp [h.second.not_delim b (by simp)]
  rw [trim, List.cons_append, List.dropWhile_cons_of_neg ha]
  have hlast : a :: (t ++ d :: (w ++ [b])) = (a :: (t ++ d :: w)) ++ [b] := by simp
  rw [hlast, List.rdropWhile_concat_neg _ _ _ hb]

/-- A command that passes `check_command` and has a second word. -/
theorem exists_commandLine (hcount : command.countP isspace ≤ 1)
    (hw : (tokens isspace command)[1]? = some w) :
    ∃ t d, command = t ++ d :: w ∧ IsCommandLine t d w := by
  cases parts isspace command with
  | none hds =>
      rw [tokens_delims hds] at hw
      cases hw
  | last hds ht =>
      rw [tokens_delims_append hds, ht.tokens] at hw
      cases hw
  | @more ds t d hds ht hd rest =>
      rw [tokens_delims_append hds, ht.tokens_append hd] at hw
      simp only [List.countP_append, List.countP_cons, hd, ↓reduceIte] at hcount
      have hds0 : ds = [] := by
        have hall := List.countP_eq_length.mpr hds
        exact List.length_eq_zero_iff.mp (by omega)
      have hrest : ∀ b ∈ rest, isspace b = false := by
        intro b hb
        have hzero : rest.countP isspace = 0 := by omega
        simpa using List.countP_eq_zero.mp hzero b hb
      cases rest with
      | nil => cases hw
      | cons b rest =>
          have hword : Word isspace (b :: rest) := ⟨hrest, List.cons_ne_nil b rest⟩
          rw [hword.tokens] at hw
          obtain rfl : b :: rest = w := by simpa using hw
          exact ⟨t, d, by rw [hds0, List.nil_append], ht, hd, hword⟩

theorem isspace_of_isBlank {b : UInt8} (hb : isBlank b = true) : isspace b = true := by
  have hspace : b = 32 := by simpa [isBlank] using hb
  simp [isspace, hspace]

theorem word_isBlank (h : Word isspace t) : Word isBlank t := by
  refine ⟨fun b hb => ?_, h.ne_nil⟩
  apply Bool.eq_false_iff.mpr
  intro hblank
  have hspace := h.not_delim b hb
  rw [isspace_of_isBlank hblank] at hspace
  cases hspace

/-- A space between the words separates them for both sides. -/
theorem IsCommandLine.tokens_space (h : IsCommandLine t 32 w) :
    tokens isBlank (t ++ 32 :: w) = [t, w] := by
  rw [(word_isBlank h.first).tokens_append rfl, (word_isBlank h.second).tokens]

/-- Any other white space leaves them one word. -/
theorem IsCommandLine.tokens_other (h : IsCommandLine t d w) (hd : d ≠ 32) :
    tokens isBlank (t ++ d :: w) = [t ++ d :: w] := by
  apply Word.tokens
  refine ⟨?_, by simp⟩
  simp only [List.forall_mem_append, List.forall_mem_cons]
  exact ⟨(word_isBlank h.first).not_delim, by simpa [isBlank] using hd,
    (word_isBlank h.second).not_delim⟩

/-- What an accepted line is. -/
theorem acceptLine_eq {line : Bytes}
    (haccept : acceptLine line = some (some (value, command))) :
    command = trim line ∧ command.length < 1024 ∧ command.countP isspace ≤ 1 := by
  unfold acceptLine at haccept
  split at haccept
  · cases haccept
  · obtain ⟨copy, hcopy, hrest⟩ := Option.bind_eq_some_iff.mp haccept
    unfold strcpy at hcopy
    split at hcopy
    · rename_i hlen
      cases hcopy
      split at hrest
      · cases hrest
      · rename_i hcheck
        obtain ⟨str, hstr, hfound⟩ := Option.bind_eq_some_iff.mp hrest
        have hpair : ((clientValue str).map fun v => (v, trim line)) =
          some (value, command) :=
          Option.some.inj hfound
        obtain ⟨v, hv, heq⟩ := Option.map_eq_some_iff.mp hpair
        obtain rfl : trim line = command := (Prod.mk.inj heq).2
        refine ⟨rfl, hlen, ?_⟩
        by_contra hcount
        exact hcheck (by rw [checkCommand, if_neg hcount]; decide)
    · cases hcopy

/-- The client finds the name behind a space, and no name behind anything else. -/
theorem clientGetFilename_eq (h : IsCommandLine t d w)
    (hlen : (t ++ d :: w).length < 1024) :
    clientGetFilename (t ++ d :: w) =
      if d = 32 then if w.length ≤ 256 then some (some (zeroed 256 w)) else none
      else some none := by
  simp only [clientGetFilename, strcpy, if_pos hlen,
    Option.bind_eq_bind, Option.bind_some, trim_eq h, getFilename_tokens]
  by_cases hd : d = 32
  · subst hd
    rw [h.tokens_space, if_pos rfl]
    rfl
  · rw [h.tokens_other hd, if_neg hd]
    rfl

/-- A buffer of 256 bytes holds a name of at most 255. -/
theorem stringIn_filename (hnul : 0 ∉ w) :
    stringIn (zeroed 256 w) = some w ↔ w.length ≤ 255 := by
  constructor
  · intro hread
    by_contra hlong
    have hzero : 256 - w.length = 0 := by omega
    rw [zeroed, hzero, List.replicate_zero, List.append_nil,
      stringIn, if_neg hnul] at hread
    cases hread
  · intro hshort
    rw [stringIn_zeroed (by omega), cstr_of_not_mem hnul]

/-- The server reads what is sent for a name. -/
theorem server_reads {verb : Bytes} (h : IsCommandLine verb 32 w) (hnul : 0 ∉ w)
    (hlen : (verb ++ 32 :: w).length < 1024) :
    getCommand (verb ++ 32 :: w) = some (commandValue verb) ∧
      ∃ filename, getFilename 1024 (verb ++ 32 :: w) = some (some filename) ∧
        stringIn filename = some w := by
  constructor
  · simp only [getCommand, strcpy, if_pos hlen, Option.bind_eq_bind, Option.bind_some,
      strtok_fst, h.tokens_space, List.head?_cons]
    rfl
  · refine ⟨zeroed 1024 w, ?_, ?_⟩
    · rw [getFilename_eq (by omega), h.tokens_space]
      rfl
    · have hw : w.length < 1024 := by
        simp only [List.length_append, List.length_cons] at hlen
        omega
      rw [stringIn_zeroed hw, cstr_of_not_mem hnul]

theorem clientMessage_eq (h : IsCommandLine t 32 w) (hlen : (t ++ 32 :: w).length < 1024)
    (hnul : 0 ∉ w) (hshort : w.length ≤ 255) (hvalue : value = 2 ∨ value = 3) :
    ∃ verb, clientMessage value (t ++ 32 :: w) = some (verb ++ 32 :: w) ∧
      Word isspace verb ∧ verb.length = 4 ∧ commandValue verb = value := by
  have hsend : ∀ verb, sendName verb (t ++ 32 :: w) = some (verb ++ 32 :: w) := by
    intro verb
    have hfound := clientGetFilename_eq h hlen
    rw [if_pos rfl, if_pos (by omega)] at hfound
    simp only [sendName, hfound, Option.bind_eq_bind, Option.bind_some,
      (stringIn_filename hnul).mpr hshort]
    rfl
  rcases hvalue with rfl | rfl
  · exact ⟨ascii "RETR", by rw [clientMessage, if_pos rfl, hsend],
      ⟨by decide +kernel, by decide +kernel⟩, by decide +kernel, by decide +kernel⟩
  · exact ⟨ascii "STOR", by rw [clientMessage, if_neg (by decide), if_pos rfl, hsend],
      ⟨by decide +kernel, by decide +kernel⟩, by decide +kernel, by decide +kernel⟩

theorem readAlike_iff (h : IsCommandLine t d w) (hlen : (t ++ d :: w).length < 1024)
    (hnul : 0 ∉ w) (hvalue : value = 2 ∨ value = 3) :
    ReadAlike value (t ++ d :: w) w ↔ d = 32 ∧ w.length ≤ 255 := by
  constructor
  · rintro ⟨⟨filename, hfound, hread⟩, _⟩
    rw [clientGetFilename_eq h hlen] at hfound
    split at hfound
    · rename_i hd
      split at hfound
      · cases hfound
        exact ⟨hd, (stringIn_filename hnul).mp hread⟩
      · cases hfound
    · cases hfound
  · rintro ⟨rfl, hshort⟩
    obtain ⟨verb, hmessage, hverb, hfour, hval⟩ :=
      clientMessage_eq h hlen hnul hshort hvalue
    have hsent : IsCommandLine verb 32 w := ⟨hverb, rfl, h.second⟩
    obtain ⟨hcommand, hname⟩ := server_reads hsent hnul (by
      simp only [List.length_append, List.length_cons]
      omega)
    refine ⟨⟨zeroed 256 w, ?_, (stringIn_filename hnul).mpr hshort⟩,
      verb ++ 32 :: w, hmessage, by rw [hcommand, hval], hname⟩
    rw [clientGetFilename_eq h hlen, if_pos rfl, if_pos (by omega)]

/-- The one white space of a command line is a space where the text has a space. -/
theorem IsCommandLine.space_iff (h : IsCommandLine t d w) :
    32 ∈ t ++ d :: w ↔ d = 32 := by
  have hfree : ∀ {s : Bytes}, Word isspace s → 32 ∉ s := by
    intro s hs hmem
    have hspace := hs.not_delim 32 hmem
    cases hspace
  simp only [List.mem_append, List.mem_cons, hfree h.first,
    hfree h.second, false_or, or_false]
  exact eq_comm

/-- Exactly these accepted lines give both sides the same command and name. -/
theorem commandLine_readAlike_iff {buf : Bytes}
    (haccept : acceptLine (cstr buf) = some (some (value, command)))
    (hvalue : value = 2 ∨ value = 3)
    (hw : (tokens isspace (trim (cstr buf)))[1]? = some w) :
    ReadAlike value command w ↔ 32 ∈ trim (cstr buf) ∧ w.length ≤ 255 := by
  obtain ⟨hcommand, hshort, hcount⟩ := acceptLine_eq haccept
  rw [← hcommand] at hw ⊢
  have hnul : 0 ∉ command :=
    fun hmem => not_mem_cstr buf ((trim_sublist _).mem (hcommand ▸ hmem))
  obtain ⟨t, d, rfl, hform⟩ := exists_commandLine hcount hw
  rw [hform.space_iff]
  exact readAlike_iff hform hshort (fun hmem => hnul (by simp [hmem])) hvalue

/-- At a line with a space in it. -/
theorem commandLine_readAlike_get :
    ReadAlike 2 (ascii "get f") (ascii "f") ↔
      32 ∈ trim (cstr (ascii "get f\n")) ∧ (ascii "f").length ≤ 255 :=
  @commandLine_readAlike_iff _ _ _ (ascii "get f\n") (by decide +kernel) (.inl rfl)
    (by decide +kernel)

/-- The client takes the line for `get f`, and then finds no name in it. -/
theorem commandLine_notReadAlike :
    acceptLine (cstr (ascii "get\tf\n")) = some (some (2, ascii "get\tf")) ∧
      (tokens isspace (trim (cstr (ascii "get\tf\n"))))[1]? = some (ascii "f") ∧
      clientGetFilename (ascii "get\tf") = some none ∧
      clientMessage 2 (ascii "get\tf") = some (ascii "SKIP") ∧
      ¬ ReadAlike 2 (ascii "get\tf") (ascii "f") := by
  have hnone : clientGetFilename (ascii "get\tf") = some none := by decide +kernel
  refine ⟨by decide +kernel, by decide +kernel, hnone, by decide +kernel, ?_⟩
  rintro ⟨⟨filename, hfound, _⟩, _⟩
  rw [hnone] at hfound
  cases hfound

end Lines

end EcFtp
