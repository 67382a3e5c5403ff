/-
The PORT command: the client prints an address and a port, the server reads them
back, and connects to them.
-/
import EcFtp.CStrings
import EcFtp.Libc

namespace EcFtp

open CStrings WorkerOrder

/-- `INET_ADDRSTRLEN`. -/
def inetAddrstrlen : Nat := 16

def isBlank (b : UInt8) : Bool := b == 32

def isComma (b : UInt8) : Bool := b == 44

/-- `strncpy(dest, src, n)`: as many bytes of `src` as `n`, or NULs behind it. -/
def strncpy (src : Bytes) (n : Nat) : Bytes :=
  src.take n ++ List.replicate (n - src.length) 0

/-- The string in a buffer, if a NUL of the buffer ends it. -/
def stringIn (buf : Bytes) : Option Bytes := if 0 ∈ buf then some (cstr buf) else none

section Client

/-- One round of the loops of `split_port`, on the byte and on `x`. -/
def orBit (port : UInt16) (s : UInt8 × UInt32) : UInt8 × UInt32 :=
  (s.1 ||| (port.toUInt32 &&& s.2).toUInt8, s.2 <<< 1)

def orBits (port : UInt16) : UInt8 :=
  ((List.range 8).foldl (fun s _ => orBit port s) (0, 1)).1

/-- `split_port`: `*p1` and `*p2`. -/
def splitPort (port : UInt16) : UInt8 × UInt8 := (orBits (port >>> 8), orBits port)

/-- One round of the loop over `ip_temp`, which must not leave the buffer. -/
def commaAt (ipTemp : Bytes) (i : Nat) : Option Bytes :=
  ipTemp[i]?.map fun b => if b = 46 then ipTemp.set i 44 else ipTemp

/-- `generate_port_command`, on the string `ip`. -/
def generatePortCommand (ip : Bytes) (port : UInt16) : Option Bytes := do
  let ipTemp ← (List.range ip.length).foldlM commaAt (strncpy ip inetAddrstrlen)
  let text ← stringIn ipTemp
  let (p1, p2) := splitPort port
  pure (ascii "PORT " ++ text ++ 44 :: decimal p1.toNat ++ 44 :: decimal p2.toNat)

/-- Eight rounds take the low eight bits, one after the other. -/
theorem orBits_eq (port : UInt16) : orBits port = port.toUInt8 := by
  apply UInt8.toBitVec_inj.mp
  apply BitVec.eq_of_getLsbD_eq
  intro i hi
  simp only [orBits, orBit, List.range_succ, List.range_zero, List.nil_append,
    List.cons_append, List.foldl_cons, List.foldl_nil]
  interval_cases i <;> simp

/-- A dot becomes a comma. -/
def comma (b : UInt8) : UInt8 := if b = 46 then 44 else b

variable {ip rest : Bytes}

theorem commaAt_append (done : Bytes) (b : UInt8) :
    commaAt (done ++ b :: rest) done.length = some (done ++ comma b :: rest) := by
  unfold commaAt comma
  rw [List.getElem?_append_right (Nat.le_refl _), Nat.sub_self, List.getElem?_cons_zero,
    Option.map_some]
  split
  · simp
  · rfl

/-- The loop goes over the text, and leaves what is behind it. -/
theorem commas_eq (ip rest : Bytes) :
    (List.range ip.length).foldlM commaAt (ip ++ rest) = some (ip.map comma ++ rest) := by
  have hinv : ∀ k < ip.length,
      commaAt ((ip.take k).map comma ++ (ip.drop k ++ rest)) k =
        some ((ip.take (k + 1)).map comma ++ (ip.drop (k + 1) ++ rest)) := by
    intro k hk
    have hlen : ((ip.take k).map comma).length = k := by simp; omega
    have hround := @commaAt_append (ip.drop (k + 1) ++ rest) ((ip.take k).map comma) ip[k]
    rw [hlen] at hround
    rw [List.drop_eq_getElem_cons hk, List.cons_append, hround,
      List.take_succ_eq_append_getElem hk]
    simp only [List.map_append, List.map_cons, List.map_nil, List.append_assoc,
      List.cons_append, List.nil_append]
  have hloop := foldlM_range_eq_some hinv
  simpa using hloop

/-- A text with a NUL behind it. -/
theorem stringIn_append (hip : 0 ∉ ip) (n : Nat) :
    stringIn (ip ++ List.replicate (n + 1) 0) = some ip := by
  unfold stringIn
  rw [if_pos (by simp [List.replicate_succ]), cstr_append_replicate, cstr_of_not_mem hip]

/-- A copy that has room for the NUL holds the same string. -/
theorem strncpy_eq {n : Nat} (hlen : ip.length < n) :
    strncpy ip n = ip ++ List.replicate (n - 1 - ip.length + 1) 0 := by
  rw [strncpy, List.take_of_length_le (by omega)]
  congr 2
  omega

/-- An address text that leaves room for the NUL. -/
theorem generatePortCommand_eq (hip : 0 ∉ ip) (hlen : ip.length < inetAddrstrlen)
    (port : UInt16) : generatePortCommand ip port =
      some (ascii "PORT " ++ ip.map comma ++ 44 :: decimal (port >>> 8).toUInt8.toNat ++
        44 :: decimal port.toUInt8.toNat) := by
  have htext : 0 ∉ ip.map comma := by
    intro hmem
    obtain ⟨b, hb, hzero⟩ := List.mem_map.mp hmem
    unfold comma at hzero
    split at hzero
    · cases hzero
    · exact hip (hzero ▸ hb)
  unfold generatePortCommand
  rw [strncpy_eq hlen, commas_eq]
  simp only [Option.bind_eq_bind, Option.bind_some,
    stringIn_append htext, splitPort, orBits_eq]
  rfl

end Client

section Server

/-- `sprintf(client_ip, "%s.%s.%s.%s", h1, h2, h3, h4)`: all four are there, and the
text and its NUL fit into `client_ip`. -/
def sprintfAddress (h1 h2 h3 h4 : Option Bytes) : Option Bytes := do
  let text := (← h1) ++ 46 :: (← h2) ++ 46 :: (← h3) ++ 46 :: (← h4)
  if text.length < inetAddrstrlen then pure text else none

/-- `uint16_t` of the number in a token, which must be there. -/
def portByte (token : Option Bytes) : Option UInt16 :=
  token.map fun t => UInt16.ofInt (atoi t)

/-- `read_port_command`: `client_ip` and `*client_port`. -/
def readPortCommand (str : Bytes) : Option (Bytes × UInt16) := do
  let str := (strtok isBlank str).2
  let (h1, str) := strtok isComma str
  let (h2, str) := strtok isComma str
  let (h3, str) := strtok isComma str
  let (h4, str) := strtok isComma str
  let (p1, str) := strtok isComma str
  let (p2, _) := strtok isComma str
  let clientIp ← sprintfAddress h1 h2 h3 h4
  let p1I ← portByte p1
  let p2I ← portByte p2
  pure (clientIp, (p1I <<< 8) + p2I)

/-- What becomes of the tokens behind the first word. -/
def portOfTokens : List Bytes → Option (Bytes × UInt16)
  | h1 :: h2 :: h3 :: h4 :: p1 :: p2 :: _ => do
      let clientIp ← sprintfAddress (some h1) (some h2) (some h3) (some h4)
      pure (clientIp, (UInt16.ofInt (atoi p1) <<< 8) + UInt16.ofInt (atoi p2))
  | _ => none

theorem sprintfAddress_none {h1 h2 h3 h4 : Option Bytes}
    (h : h1 = none ∨ h2 = none ∨ h3 = none ∨ h4 = none) :
    sprintfAddress h1 h2 h3 h4 = none := by
  unfold sprintfAddress
  rcases h with rfl | rfl | rfl | rfl
  · rfl
  · cases h1 <;> rfl
  · cases h1 <;> cases h2 <;> rfl
  · cases h1 <;> cases h2 <;> cases h3 <;> rfl

theorem readPortCommand_eq (str : Bytes) :
    readPortCommand str = portOfTokens (tokens isComma (strtok isBlank str).2) := by
  unfold readPortCommand
  generalize (strtok isBlank str).2 = s
  simp only [strtok_fst, tokens_strtok_snd]
  rcases tokens isComma s with _ |
    ⟨h1, _ | ⟨h2, _ | ⟨h3, _ | ⟨h4, _ | ⟨p1, _ | ⟨p2, l⟩⟩⟩⟩⟩⟩
  · simp [portOfTokens, sprintfAddress_none]
  · simp [portOfTokens, sprintfAddress_none]
  · simp [portOfTokens, sprintfAddress_none]
  · simp [portOfTokens, sprintfAddress_none]
  · simp [portOfTokens, portByte]
  · simp [portOfTokens, portByte]
  · simp [portOfTokens, portByte]

end Server

section Addresses

abbrev Address := Vector UInt8 4

/-- A field of a message: a decimal number of up to three digits, in the range 0 to
255. -/
structure IsField (field : Bytes) : Prop where
  isdigit : ∀ b ∈ field, isdigit b = true
  ne_nil : field ≠ []
  length_le : field.length ≤ 3
  value_le : digitsValue field ≤ 255

instance (field : Bytes) : Decidable (IsField field) :=
  decidable_of_iff ((∀ b ∈ field, CStrings.isdigit b = true) ∧ field ≠ [] ∧
      field.length ≤ 3 ∧ digitsValue field ≤ 255)
    ⟨fun ⟨h1, h2, h3, h4⟩ => ⟨h1, h2, h3, h4⟩, fun ⟨h1, h2, h3, h4⟩ => ⟨h1, h2, h3, h4⟩⟩

/-- A field of an address text, which begins with a zero only if it is zero. -/
structure IsOctet (field : Bytes) : Prop extends IsField field where
  zero_alone : field.head? = some 48 → field.length = 1

instance (field : Bytes) : Decidable (IsOctet field) :=
  decidable_of_iff (IsField field ∧ (field.head? = some 48 → field.length = 1))
    ⟨fun ⟨h1, h2⟩ => ⟨h1, h2⟩, fun ⟨h1, h2⟩ => ⟨h1, h2⟩⟩

def fieldValue (field : Bytes) : Option UInt8 :=
  if IsOctet field then some (UInt8.ofNat (digitsValue field)) else none

/-- `inet_pton(AF_INET, str, &addr)`. -/
def inetPton (str : Bytes) : Option Address :=
  match str.splitOn 46 with
  | [h1, h2, h3, h4] => do
      pure #v[← fieldValue h1, ← fieldValue h2, ← fieldValue h3, ← fieldValue h4]
  | _ => none

variable {field ip : Bytes} {addr : Address}

theorem isField_of_value {v : UInt8} (h : fieldValue field = some v) : IsField field := by
  unfold fieldValue at h
  split at h
  · rename_i hoctet
    exact hoctet.toIsField
  · cases h

/-- `inet_pton` does not take a leading zero. -/
example : inetPton (ascii "010.0.0.1") = none := by decide +kernel

/-- The fields of an address text. -/
theorem inetPton_fields (h : inetPton ip = some addr) : ∃ h1 h2 h3 h4,
    (IsField h1 ∧ IsField h2 ∧ IsField h3 ∧ IsField h4) ∧
      ip = h1 ++ 46 :: h2 ++ 46 :: h3 ++ 46 :: h4 := by
  unfold inetPton at h
  split at h
  · rename_i h1 h2 h3 h4 hsplit
    have hjoin := @List.intercalate_splitOn _ ip _ _ 46
    rw [hsplit] at hjoin
    simp only [Option.pure_def, Option.bind_eq_bind, Option.bind_eq_some_iff] at h
    obtain ⟨v1, hv1, v2, hv2, v3, hv3, v4, hv4, _⟩ := h
    refine ⟨h1, h2, h3, h4, ⟨isField_of_value hv1, isField_of_value hv2,
      isField_of_value hv3, isField_of_value hv4⟩, ?_⟩
    rw [← hjoin]
    simp [List.intercalate]
  · cases h

theorem IsField.forall_ne (h : IsField field) {b : UInt8}
    (hb : CStrings.isdigit b = false) :
    b ∉ field := by
  intro hmem
  rw [h.isdigit b hmem] at hb
  cases hb

theorem IsField.word (h : IsField field) : Word isComma field where
  not_delim b hb := by
    have hne : b ≠ 44 := by
      rintro rfl
      exact h.forall_ne rfl hb
    simpa [isComma] using hne
  ne_nil := h.ne_nil

theorem IsField.map_comma (h : IsField field) : field.map comma = field := by
  refine (List.map_congr_left fun b hb => ?_).trans (List.map_id field)
  have hne : b ≠ 46 := by
    rintro rfl
    exact h.forall_ne rfl hb
  simp [comma, hne]

theorem word_decimal (n : Nat) : Word isComma (decimal n) where
  not_delim b hb := by
    have hdigit := isdigit_of_mem_decimal hb
    have hne : b ≠ 44 := by
      rintro rfl
      cases hdigit
    simpa [isComma] using hne
  ne_nil := decimal_ne_nil n

end Addresses

/-- The message "PORT h1,h2,h3,h4,p1,p2". -/
def portMessage (h1 h2 h3 h4 p1 p2 : Bytes) : Bytes :=
  ascii "PORT" ++ (32 : UInt8) :: (h1 ++ (44 : UInt8) :: (h2 ++ (44 : UInt8) ::
    (h3 ++ (44 : UInt8) :: (h4 ++ (44 : UInt8) :: (p1 ++ (44 : UInt8) :: p2)))))

theorem word_port : Word isBlank (ascii "PORT") where
  not_delim := by
    simp [ascii, isBlank]
    decide
  ne_nil := by simp [ascii]

/-- The tokens of a PORT message. -/
theorem tokens_portMessage {h1 h2 h3 h4 p1 p2 : Bytes} (hw1 : Word isComma h1)
    (hw2 : Word isComma h2) (hw3 : Word isComma h3) (hw4 : Word isComma h4)
    (hp1 : Word isComma p1) (hp2 : Word isComma p2) :
    tokens isComma (strtok isBlank (portMessage h1 h2 h3 h4 p1 p2)).2 =
      [h1, h2, h3, h4, p1, p2] := by
  have hcomma : isComma 44 = true := rfl
  rw [portMessage, word_port.strtok_append rfl, hw1.tokens_append hcomma,
    hw2.tokens_append hcomma, hw3.tokens_append hcomma, hw4.tokens_append hcomma,
    hp1.tokens_append hcomma, hp2.tokens]

section RoundTrip

variable {ip : Bytes} {addr : Address}

theorem toNat_ofInt {n : Nat} (hn : n < 2 ^ 16) : (UInt16.ofInt n).toNat = n := by
  simp only [UInt16.ofInt, UInt16.toNat_ofNat']
  omega

/-- The high and the low byte of a port, put together again. -/
theorem portBytes_eq (port : UInt16) :
    (UInt16.ofInt (atoi (decimal (port >>> 8).toUInt8.toNat)) <<< 8) +
      UInt16.ofInt (atoi (decimal port.toUInt8.toNat)) = port := by
  have hhigh : (port >>> 8).toUInt8.toNat < 256 := (port >>> 8).toUInt8.toNat_lt
  have hlow : port.toUInt8.toNat < 256 := port.toUInt8.toNat_lt
  rw [atoi_decimal (by omega), atoi_decimal (by omega)]
  have hport := port.toNat_lt
  apply UInt16.toNat_inj.mp
  rw [UInt16.toNat_add, UInt16.toNat_shiftLeft, toNat_ofInt (by omega),
    toNat_ofInt (by omega)]
  simp [Nat.shiftRight_eq_div_pow, Nat.shiftLeft_eq]
  omega

theorem length_fields {h1 h2 h3 h4 : Bytes} (hf1 : IsField h1) (hf2 : IsField h2)
    (hf3 : IsField h3) (hf4 : IsField h4) :
    (h1 ++ 46 :: h2 ++ 46 :: h3 ++ 46 :: h4).length < inetAddrstrlen := by
  have hle1 := hf1.length_le
  have hle2 := hf2.length_le
  have hle3 := hf3.length_le
  have hle4 := hf4.length_le
  simp only [inetAddrstrlen, List.length_append, List.length_cons]
  omega

/-- An address text fits into `INET_ADDRSTRLEN` bytes, with its NUL. -/
theorem inetPton_text (hip : inetPton ip = some addr) :
    0 ∉ ip ∧ ip.length < inetAddrstrlen := by
  obtain ⟨h1, h2, h3, h4, ⟨hf1, hf2, hf3, hf4⟩, rfl⟩ := inetPton_fields hip
  constructor
  · simp [hf1.forall_ne, hf2.forall_ne, hf3.forall_ne, hf4.forall_ne, CStrings.isdigit]
  · exact length_fields hf1 hf2 hf3 hf4

theorem exists_portCommand (hip : inetPton ip = some addr) (port : UInt16) :
    ∃ str, generatePortCommand ip port = some str ∧
      readPortCommand str = some (ip, port) := by
  obtain ⟨hnul, hlen⟩ := inetPton_text hip
  obtain ⟨h1, h2, h3, h4, ⟨hf1, hf2, hf3, hf4⟩, rfl⟩ := inetPton_fields hip
  have hmessage : ascii "PORT " ++ (h1 ++ 46 :: h2 ++ 46 :: h3 ++ 46 :: h4).map comma ++
      44 :: decimal (port >>> 8).toUInt8.toNat ++ 44 :: decimal port.toUInt8.toNat =
      portMessage h1 h2 h3 h4 (decimal (port >>> 8).toUInt8.toNat)
        (decimal port.toUInt8.toNat) := by
    have hport : ascii "PORT " = ascii "PORT" ++ [32] := by
      simp only [ascii]
      decide
    simp [portMessage, hf1.map_comma, hf2.map_comma, hf3.map_comma,
      hf4.map_comma, hport, comma]
  refine ⟨_, generatePortCommand_eq hnul hlen port, ?_⟩
  rw [readPortCommand_eq, hmessage,
    tokens_portMessage hf1.word hf2.word hf3.word hf4.word
      (word_decimal _) (word_decimal _)]
  simp only [portOfTokens, sprintfAddress, Option.bind_eq_bind,
    Option.bind_some, if_pos hlen, portBytes_eq]
  rfl

/-- What `generate_port_command` prints, `read_port_command` reads back, and the address
text fits into `ip_temp` and `client_ip`. -/
theorem readPortCommand_generatePortCommand (hip : inetPton ip = some addr)
    (port : UInt16) :
    ip.length < inetAddrstrlen ∧
      ∃ str, generatePortCommand ip port = some str ∧
        readPortCommand str = some (ip, port) :=
  ⟨(inetPton_text hip).2, exists_portCommand hip port⟩

/-- The text "127.0.0.1". -/
def loopbackText : Bytes := [49, 50, 55, 46, 48, 46, 48, 46, 49]

/-- The loopback address, and a port whose low byte is zero. -/
theorem readPortCommand_loopback : loopbackText.length < inetAddrstrlen ∧
    ∃ str, generatePortCommand loopbackText 5120 = some str ∧
      readPortCommand str = some (loopbackText, 5120) :=
  @readPortCommand_generatePortCommand loopbackText #v[127, 0, 0, 1]
    (by decide +kernel) 5120

end RoundTrip

section DataConnection

/-- `main` of the client, up to its PORT command: `argv[1]` is an address it can
connect to, and the port is the one its data socket listens on. -/
def clientPortCommand (serverIp : Bytes) (clientConnPort : UInt16) : Option Bytes := do
  let ip ← stringIn (strncpy serverIp inetAddrstrlen)
  if (inetPton serverIp).isSome then generatePortCommand ip clientConnPort else none

/-- `main` of the server, from the PORT command on: `setup_data_connection` connects
to the address and the port that were read. -/
def serverEndpoint (recvline : Bytes) : Option (Address × UInt16) := do
  let (clientIp, clientPort) ← readPortCommand recvline
  let addr ← inetPton clientIp
  pure (addr, clientPort)

variable {serverIp : Bytes} {serverAddr : Address}

/-- The server is told its own address. -/
theorem serverEndpoint_eq (hip : inetPton serverIp = some serverAddr) (port : UInt16) :
    (clientPortCommand serverIp port).bind serverEndpoint = some (serverAddr, port) := by
  obtain ⟨hnul, hlen⟩ := inetPton_text hip
  obtain ⟨str, hgenerate, hread⟩ := exists_portCommand hip port
  have hcopy : stringIn (strncpy serverIp inetAddrstrlen) = some serverIp := by
    rw [strncpy_eq hlen, stringIn_append hnul]
  simp only [clientPortCommand, hcopy, Option.bind_eq_bind, Option.bind_some, hip,
    Option.isSome_some, ↓reduceIte, hgenerate, serverEndpoint, hread]
  rfl

/-- The data connection goes to the client just if the client has the address under
which it knows the server. -/
theorem dataConnection_toClient_iff (hip : inetPton serverIp = some serverAddr)
    (clientAddr : Address) (port : UInt16) :
    (clientPortCommand serverIp port).bind serverEndpoint = some (clientAddr, port) ↔
      serverAddr = clientAddr := by
  rw [serverEndpoint_eq hip]
  simp

/-- Both on one host. -/
theorem dataConnection_loopback :
    (clientPortCommand loopbackText 5120).bind serverEndpoint =
      some (#v[127, 0, 0, 1], 5120) :=
  (@dataConnection_toClient_iff loopbackText #v[127, 0, 0, 1] (by decide +kernel)
    #v[127, 0, 0, 1] 5120).mpr rfl

/-- The text "10.0.0.1". -/
def serverText : Bytes := [49, 48, 46, 48, 46, 48, 46, 49]

/-- A client at 10.0.0.2 makes the server at 10.0.0.1 connect to itself. -/
theorem dataConnection_notToClient :
    (clientPortCommand serverText 5120).bind serverEndpoint =
      some (#v[10, 0, 0, 1], 5120) ∧
      (clientPortCommand serverText 5120).bind serverEndpoint ≠
        some (#v[10, 0, 0, 2], 5120) := by
  decide +kernel

end DataConnection

end EcFtp
