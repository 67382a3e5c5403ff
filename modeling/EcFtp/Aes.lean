/-
The block cipher: the table-building loop, the round functions on a
row-ordered text, the key schedule, encryption and decryption of one block, and
the two transpositions around them.
-/
import EcFtp.Libc

namespace EcFtp

/-- `uint8_t text[16]`. -/
abbrev Block := Vector Byte 16

/-- `uint8_t sbox[256]`. -/
abbrev Table := Vector Byte 256

/-- `uint8_t column[4]`. -/
abbrev Column := Vector Byte 4

/-- `uint32_t key[4]`. -/
abbrev Key := Vector UInt32 4

abbrev RoundKeys := Vector Block 11

def rotl8 (x shift : Byte) : Byte := (x <<< shift) ||| (x >>> (8 - shift))

/-- Multiply `p` by 3. -/
def timesThree (p : Byte) : Byte :=
  p ^^^ (p <<< 1) ^^^ (if p &&& 0x80 ≠ 0 then 0x1B else 0)

/-- Divide `q` by 3. -/
def divThree (q : Byte) : Byte :=
  let q := q ^^^ (q <<< 1)
  let q := q ^^^ (q <<< 2)
  let q := q ^^^ (q <<< 4)
  q ^^^ (if q &&& 0x80 ≠ 0 then 0x09 else 0)

/-- The affine transformation of the S-box. -/
def xform (q : Byte) : Byte :=
  q ^^^ rotl8 q 1 ^^^ rotl8 q 2 ^^^ rotl8 q 3 ^^^ rotl8 q 4 ^^^ 0x63

/-- `table[i] = b`. -/
def Table.put (table : Table) (i b : Byte) : Table :=
  table.set i.toNat b i.toNat_lt

/-- `table[i]`. -/
def Table.at (table : Table) (i : Byte) : Byte :=
  have hi : i.toNat < 256 := i.toNat_lt
  table[i.toNat]

/-- The `do … while (p != 1)` loop of `initialize_aes_sbox`, at most `fuel`
times. -/
def sboxLoop : Nat → Byte → Byte → Table × Table → Option (Table × Table)
  | 0, _, _, _ => none
  | fuel + 1, p, q, (sbox, invsbox) =>
      let p := timesThree p
      let q := divThree q
      let tables := (sbox.put p (xform q), invsbox.put (xform q) p)
      if p = 1 then some tables else sboxLoop fuel p q tables

def initializeAesSbox (sbox invsbox : Table) : Option (Table × Table) :=
  (sboxLoop 256 1 1 (sbox, invsbox)).map fun (sbox, invsbox) =>
    (sbox.put 0 0x63, invsbox.put 0x63 0)

def addRoundKey (text key : Block) : Block :=
  Vector.zipWith (· ^^^ ·) text key

/-- Rotate row `i` by one to the left, in place. -/
def shiftRow (text : Block) (i : Fin 4) : Block :=
  let temp := text[4 * i.val]
  let text := (List.finRange 3).foldl
    (fun (text : Block) (j : Fin 3) =>
      text.set (4 * i.val + j.val) text[4 * i.val + j.val + 1]) text
  text.set (4 * i.val + 3) temp

def shiftRows (text : Block) : Block := [1, 2, 3].foldl shiftRow text

/-- Rotate row `i` by one to the right, in place. -/
def shiftRowInv (text : Block) (i : Fin 4) : Block :=
  let temp := text[4 * i.val + 3]
  let text := ([2, 1, 0] : List (Fin 3)).foldl
    (fun (text : Block) (j : Fin 3) =>
      text.set (4 * i.val + j.val + 1) text[4 * i.val + j.val]) text
  text.set (4 * i.val) temp

def shiftRowsInv (text : Block) : Block := [1, 2, 3].foldl shiftRowInv text

/-- The loop of `g_mul`, `counter` more times. -/
def gMulLoop : Nat → Byte → Byte → Byte → Byte
  | 0, _, _, p => p
  | counter + 1, a, b, p =>
      let p := if b &&& 1 ≠ 0 then p ^^^ a else p
      let a := if a &&& 0x80 ≠ 0 then (a <<< 1) ^^^ 0x1B else a <<< 1
      gMulLoop counter a (b >>> 1) p

def gMul (a b : Byte) : Byte := gMulLoop 8 a b 0

def gmixColumn (column : Column) : Column :=
  #v[gMul 0x02 column[0] ^^^ gMul 0x03 column[1] ^^^ column[2] ^^^ column[3],
    column[0] ^^^ gMul 0x02 column[1] ^^^ gMul 0x03 column[2] ^^^ column[3],
    column[0] ^^^ column[1] ^^^ gMul 0x02 column[2] ^^^ gMul 0x03 column[3],
    gMul 0x03 column[0] ^^^ column[1] ^^^ column[2] ^^^ gMul 0x02 column[3]]

def gmixColumnInv (column : Column) : Column :=
  #v[gMul 0x0e column[0] ^^^ gMul 0x0b column[1] ^^^ gMul 0x0d column[2] ^^^
      gMul 0x09 column[3],
    gMul 0x09 column[0] ^^^ gMul 0x0e column[1] ^^^ gMul 0x0b column[2] ^^^
      gMul 0x0d column[3],
    gMul 0x0d column[0] ^^^ gMul 0x09 column[1] ^^^ gMul 0x0e column[2] ^^^
      gMul 0x0b column[3],
    gMul 0x0b column[0] ^^^ gMul 0x0d column[1] ^^^ gMul 0x09 column[2] ^^^
      gMul 0x0e column[3]]

/-- Rewrite column `i` of the text by `f`. -/
def onColumn (f : Column → Column) (text : Block) (i : Fin 4) : Block :=
  let column := f (Vector.ofFn fun j : Fin 4 => text[4 * j.val + i.val])
  (List.finRange 4).foldl
    (fun (text : Block) (j : Fin 4) =>
      text.set (4 * j.val + i.val) column[j.val]) text

def mixColumns (text : Block) : Block :=
  (List.finRange 4).foldl (onColumn gmixColumn) text

def mixColumnsInv (text : Block) : Block :=
  (List.finRange 4).foldl (onColumn gmixColumnInv) text

def rotWord (key : Column) : Column :=
  let temp := key[0]
  let key := (List.finRange 3).foldl
    (fun (key : Column) (i : Fin 3) => key.set i.val key[i.val + 1]) key
  key.set 3 temp

def splitWord (word : UInt32) : Column :=
  Vector.ofFn fun i : Fin 4 =>
    ((word >>> UInt32.ofNat (8 * i.val)) &&& 0xff).toUInt8

def subText (text : Block) (sbox : Table) : Block := text.map sbox.at

def rc : Vector Byte 10 :=
  #v[0x01, 0x02, 0x04, 0x08, 0x10, 0x20, 0x40, 0x80, 0x1B, 0x36]

/-- Word `i` of the schedule from the word before it and the word four places
before it. -/
def nextWord (sbox : Table) (i : Fin 44) (prev prevN : Column) : Column :=
  if i.val % 4 = 0 then
    let temp := rotWord prev
    Vector.ofFn fun j : Fin 4 =>
      prevN[j.val] ^^^ sbox.at temp[j.val] ^^^ rc[i.val / 4 - 1]
  else
    Vector.ofFn fun j : Fin 4 => prevN[j.val] ^^^ prev[j.val]

/-- `rkeys_t` as 44 words of 4 bytes. -/
def expandWords (key : Key) (sbox : Table) : Vector Column 44 :=
  let words : Vector Column 44 := Vector.replicate 44 (Vector.replicate 4 0)
  let words := (List.finRange 4).foldl
    (fun (words : Vector Column 44) (i : Fin 4) =>
      words.set i.val (splitWord key[i.val])) words
  (List.finRange 40).foldl
    (fun (words : Vector Column 44) (i : Fin 40) =>
      words.set (i.val + 4)
        (nextWord sbox ⟨i.val + 4, by omega⟩ words[i.val + 3] words[i.val]))
    words

def expkey (key : Key) (sbox : Table) : RoundKeys :=
  let words := expandWords key sbox
  Vector.ofFn fun i : Fin 11 => Vector.ofFn fun j : Fin 16 =>
    words[4 * i.val + j.val / 4][j.val % 4]

/-- One of the nine full rounds of `encrypt`. -/
def encryptRound (rkeys : RoundKeys) (sbox : Table) (text : Block)
    (i : Fin 9) : Block :=
  addRoundKey (mixColumns (shiftRows (subText text sbox))) rkeys[i.val + 1]

def encrypt (text : Block) (rkeys : RoundKeys) (sbox : Table) : Block :=
  let text := addRoundKey text rkeys[0]
  let text := (List.finRange 9).foldl (encryptRound rkeys sbox) text
  addRoundKey (shiftRows (subText text sbox)) rkeys[10]

/-- One of the nine full rounds of `decrypt`. -/
def decryptRound (rkeys : RoundKeys) (invsbox : Table) (text : Block)
    (i : Fin 9) : Block :=
  mixColumnsInv
    (addRoundKey (subText (shiftRowsInv text) invsbox) rkeys[10 - i.val - 1])

def decrypt (text : Block) (rkeys : RoundKeys) (invsbox : Table) : Block :=
  let text := addRoundKey text rkeys[10]
  let text := (List.finRange 9).foldl (decryptRound rkeys invsbox) text
  addRoundKey (subText (shiftRowsInv text) invsbox) rkeys[0]

def toColumnOrder (text : Block) : Block :=
  (List.finRange 4).foldl
    (fun (temp : Block) (i : Fin 4) => (List.finRange 4).foldl
      (fun (temp : Block) (j : Fin 4) =>
        temp.set (4 * j.val + i.val) text[4 * i.val + j.val]) temp) text

def toRowOrder (text : Block) : Block :=
  (List.finRange 4).foldl
    (fun (temp : Block) (i : Fin 4) => (List.finRange 4).foldl
      (fun (temp : Block) (j : Fin 4) =>
        temp.set (4 * i.val + j.val) text[4 * j.val + i.val]) temp) text

/-- `struct enc_aes_vars`. -/
structure EncAesVars where
  sbox : Table
  sboxinv : Table
  rkeys : RoundKeys
deriving DecidableEq

/-- `avars` as the file functions fill it in; `none` when the table loop does
not end.  The memory it is built in is uninitialised; every entry is stored. -/
def encAesVars (key : Key) : Option EncAesVars :=
  (initializeAesSbox (Vector.replicate 256 0) (Vector.replicate 256 0)).map
    fun (sbox, sboxinv) => ⟨sbox, sboxinv, expkey key sbox⟩

end EcFtp
