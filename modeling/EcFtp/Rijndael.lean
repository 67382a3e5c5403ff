/-
Rijndael with 128-bit blocks and keys, in the terms of the standard: bytes as
the polynomials of degree below 8 over the field of two elements, the state as
four columns, ten rounds.  The substitution, the rotation of the rows, the place
of the round constant and the layout of a round key are parameters; the standard
is one choice of them.
-/
import Mathlib.Data.Nat.Notation

namespace Rijndael

/-- Multiplication by `x` modulo `x^8 + x^4 + x^3 + x + 1`; the bits of a number
are the coefficients. -/
def xtime (a : Nat) : Nat := 2 * a ^^^ 0x11b * (a / 128)

/-- The product of `a` and the lowest bits of `b`, as many as given. -/
def mulBits : Nat → Nat → Nat → Nat
  | 0, _, _ => 0
  | n + 1, a, b => b % 2 * a ^^^ mulBits n (xtime a) (b / 2)

def mul (a b : UInt8) : UInt8 := UInt8.ofNat (mulBits 8 a.toNat b.toNat)

/-- `x` to the power `j`. -/
def power (j : Nat) : UInt8 := UInt8.ofNat (Nat.repeat xtime j 1)

/-- `a` to the power 254. -/
def inv (a : UInt8) : UInt8 :=
  let a2 := mul a a
  let a4 := mul a2 a2
  let a8 := mul a4 a4
  let a16 := mul a8 a8
  let a32 := mul a16 a16
  let a64 := mul a32 a32
  let a128 := mul a64 a64
  mul a2 (mul a4 (mul a8 (mul a16 (mul a32 (mul a64 a128)))))

theorem mul_inv {a : UInt8} (ha : a ≠ 0) : mul a (inv a) = 1 := by
  have hall : (List.range 256).all fun n =>
      n.beq 0 || (mul (UInt8.ofNat n) (inv (UInt8.ofNat n))).toNat.beq 1 := by
    decide +kernel
  have ha' := List.all_eq_true.mp hall a.toNat (List.mem_range.mpr a.toNat_lt)
  rw [UInt8.ofNat_toNat, Bool.or_eq_true] at ha'
  rcases ha' with hzero | hone
  · exact absurd (UInt8.toNat_inj.mp (Nat.eq_of_beq_eq_true hzero)) ha
  · exact UInt8.toNat_inj.mp (Nat.eq_of_beq_eq_true hone)

/-- Bit `i` of the affine map of the S-box. -/
def affineBit (b i : Nat) : Nat :=
  ((b >>> i) + (b >>> ((i + 4) % 8)) + (b >>> ((i + 5) % 8)) +
    (b >>> ((i + 6) % 8)) + (b >>> ((i + 7) % 8)) + (0x63 >>> i)) % 2

def affine (b : UInt8) : UInt8 :=
  UInt8.ofNat
    ((List.range 8).foldl (fun n i => n + (affineBit b.toNat i <<< i)) 0)

def sBox (b : UInt8) : UInt8 := affine (inv b)

structure Word where
  b0 : UInt8
  b1 : UInt8
  b2 : UInt8
  b3 : UInt8
deriving DecidableEq

namespace Word

variable (v w : Word)

def map (f : UInt8 → UInt8) : Word := ⟨f w.b0, f w.b1, f w.b2, f w.b3⟩

def xor : Word :=
  ⟨v.b0 ^^^ w.b0, v.b1 ^^^ w.b1, v.b2 ^^^ w.b2, v.b3 ^^^ w.b3⟩

def rotate : Word := ⟨w.b1, w.b2, w.b3, w.b0⟩

def bytes : Vector UInt8 4 := #v[w.b0, w.b1, w.b2, w.b3]

/-- The product with `3 x^3 + x^2 + x + 2` modulo `x^4 + 1`. -/
def mix : Word :=
  ⟨mul 2 w.b0 ^^^ mul 3 w.b1 ^^^ w.b2 ^^^ w.b3,
    w.b0 ^^^ mul 2 w.b1 ^^^ mul 3 w.b2 ^^^ w.b3,
    w.b0 ^^^ w.b1 ^^^ mul 2 w.b2 ^^^ mul 3 w.b3,
    mul 3 w.b0 ^^^ w.b1 ^^^ w.b2 ^^^ mul 2 w.b3⟩

end Word

/-- The state, or four words of the key schedule. -/
structure State where
  c0 : Word
  c1 : Word
  c2 : Word
  c3 : Word
deriving DecidableEq

namespace State

variable (s t : State)

def map (f : Word → Word) : State := ⟨f s.c0, f s.c1, f s.c2, f s.c3⟩

/-- Rows for columns. -/
def transpose : State :=
  ⟨⟨s.c0.b0, s.c1.b0, s.c2.b0, s.c3.b0⟩, ⟨s.c0.b1, s.c1.b1, s.c2.b1, s.c3.b1⟩,
    ⟨s.c0.b2, s.c1.b2, s.c2.b2, s.c3.b2⟩, ⟨s.c0.b3, s.c1.b3, s.c2.b3, s.c3.b3⟩⟩

def mixColumns : State := s.map Word.mix

/-- `t` is the round key. -/
def addRoundKey : State :=
  ⟨s.c0.xor t.c0, s.c1.xor t.c1, s.c2.xor t.c2, s.c3.xor t.c3⟩

/-- Blocks and keys fill their columns one after the other. -/
def ofBytes (b : Vector UInt8 16) : State :=
  ⟨⟨b[0], b[1], b[2], b[3]⟩, ⟨b[4], b[5], b[6], b[7]⟩,
    ⟨b[8], b[9], b[10], b[11]⟩, ⟨b[12], b[13], b[14], b[15]⟩⟩

def toBytes : Vector UInt8 16 :=
  #v[s.c0.b0, s.c0.b1, s.c0.b2, s.c0.b3, s.c1.b0, s.c1.b1, s.c1.b2, s.c1.b3,
    s.c2.b0, s.c2.b1, s.c2.b2, s.c2.b3, s.c3.b0, s.c3.b1, s.c3.b2, s.c3.b3]

end State

/-- What the rounds leave open: the substitution, how far each row is rotated to
the left, how the round constant fills a word, and how the four words of a round
key meet the state. -/
structure Variant where
  box : UInt8 → UInt8
  shift : Nat → Nat
  rcon : UInt8 → Word
  layout : State → State

def standard : Variant where
  box := sBox
  shift row := row
  rcon b := ⟨b, 0, 0, 0⟩
  layout words := words

namespace Variant

variable (v : Variant)

def subBytes (s : State) : State := s.map (·.map v.box)

def shiftRows (s : State) : State :=
  let rows := s.transpose
  State.transpose ⟨Nat.repeat Word.rotate (v.shift 0) rows.c0,
    Nat.repeat Word.rotate (v.shift 1) rows.c1,
    Nat.repeat Word.rotate (v.shift 2) rows.c2,
    Nat.repeat Word.rotate (v.shift 3) rows.c3⟩

/-- Word `i` of the key schedule from the word before it and the word four
places before it. -/
def nextWord (i : Nat) (last fourth : Word) : Word :=
  if i % 4 = 0 then
    (fourth.xor (last.rotate.map v.box)).xor (v.rcon (power (i / 4 - 1)))
  else fourth.xor last

/-- The words `i` to `i + 3` of the key schedule. -/
def words (key : State) : Nat → State
  | 0 => key
  | i + 1 =>
      let w := words key i
      ⟨w.c1, w.c2, w.c3, v.nextWord (i + 4) w.c3 w.c0⟩

def roundKey (key : State) (i : Nat) : State := v.layout (v.words key (4 * i))

def round (key s : State) (i : Nat) : State :=
  ((v.shiftRows (v.subBytes s)).mixColumns).addRoundKey (v.roundKey key i)

def cipher (key input : State) : State :=
  let s := input.addRoundKey (v.roundKey key 0)
  let s := (List.range 9).foldl (fun s i => v.round key s (i + 1)) s
  (v.shiftRows (v.subBytes s)).addRoundKey (v.roundKey key 10)

def encrypt (key block : Vector UInt8 16) : Vector UInt8 16 :=
  (v.cipher (.ofBytes key) (.ofBytes block)).toBytes

end Variant

/-- The example of appendix C.1 of the standard. -/
example : standard.encrypt
    #v[0x00, 0x01, 0x02, 0x03, 0x04, 0x05, 0x06, 0x07,
      0x08, 0x09, 0x0a, 0x0b, 0x0c, 0x0d, 0x0e, 0x0f]
    #v[0x00, 0x11, 0x22, 0x33, 0x44, 0x55, 0x66, 0x77,
      0x88, 0x99, 0xaa, 0xbb, 0xcc, 0xdd, 0xee, 0xff] =
    #v[0x69, 0xc4, 0xe0, 0xd8, 0x6a, 0x7b, 0x04, 0x30,
      0xd8, 0xcd, 0xb7, 0x80, 0x70, 0xb4, 0xc5, 0x5a] := by
  decide +kernel

end Rijndael
