/-
`sq_mp` and the key agreement: four rounds in which each side sends a public
value and derives one word of the key from the other's.
-/
import EcFtp.Aes
import EcFtp.Duplex
import EcFtp.Libc

namespace EcFtp

open ByteStrings Duplex

/-- `if (r == 1)`. -/
def multiplyIn (c y a b : UInt64) : UInt64 :=
  if b % 2 = 1 then y * a % c else y

/-- `while (b > 0)`. -/
def sqMpLoop (c y a b : UInt64) : UInt64 :=
  if 0 < b then sqMpLoop c (multiplyIn c y a b) (a * a % c) (b / 2) else y
termination_by b.toNat
decreasing_by
  rename_i h
  have hb : 0 < b.toNat := UInt64.lt_iff_toNat_lt.mp h
  rw [UInt64.toNat_div]
  exact Nat.div_lt_self hb (by decide)

/-- Computes `a ^ b mod c`. -/
def sqMp (a b c : UInt64) : UInt64 := sqMpLoop c 1 a b

theorem toNat_mul_mod {a b c : UInt64} (h : a.toNat * b.toNat < 2 ^ 64) :
    (a * b % c).toNat = a.toNat * b.toNat % c.toNat := by
  rw [UInt64.toNat_mod, UInt64.toNat_mul, Nat.mod_eq_of_lt h]

theorem mul_lt_of_lt {m n : Nat} (hm : m < 2 ^ 32) (hn : n < 2 ^ 32) :
    m * n < 2 ^ 64 :=
  Nat.lt_of_lt_of_eq (Nat.mul_lt_mul'' hm hn) (by decide)

theorem toNat_multiplyIn {c y a : UInt64} (h : y.toNat * a.toNat < 2 ^ 64)
    (b : UInt64) : (multiplyIn c y a b).toNat =
      if b.toNat % 2 = 1 then y.toNat * a.toNat % c.toNat else y.toNat := by
  have hodd : b % 2 = 1 ↔ b.toNat % 2 = 1 := by
    rw [← UInt64.toNat_inj, UInt64.toNat_mod]
    rfl
  unfold multiplyIn
  by_cases hb : b.toNat % 2 = 1
  · rw [if_pos hb, if_pos (hodd.mpr hb), toNat_mul_mod h]
  · rw [if_neg hb, if_neg (mt hodd.mp hb)]

/-- The power a loop is to multiply by, halved. -/
theorem mul_pow_halve (y a b c : Nat) :
    (if b % 2 = 1 then y * a % c else y) * (a * a % c) ^ (b / 2) % c =
      y * a ^ b % c := by
  have hpow : a ^ b = a ^ (b % 2) * (a * a) ^ (b / 2) := by
    rw [← Nat.pow_two, ← Nat.pow_mul, ← Nat.pow_add]
    congr 1
    omega
  rcases Nat.mod_two_eq_zero_or_one b with hb | hb
  · rw [hb, if_neg (by decide), hpow, hb, Nat.pow_zero, Nat.one_mul, Nat.mul_mod,
      ← Nat.pow_mod, ← Nat.mul_mod]
  · rw [hb, if_pos rfl, hpow, hb, Nat.pow_one, Nat.mul_mod, Nat.mod_mod,
      ← Nat.pow_mod, ← Nat.mul_mod, Nat.mul_assoc]

/-- No product of the loop wraps. -/
theorem toNat_sqMpLoop {c : UInt64} (hpos : 0 < c.toNat)
    (hc : c.toNat ≤ 2 ^ 32) {y a : UInt64} (hy : y.toNat < c.toNat)
    (ha : a.toNat < 2 ^ 32) (b : UInt64) :
    (sqMpLoop c y a b).toNat = y.toNat * a.toNat ^ b.toNat % c.toNat := by
  induction y, a, b using sqMpLoop.induct c with
  | case1 y a b hb ih =>
      have hsquare : (a * a % c).toNat = a.toNat * a.toNat % c.toNat :=
        toNat_mul_mod (mul_lt_of_lt ha ha)
      have hword : y.toNat < 2 ^ 32 := by omega
      have hstep := @toNat_multiplyIn c y a (mul_lt_of_lt hword ha) b
      have hsmall : (a * a % c).toNat < c.toNat := by
        rw [hsquare]
        exact Nat.mod_lt _ hpos
      have hlt : (multiplyIn c y a b).toNat < c.toNat := by
        rw [hstep]
        split
        · exact Nat.mod_lt _ hpos
        · exact hy
      rw [sqMpLoop, if_pos hb, ih hlt (by omega), hstep, hsquare,
        UInt64.toNat_div]
      exact mul_pow_halve _ _ _ _
  | case2 y a b hb =>
      have hzero : b.toNat = 0 := by
        have hnot := mt UInt64.lt_iff_toNat_lt.mpr hb
        simpa using hnot
      rw [sqMpLoop, if_neg hb, hzero, Nat.pow_zero, Nat.mul_one,
        Nat.mod_eq_of_lt hy]

theorem toNat_sqMp {a b c : UInt64} (ha : a.toNat < 2 ^ 32)
    (hpos : 1 < c.toNat) (hc : c.toNat ≤ 2 ^ 32) :
    (sqMp a b c).toNat = a.toNat ^ b.toNat % c.toNat := by
  rw [sqMp, toNat_sqMpLoop (by omega) hc (by rw [UInt64.toNat_one]; exact hpos) ha,
    UInt64.toNat_one, Nat.one_mul]

/-- `dh_p`. -/
def dhP : UInt64 := ((1 : UInt64) <<< 32) - 99

/-- `dh_g`. -/
def dhG : UInt64 := 5

theorem toNat_dhP : dhP.toNat = 2 ^ 32 - 99 := by decide

/-- `(rand() % (dh_p - 2)) + 2`. -/
def dhExponent (draw : UInt64) : UInt64 := draw % (dhP - 2) + 2

/-- The public value of an exponent. -/
def dhPublic (exponent : UInt64) : UInt64 := sqMp dhG exponent dhP

/-- `dh_k & 0xffffffff`, from the other side's public value. -/
def dhKeyWord (theirs exponent : UInt64) : UInt32 :=
  (sqMp theirs exponent dhP &&& 0xffffffff).toUInt32

theorem toNat_dhPublic (a : UInt64) :
    (dhPublic a).toNat = 5 ^ a.toNat % (2 ^ 32 - 99) :=
  toNat_sqMp (by decide) (by decide) (by decide)

theorem dhPublic_lt (a : UInt64) : (dhPublic a).toNat < 2 ^ 32 - 99 := by
  rw [toNat_dhPublic]
  exact Nat.mod_lt _ (by decide)

/-- The secret both sides compute. -/
theorem toNat_secret (a b : UInt64) :
    (sqMp (dhPublic b) a dhP).toNat = 5 ^ (a.toNat * b.toNat) % (2 ^ 32 - 99) := by
  have hb := dhPublic_lt b
  rw [toNat_sqMp (by omega) (by decide) (by decide), toNat_dhPublic, toNat_dhP,
    ← Nat.pow_mod, ← Nat.pow_mul, Nat.mul_comm]

/-- The secret fits the word it is cut to. -/
theorem toNat_dhKeyWord (a b : UInt64) :
    (dhKeyWord (dhPublic b) a).toNat =
      5 ^ (a.toNat * b.toNat) % (2 ^ 32 - 99) := by
  have hsecret := toNat_secret a b
  have hlt : 5 ^ (a.toNat * b.toNat) % (2 ^ 32 - 99) < 2 ^ 32 :=
    Nat.lt_of_lt_of_le (Nat.mod_lt _ (by decide)) (by decide)
  have hmask : (0xffffffff : UInt64).toNat = 2 ^ 32 - 1 := by decide
  rw [dhKeyWord, UInt64.toNat_toUInt32, UInt64.toNat_and, hsecret, hmask,
    Nat.and_two_pow_sub_one_eq_mod, Nat.mod_mod, Nat.mod_eq_of_lt hlt]

/-- Both sides compute the same word. -/
theorem dhKeyWord_comm (a b : UInt64) :
    dhKeyWord (dhPublic b) a = dhKeyWord (dhPublic a) b := by
  apply UInt32.toNat_inj.mp
  rw [toNat_dhKeyWord, toNat_dhKeyWord, Nat.mul_comm]

/-- The bytes of a `uint64_t`. -/
def wordBytes (v : UInt64) : Bytes := le 8 v.toNat

theorem ofLe_wordBytes (v : UInt64) : UInt64.ofNat (ofLe (wordBytes v)) = v := by
  rw [wordBytes, ofLe_le (UInt64.toNat_lt v), UInt64.ofNat_toNat]

/-- `write(datafd, (char *)&v, sizeof(v))`. -/
def writeWord (v : UInt64) : Proc Byte PUnit := .send (wordBytes v) (.done ⟨⟩)

/-- `read(datafd, (char *)&v, sizeof(v))`, of a value delivered whole. -/
def readWord : Proc Byte UInt64 :=
  .receive 8 fun bs => .done (UInt64.ofNat (ofLe bs))

/-- The four private exponents of one side. -/
abbrev Exponents := Vector UInt64 4

theorem round_lt (i : Fin 4) : i.val < 4 := i.isLt

/-- `key[i] = dh_k & 0xffffffff`. -/
def setKeyWord (key : Key) (i : Fin 4) (word : UInt32) : Key :=
  key.set i.val word (round_lt i)

def dhClientRound (exponents : Exponents) (key : Key) (i : Fin 4) :
    Proc Byte Key := do
  writeWord (dhPublic (exponents.get i))
  let dhKb ← readWord
  pure (setKeyWord key i (dhKeyWord dhKb (exponents.get i)))

def dhServerRound (exponents : Exponents) (key : Key) (i : Fin 4) :
    Proc Byte Key := do
  let dhKa ← readWord
  writeWord (dhPublic (exponents.get i))
  pure (setKeyWord key i (dhKeyWord dhKa (exponents.get i)))

def doDhClient (exponents : Exponents) : Proc Byte Key :=
  (List.finRange 4).foldlM (dhClientRound exponents) (Vector.replicate 4 0)

def doDhServer (exponents : Exponents) : Proc Byte Key :=
  (List.finRange 4).foldlM (dhServerRound exponents) (Vector.replicate 4 0)

/-- The public values of one side, as they are sent. -/
def publicBytes (exponents : Exponents) (rounds : List (Fin 4)) : Bytes :=
  rounds.flatMap fun i => wordBytes (dhPublic (exponents.get i))

/-- One word of the key. -/
def keyRound (mine theirs : Exponents) (key : Key) (i : Fin 4) : Key :=
  setKeyWord key i (dhKeyWord (dhPublic (theirs.get i)) (mine.get i))

/-- The key after some rounds. -/
def keyAfter (mine theirs : Exponents) (rounds : List (Fin 4)) (key : Key) : Key :=
  rounds.foldl (keyRound mine theirs) key

/-- The key one side derives from its exponents and those of the other. -/
def agreedKey (mine theirs : Exponents) : Key :=
  keyAfter mine theirs (List.finRange 4) (Vector.replicate 4 0)

theorem agreedKey_comm (mine theirs : Exponents) :
    agreedKey mine theirs = agreedKey theirs mine := by
  have hround : keyRound mine theirs = keyRound theirs mine := by
    funext key i
    rw [keyRound, dhKeyWord_comm, keyRound]
  rw [agreedKey, keyAfter, hround, agreedKey, keyAfter]

section Rounds

variable {exponents mine theirs : Exponents} {round : Key → Fin 4 → Proc Byte Key}
  {u w : Bytes} {e : Bool} {key key' : Key} {rounds : List (Fin 4)}

/-- A round that sends the public value of its exponent and derives a word from the
eight bytes it reads. -/
def RoundEnds (exponents : Exponents) (round : Key → Fin 4 → Proc Byte Key) : Prop :=
  ∀ {key i u w e key'}, Ends (round key i) u w e key' →
    w = wordBytes (dhPublic (exponents.get i)) ∧ u.length = 8 ∧ e = false ∧
      key' = setKeyWord key i (dhKeyWord (UInt64.ofNat (ofLe u)) (exponents.get i))

theorem dhClientRound_ends (exponents : Exponents) :
    RoundEnds exponents (dhClientRound exponents) := by
  intro key i u w e key' h
  cases h with
  | send h =>
      cases h with
      | receive hlen h =>
          cases h with
          | done => simp [hlen]

theorem dhServerRound_ends (exponents : Exponents) :
    RoundEnds exponents (dhServerRound exponents) := by
  intro key i u w e key' h
  cases h with
  | receive hlen h =>
      cases h with
      | send h =>
          cases h with
          | done => simp [hlen]

/-- The rounds one after the other. -/
theorem rounds_ends (hround : RoundEnds mine round)
    (h : Ends (rounds.foldlM round key) u w e key') :
    w = publicBytes mine rounds ∧ u.length = 8 * rounds.length ∧ e = false ∧
      ∀ theirs, u = publicBytes theirs rounds →
        key' = keyAfter mine theirs rounds key := by
  induction rounds generalizing key u w e with
  | nil =>
      cases h with
      | done => exact ⟨rfl, rfl, rfl, fun _ _ => rfl⟩
  | cons i rounds ih =>
      obtain ⟨key₁, u₁, w₁, e₁, u₂, w₂, e₂, hfirst, hrest, rfl, rfl, rfl⟩ :=
        Ends.bind_inv h
      obtain ⟨rfl, hlen, rfl, rfl⟩ := hround hfirst
      obtain ⟨rfl, hlens, rfl, hkey⟩ := ih hrest
      refine ⟨rfl, ?_, rfl, fun theirs hu => ?_⟩
      · rw [List.length_append, hlen, hlens, List.length_cons]
        omega
      · have hsplit : u₁ ++ u₂ =
            wordBytes (dhPublic (theirs.get i)) ++ publicBytes theirs rounds := hu
        have hword : u₁.length = (wordBytes (dhPublic (theirs.get i))).length := by
          rw [hlen, wordBytes, length_le]
        obtain ⟨hvalue, hvalues⟩ := List.append_inj hsplit hword
        rw [hkey theirs hvalues, hvalue, ofLe_wordBytes]
        rfl

end Rounds

/-- The two sides of the key agreement. -/
inductive DhRole where
  | client
  | server
deriving Repr, DecidableEq

def DhRole.other : DhRole → DhRole
  | client => server
  | server => client

/-- What `rand` returns in the four rounds of one side. -/
abbrev Draws := Vector UInt64 4

def Draws.exponents (draws : Draws) : Exponents := draws.map dhExponent

/-- `do_dh_client` and `do_dh_server`. -/
def doDh (draws : Draws) : DhRole → Proc Byte Key
  | .client => doDhClient draws.exponents
  | .server => doDhServer draws.exponents

/-- How either side ends: with the key of the public values it read. -/
theorem doDh_ends {draws : Draws} {role : DhRole} {u w : Bytes} {e : Bool}
    {key : Key} (h : Ends (doDh draws role) u w e key) :
    w = publicBytes draws.exponents (List.finRange 4) ∧ u.length = 32 ∧ e = false ∧
      ∀ theirs, u = publicBytes theirs (List.finRange 4) →
        key = agreedKey draws.exponents theirs := by
  cases role with
  | client => exact rounds_ends (dhClientRound_ends draws.exponents) h
  | server => exact rounds_ends (dhServerRound_ends draws.exponents) h

/-- One round of the client against one of the server. -/
theorem dhRound_runs (a b : Exponents) (key key' : Key) (i : Fin 4) :
    Net.Runs (.start (dhClientRound a key i) (dhServerRound b key' i))
      (.start (.done (keyRound a b key i)) (.done (keyRound b a key' i))) := by
  have hlen : ∀ v, (wordBytes v).length = 8 := fun v => length_le 8 v.toNat
  have hthere := Net.runs_toRight (hlen (dhPublic (a.get i)))
    (.receive 8 fun bs => .done (setKeyWord key i
      (dhKeyWord (UInt64.ofNat (ofLe bs)) (a.get i))))
    fun bs => .send (wordBytes (dhPublic (b.get i))) (.done (setKeyWord key' i
      (dhKeyWord (UInt64.ofNat (ofLe bs)) (b.get i))))
  have hback := Net.runs_toLeft (hlen (dhPublic (b.get i)))
    (fun bs => .done (setKeyWord key i (dhKeyWord (UInt64.ofNat (ofLe bs)) (a.get i))))
    (.done (setKeyWord key' i (dhKeyWord
      (UInt64.ofNat (ofLe (wordBytes (dhPublic (a.get i))))) (b.get i))))
  have hround := hthere.trans hback
  rw [ofLe_wordBytes, ofLe_wordBytes] at hround
  exact hround

/-- The rounds of the client against those of the server. -/
theorem dhRounds_runs (a b : Exponents) (rounds : List (Fin 4)) (key key' : Key) :
    Net.Runs (.start (rounds.foldlM (dhClientRound a) key)
        (rounds.foldlM (dhServerRound b) key'))
      (.start (.done (keyAfter a b rounds key))
        (.done (keyAfter b a rounds key'))) := by
  induction rounds generalizing key key' with
  | nil => exact .refl
  | cons i rounds ih =>
      have hround := (dhRound_runs a b key key' i).andThen
        (fun key => rounds.foldlM (dhClientRound a) key)
        fun key => rounds.foldlM (dhServerRound b) key
      exact hround.trans (ih _ _)

/-- The two sides reach the same key. -/
theorem doDh_runs (a b : Draws) :
    Net.Runs (.start (doDh a .client) (doDh b .server))
      (.start (.done (agreedKey a.exponents b.exponents))
        (.done (agreedKey a.exponents b.exponents))) := by
  have hrun := dhRounds_runs a.exponents b.exponents (List.finRange 4)
    (Vector.replicate 4 0) (Vector.replicate 4 0)
  have hkey : keyAfter b.exponents a.exponents (List.finRange 4)
      (Vector.replicate 4 0) = agreedKey a.exponents b.exponents :=
    agreedKey_comm b.exponents a.exponents
  rw [hkey] at hrun
  exact hrun

end EcFtp
