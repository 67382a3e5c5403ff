/-
The key agreement over every schedule.  The two sides take turns: of each round
only one step is possible at a time, so a run is told from the round it is in
and the turn of that round.
-/
import EcFtp.DiffieHellman

namespace EcFtp

open ByteStrings Duplex

/-- The pairs of factors the loop of `sq_mp` multiplies. -/
def sqMpFactors (c y a b : UInt64) : List (UInt64 × UInt64) :=
  if 0 < b then
    (if b % 2 = 1 then [(y, a)] else []) ++
      (a, a) :: sqMpFactors c (multiplyIn c y a b) (a * a % c) (b / 2)
  else []
termination_by b.toNat
decreasing_by
  rename_i h
  have hb : 0 < b.toNat := UInt64.lt_iff_toNat_lt.mp h
  rw [UInt64.toNat_div]
  exact Nat.div_lt_self hb (by decide)

/-- No product of `sq_mp(a, b, c)` wraps. -/
def NoWrap (a b c : UInt64) : Prop :=
  ∀ f ∈ sqMpFactors c 1 a b, f.1.toNat * f.2.toNat < 2 ^ 64

theorem sqMpFactors_lt {c : UInt64} (hpos : 0 < c.toNat)
    (hc : c.toNat ≤ 2 ^ 32) {y a : UInt64} (hy : y.toNat < c.toNat)
    (ha : a.toNat < 2 ^ 32) (b : UInt64) :
    ∀ f ∈ sqMpFactors c y a b, f.1.toNat * f.2.toNat < 2 ^ 64 := by
  induction y, a, b using sqMpLoop.induct c with
  | case1 y a b hb ih =>
      have hword : y.toNat < 2 ^ 32 := by omega
      have hmultiply := mul_lt_of_lt hword ha
      have hsquare := mul_lt_of_lt ha ha
      have hsmall : (a * a % c).toNat < c.toNat := by
        rw [toNat_mul_mod hsquare]
        exact Nat.mod_lt _ hpos
      have hlt : (multiplyIn c y a b).toNat < c.toNat := by
        rw [toNat_multiplyIn hmultiply]
        split
        · exact Nat.mod_lt _ hpos
        · exact hy
      intro f hf
      rw [sqMpFactors, if_pos hb, List.mem_append, List.mem_cons] at hf
      rcases hf with hf | rfl | hf
      · split at hf
        · rw [List.mem_singleton.mp hf]
          exact hmultiply
        · cases hf
      · exact hsquare
      · exact ih hlt (by omega) f hf
  | case2 y a b hb =>
      intro f hf
      rw [sqMpFactors, if_neg hb] at hf
      cases hf

theorem noWrap {a c : UInt64} (ha : a.toNat < 2 ^ 32) (hpos : 1 < c.toNat)
    (hc : c.toNat ≤ 2 ^ 32) (b : UInt64) : NoWrap a b c :=
  sqMpFactors_lt (by omega) hc (by rw [UInt64.toNat_one]; exact hpos) ha b

/-- The power is exact below 32 bits, whatever the exponent. -/
theorem sqMp_exact {a c : UInt64} (ha : a.toNat < 2 ^ 32) (hone : 1 < c.toNat)
    (hc : c.toNat ≤ 2 ^ 32) (b : UInt64) :
    NoWrap a b c ∧ (sqMp a b c).toNat = a.toNat ^ b.toNat % c.toNat := by
  constructor
  · exact noWrap ha hone hc b
  · exact toNat_sqMp ha hone hc

/-- Where neither the base nor the largest modulus is reduced yet. -/
theorem sqMp_exact_largest :
    NoWrap 0xffffffff 3 0x100000000 ∧
      (sqMp 0xffffffff 3 0x100000000).toNat =
        (0xffffffff : UInt64).toNat ^ (3 : UInt64).toNat % (0x100000000 : UInt64).toNat :=
  sqMp_exact (by decide) (by decide) (by decide) 3

theorem noWrap_public (exponent : UInt64) : NoWrap dhG exponent dhP :=
  noWrap (by decide) (by decide) (by decide) exponent

theorem noWrap_secret (theirs mine : UInt64) :
    NoWrap (dhPublic theirs) mine dhP := by
  have hlt := dhPublic_lt theirs
  exact noWrap (by omega) (by decide) (by decide) mine

/-- The public values of one side, one message each. -/
def publicWords (exponents : Exponents) (rounds : List (Fin 4)) : List Bytes :=
  rounds.map fun i => wordBytes (dhPublic (exponents.get i))

theorem wordBytes_ne_nil (v : UInt64) : wordBytes v ≠ [] := by
  apply List.length_pos_iff.mp
  rw [wordBytes, length_le]
  decide

/-- The rounds still ahead of the client. -/
def clientRest (a : Exponents) (rest : List (Fin 4)) (key : Key) : Proc Byte Key :=
  rest.foldlM (dhClientRound a) key

/-- The rounds still ahead of the server. -/
def serverRest (b : Exponents) (rest : List (Fin 4)) (key : Key) : Proc Byte Key :=
  rest.foldlM (dhServerRound b) key

/-- The client once it has sent its value. -/
def clientReads (a : Exponents) (i : Fin 4) (rest : List (Fin 4)) (key : Key) :
    Proc Byte Key :=
  .receive 8 fun bs => clientRest a rest
    (setKeyWord key i (dhKeyWord (UInt64.ofNat (ofLe bs)) (a.get i)))

/-- The server once it has read `theirs`. -/
def serverSends (b : Exponents) (i : Fin 4) (rest : List (Fin 4)) (key : Key)
    (theirs : UInt64) : Proc Byte Key :=
  .send (wordBytes (dhPublic (b.get i))) (serverRest b rest
    (setKeyWord key i (dhKeyWord theirs (b.get i))))

theorem serverRest_cons (b : Exponents) (i : Fin 4) (rest : List (Fin 4))
    (key : Key) : serverRest b (i :: rest) key =
      .receive 8 fun bs =>
        serverSends b i rest key (UInt64.ofNat (ofLe bs)) := rfl

/-- A stream with `pending` on its way. -/
def carrying (pending : Bytes) : Duplex.Stream Byte := ⟨pending, false, false⟩

/-- Where a run can be, and what has been read on the way: before a round, or at
one of the turns within it. -/
inductive Turn (a b : Exponents) :
    Net Byte Key Key → List Bytes → List Bytes → Prop
  | before (done rest : List (Fin 4)) (hall : List.finRange 4 = done ++ rest) :
      Turn a b
        ⟨clientRest a rest (keyAfter a b done (Vector.replicate 4 0)),
          serverRest b rest (keyAfter b a done (Vector.replicate 4 0)),
          carrying [], carrying []⟩
        (publicWords b done) (publicWords a done)
  | sent (done rest : List (Fin 4)) (i : Fin 4)
      (hall : List.finRange 4 = done ++ i :: rest) :
      Turn a b
        ⟨clientReads a i rest (keyAfter a b done (Vector.replicate 4 0)),
          serverRest b (i :: rest) (keyAfter b a done (Vector.replicate 4 0)),
          carrying (wordBytes (dhPublic (a.get i))), carrying []⟩
        (publicWords b done) (publicWords a done)
  | heard (done rest : List (Fin 4)) (i : Fin 4)
      (hall : List.finRange 4 = done ++ i :: rest) :
      Turn a b
        ⟨clientReads a i rest (keyAfter a b done (Vector.replicate 4 0)),
          serverSends b i rest (keyAfter b a done (Vector.replicate 4 0))
            (dhPublic (a.get i)),
          carrying [], carrying []⟩
        (publicWords b done) (publicWords a (done ++ [i]))
  | answered (done rest : List (Fin 4)) (i : Fin 4)
      (hall : List.finRange 4 = done ++ i :: rest) :
      Turn a b
        ⟨clientReads a i rest (keyAfter a b done (Vector.replicate 4 0)),
          serverRest b rest (keyAfter b a (done ++ [i]) (Vector.replicate 4 0)),
          carrying [], carrying (wordBytes (dhPublic (b.get i)))⟩
        (publicWords b done) (publicWords a (done ++ [i]))

section Turns

variable {a b : Exponents} {s s' : Net Byte Key Key} {l r : List Bytes}

theorem turn_start (a b : Exponents) :
    Turn a b (.start (doDhClient a) (doDhServer b)) [] [] :=
  .before [] (List.finRange 4) rfl

theorem keyAfter_append (a b : Exponents) (done : List (Fin 4)) (i : Fin 4)
    (key : Key) :
    keyAfter a b (done ++ [i]) key = setKeyWord (keyAfter a b done key) i
      (dhKeyWord (dhPublic (b.get i)) (a.get i)) := by
  simp [keyAfter, keyRound]

theorem publicWords_append (exponents : Exponents) (done : List (Fin 4))
    (i : Fin 4) : publicWords exponents (done ++ [i]) =
      publicWords exponents done ++ [wordBytes (dhPublic (exponents.get i))] := by
  simp [publicWords]

/-- A process that waits for a word gets the one that is on its way. -/
theorem step_receive_word {v : UInt64} {next : Bytes → Proc Byte Key}
    {p : Proc Byte Key} {out inp' out' : Duplex.Stream Byte}
    (h : Duplex.Step (.receive 8 next) (carrying (wordBytes v)) out p inp'
      out') : p = next (wordBytes v) ∧ inp' = carrying [] ∧ out' = out := by
  obtain ⟨msg, rest, hlen, hmsg, rfl, rfl, rfl⟩ := h.of_receive
  have hword : (wordBytes v).length = 8 := length_le 8 v.toNat
  have hsplit : wordBytes v ++ [] = msg ++ rest := by
    rw [List.append_nil]
    exact hmsg
  obtain ⟨rfl, rfl⟩ := List.append_inj hsplit (by omega)
  exact ⟨rfl, rfl, rfl⟩

theorem taken_word (v : UInt64) :
    Net.taken (carrying (wordBytes v)) (carrying []) = [wordBytes v] :=
  Net.taken_of_append (wordBytes_ne_nil v) (List.append_nil _).symm

theorem not_step_receive {next : Bytes → Proc Byte Key} {p : Proc Byte Key}
    {out inp' out' : Duplex.Stream Byte} :
    ¬ Duplex.Step (.receive 8 next) (carrying []) out p inp' out' := by
  intro h
  obtain ⟨msg, rest, hlen, hmsg, _⟩ := h.of_receive
  have hnil := (List.append_eq_nil_iff.mp hmsg.symm).1
  rw [hnil] at hlen
  cases hlen

theorem clientReads_step {i : Fin 4} {rest : List (Fin 4)} {key : Key}
    {v : UInt64} {p : Proc Byte Key} {out inp' out' : Duplex.Stream Byte}
    (h : Duplex.Step (clientReads a i rest key) (carrying (wordBytes v)) out p
      inp' out') :
    p = clientRest a rest (setKeyWord key i (dhKeyWord v (a.get i))) ∧
      inp' = carrying [] ∧ out' = out := by
  have hstep := step_receive_word h
  rwa [ofLe_wordBytes] at hstep

theorem serverRest_step {i : Fin 4} {rest : List (Fin 4)} {key : Key}
    {v : UInt64} {p : Proc Byte Key} {out inp' out' : Duplex.Stream Byte}
    (h : Duplex.Step (serverRest b (i :: rest) key) (carrying (wordBytes v)) out
      p inp' out') :
    p = serverSends b i rest key v ∧ inp' = carrying [] ∧ out' = out := by
  rw [serverRest_cons] at h
  have hstep := step_receive_word h
  rwa [ofLe_wordBytes] at hstep

/-- Each step of either side leads to the next turn. -/
theorem Turn.step (h : Turn a b s l r) (hstep : Net.Step s s') :
    Turn a b s' (l ++ Net.taken s.toLeft s'.toLeft)
      (r ++ Net.taken s.toRight s'.toRight) := by
  cases h with
  | before done rest hall =>
      cases rest with
      | nil =>
          cases hstep with
          | left hstep => exact hstep.of_done.elim
          | right hstep => exact hstep.of_done.elim
      | cons i rest =>
          cases hstep with
          | left hstep =>
              obtain ⟨rfl, rfl, rfl⟩ := hstep.of_send
              rw [Net.taken_self, Net.taken_append, List.append_nil,
                List.append_nil]
              exact .sent done rest i hall
          | right hstep => exact (not_step_receive hstep).elim
  | sent done rest i hall =>
      cases hstep with
      | left hstep => exact (not_step_receive hstep).elim
      | right hstep =>
          obtain ⟨rfl, rfl, rfl⟩ := serverRest_step hstep
          rw [Net.taken_self, List.append_nil, taken_word, ← publicWords_append]
          exact .heard done rest i hall
  | heard done rest i hall =>
      cases hstep with
      | left hstep => exact (not_step_receive hstep).elim
      | right hstep =>
          obtain ⟨rfl, rfl, rfl⟩ := hstep.of_send
          rw [Net.taken_self, Net.taken_append, List.append_nil,
            List.append_nil, ← keyAfter_append]
          exact .answered done rest i hall
  | answered done rest i hall =>
      cases hstep with
      | left hstep =>
          obtain ⟨rfl, rfl, rfl⟩ := clientReads_step hstep
          rw [Net.taken_self, List.append_nil, taken_word, ← publicWords_append,
            ← keyAfter_append]
          exact .before (done ++ [i]) rest (by rw [hall, List.append_assoc]; rfl)
      | right hstep =>
          cases rest with
          | nil => exact hstep.of_done.elim
          | cons j rest => exact (not_step_receive hstep).elim

/-- Every run is at one of the turns. -/
theorem turn_of_transcript
    (h : Net.Transcript (.start (doDhClient a) (doDhServer b)) s l r) :
    Turn a b s l r := by
  induction h with
  | refl => exact turn_start a b
  | tail _ hstep ih => exact ih.step hstep

end Turns

section Results

variable {a b : Exponents} {s : Net Byte Key Key} {l r : List Bytes}

/-- Before the end one of the two sides has a step. -/
theorem Turn.progress (h : Turn a b s l r) :
    (∃ key key', s.left = .done key ∧ s.right = .done key') ∨
      ∃ s', Net.Step s s' := by
  cases h with
  | before done rest hall =>
      cases rest with
      | nil => exact .inl ⟨_, _, rfl, rfl⟩
      | cons i rest => exact .inr ⟨_, .left (.send rfl)⟩
  | sent done rest i hall =>
      exact .inr ⟨_, .right (.receive (length_le 8 _) (List.append_nil _).symm)⟩
  | heard done rest i hall => exact .inr ⟨_, .right (.send rfl)⟩
  | answered done rest i hall =>
      exact .inr ⟨_, .left (.receive (length_le 8 _) (List.append_nil _).symm)⟩

theorem prefix_publicWords (exponents : Exponents) {all done rest : List (Fin 4)}
    (hall : all = done ++ rest) :
    publicWords exponents done <+: publicWords exponents all := by
  rw [hall, publicWords, publicWords, List.map_append]
  exact List.prefix_append _ _

/-- Each side reads the public values of the other one, in order. -/
theorem Turn.reads (h : Turn a b s l r) :
    l <+: publicWords b (List.finRange 4) ∧
      r <+: publicWords a (List.finRange 4) := by
  cases h with
  | before done rest hall =>
      exact ⟨prefix_publicWords b hall, prefix_publicWords a hall⟩
  | sent done rest i hall =>
      exact ⟨prefix_publicWords b hall, prefix_publicWords a hall⟩
  | heard done rest i hall =>
      have hmore : List.finRange 4 = (done ++ [i]) ++ rest := by
        rw [hall, List.append_assoc]
        rfl
      exact ⟨prefix_publicWords b hall, prefix_publicWords a hmore⟩
  | answered done rest i hall =>
      have hmore : List.finRange 4 = (done ++ [i]) ++ rest := by
        rw [hall, List.append_assoc]
        rfl
      exact ⟨prefix_publicWords b hall, prefix_publicWords a hmore⟩

/-- The word of round `i`, once that round is over. -/
theorem get_keyAfter (mine theirs : Exponents) (rounds : List (Fin 4)) (key : Key)
    (i : Fin 4) : (keyAfter mine theirs rounds key).get i =
      if i ∈ rounds then dhKeyWord (dhPublic (theirs.get i)) (mine.get i)
      else key.get i := by
  induction rounds generalizing key with
  | nil => rfl
  | cons j rounds ih =>
      have hstep : keyAfter mine theirs (j :: rounds) key =
          keyAfter mine theirs rounds (keyRound mine theirs key j) := rfl
      rw [hstep, ih]
      by_cases hi : i ∈ rounds
      · rw [if_pos hi, if_pos (List.mem_cons_of_mem j hi)]
      · rw [if_neg hi]
        by_cases hij : i = j
        · subst hij
          rw [if_pos List.mem_cons_self]
          simp [keyRound, setKeyWord, Vector.get_eq_getElem]
        · have hnot : ¬ i ∈ j :: rounds := by
            simp [hij, hi]
          rw [if_neg hnot]
          have hval : j.val ≠ i.val := fun h => hij (Fin.ext h.symm)
          simp [keyRound, setKeyWord, Vector.get_eq_getElem,
            Vector.getElem_set_ne, hval]

theorem toNat_agreedKey (mine theirs : Exponents) (i : Fin 4) :
    ((agreedKey mine theirs).get i).toNat =
      5 ^ ((mine.get i).toNat * (theirs.get i).toNat) % (2 ^ 32 - 99) := by
  rw [agreedKey, get_keyAfter, if_pos (List.mem_finRange i), toNat_dhKeyWord]

/-- The key of a side that is done is the agreed one. -/
theorem Turn.keys (h : Turn a b s l r) {key key' : Key}
    (hl : s.left = .done key) (hr : s.right = .done key') :
    key = agreedKey a b ∧ key' = agreedKey b a := by
  cases h with
  | before done rest hall =>
      cases rest with
      | nil =>
          rw [List.append_nil] at hall
          subst hall
          cases hl
          cases hr
          exact ⟨rfl, rfl⟩
      | cons i rest => cases hl
  | sent done rest i hall => cases hl
  | heard done rest i hall => cases hl
  | answered done rest i hall => cases hl

/-- A value read in round `i` is the public value of that round. -/
theorem read_eq {theirs : Exponents} {reads : List Bytes}
    (h : reads <+: publicWords theirs (List.finRange 4)) {i : Fin 4} {bs : Bytes}
    (hi : reads[i.val]? = some bs) :
    UInt64.ofNat (ofLe bs) = dhPublic (theirs.get i) := by
  obtain ⟨more, hmore⟩ := h
  have hlt : i.val < reads.length := (List.getElem?_eq_some_iff.mp hi).1
  have hword : (publicWords theirs (List.finRange 4))[i.val]? =
      some (wordBytes (dhPublic (theirs.get i))) := by
    simp [publicWords]
  rw [← hmore, List.getElem?_append_left hlt, hi] at hword
  rw [Option.some.inj hword, ofLe_wordBytes]

/-- The key agreement in every run: it is not stuck before both sides are done,
each side reads the other one's public values in order, no product of a call of
`sq_mp` wraps, and both sides end with the same key. -/
theorem dh_agreement (a b : Exponents) (s : Net Byte Key Key) (l r : List Bytes)
    (h : Net.Transcript (.start (doDhClient a) (doDhServer b)) s l r) :
    ((∃ key key', s.left = .done key ∧ s.right = .done key') ∨
        ∃ s', Net.Step s s') ∧
      (l <+: publicWords b (List.finRange 4) ∧
        r <+: publicWords a (List.finRange 4)) ∧
      (∀ i : Fin 4, NoWrap dhG (a.get i) dhP ∧ NoWrap dhG (b.get i) dhP ∧
        (∀ bs, l[i.val]? = some bs →
          NoWrap (UInt64.ofNat (ofLe bs)) (a.get i) dhP) ∧
        ∀ bs, r[i.val]? = some bs →
          NoWrap (UInt64.ofNat (ofLe bs)) (b.get i) dhP) ∧
      ∀ key key', s.left = .done key → s.right = .done key' → ∀ i,
        key.get i = key'.get i ∧ (key.get i).toNat =
          5 ^ ((a.get i).toNat * (b.get i).toNat) % (2 ^ 32 - 99) := by
  have hturn := turn_of_transcript h
  obtain ⟨hl, hr⟩ := hturn.reads
  refine ⟨hturn.progress, ⟨hl, hr⟩, fun i => ?_, fun key key' hdone hdone' i => ?_⟩
  · refine ⟨noWrap_public _, noWrap_public _, fun bs hbs => ?_, fun bs hbs => ?_⟩
    · rw [read_eq hl hbs]
      exact noWrap_secret _ _
    · rw [read_eq hr hbs]
      exact noWrap_secret _ _
  · obtain ⟨rfl, rfl⟩ := hturn.keys hdone hdone'
    exact ⟨by rw [agreedKey_comm], toNat_agreedKey a b i⟩

/-- The agreement on the exponents `2` and `3`, run to its end. -/
theorem dh_agreement_two_three :
    ∃ s key, Net.Runs (.start (doDhClient (Vector.replicate 4 2))
        (doDhServer (Vector.replicate 4 3))) s ∧
      s.left = .done key ∧ s.right = .done key ∧ (key.get 0).toNat = 15625 := by
  have hrun := dhRounds_runs (Vector.replicate 4 2) (Vector.replicate 4 3)
    (List.finRange 4) (Vector.replicate 4 0) (Vector.replicate 4 0)
  obtain ⟨l, r, htranscript⟩ := hrun.transcript
  obtain ⟨_, _, _, hkeys⟩ := dh_agreement _ _ _ l r htranscript
  have hsame : agreedKey (Vector.replicate 4 3) (Vector.replicate 4 2) =
      agreedKey (Vector.replicate 4 2) (Vector.replicate 4 3) :=
    agreedKey_comm _ _
  refine ⟨_, _, hrun, rfl, congrArg Proc.done hsame, ?_⟩
  have hword := (hkeys _ _ rfl rfl 0).2
  have htwo : ((Vector.replicate 4 2 : Exponents).get 0).toNat = 2 := by decide
  have hthree : ((Vector.replicate 4 3 : Exponents).get 0).toNat = 3 := by decide
  rw [htwo, hthree] at hword
  exact hword

end Results

end EcFtp
