/-
The numbers the key agreements draw.  Neither program gives `rand` a seed, so what a
key agreement draws is set by how many went before it in the same session.
-/
import EcFtp.DiffieHellman
import EcFtp.FtpMachine
import EcFtp.RandStream

namespace EcFtp

open RandStream Ftp

/-- A program that may call `time`, `srand` and `rand`. -/
abbrev RandProg := Rand Nat UInt32 UInt64

/-- `rand` before any `srand`: as if it had been given the seed 1. -/
def unseeded : Position UInt32 := ⟨1, 0⟩

section Programs

/-- One round's exponent. -/
def drawExponent : RandProg UInt64 := .rand fun draw => .done (dhExponent draw)

/-- The exponents of `do_dh_client` and `do_dh_server`. -/
def drawExponents : RandProg Exponents := do
  let e₀ ← drawExponent
  let e₁ ← drawExponent
  let e₂ ← drawExponent
  let e₃ ← drawExponent
  pure #v[e₀, e₁, e₂, e₃]

/-- A loop that handles commands one after the other until it is told to stop, and
draws exponents for those that agree on a key. -/
def handleCommands {κ : Type} (stops agrees : κ → Bool) :
    List κ → RandProg (List Exponents)
  | [] => pure []
  | cmd :: cmds =>
      if stops cmd then pure []
      else if agrees cmd then do
        let e ← drawExponents
        let es ← handleCommands stops agrees cmds
        pure (e :: es)
      else handleCommands stops agrees cmds

/-- `do_get` and `do_put` agree on a key once they have a name. -/
def clientAgrees : Command → Bool
  | .get name => name.isSome
  | .put name => name.isSome
  | .ls _ => false
  | .quit => false

/-- `main` of the client, behind its connection. -/
def clientMain : List Command → RandProg (List Exponents) :=
  handleCommands (· = .quit) clientAgrees

/-- What a child of the server finds in its turn: QUIT in place of PORT, or a command
behind PORT. -/
inductive Request where
  | quit
  | command (verb : Verb)
deriving Repr, DecidableEq

/-- `do_retr` and `do_stor` agree on a key before anything else. -/
def childAgrees : Request → Bool
  | .command verb => verb = .retr || verb = .stor
  | .quit => false

/-- The child that `main` of the server forks for a connection. -/
def serverChild : List Request → RandProg (List Exponents) :=
  handleCommands (· = .quit) childAgrees

/-- `main` of the server up to a fork, behind some earlier connections. -/
def serverParent (connections : Nat) : RandProg PUnit :=
  (List.range connections).forM fun _ => pure ⟨⟩

end Programs

section Runs

variable (stream : UInt32 → Nat → UInt64) (now : Nat)

/-- The exponents of a client that is started at `now`. -/
def clientRun (commands : List Command) : List Exponents :=
  ((clientMain commands).run stream now unseeded).1

/-- The exponents of a child of a server that is started at `now`; it begins with what
the parent has of `rand`. -/
def childRun (connections : Nat) (requests : List Request) : List Exponents :=
  ((serverChild requests).run stream now
    ((serverParent connections).run stream now unseeded).2).1

/-- The exponents of four numbers drawn in a row. -/
def exponentsAt (numbers : Nat → UInt64) (drawn : Nat) : Exponents :=
  #v[dhExponent (numbers drawn), dhExponent (numbers (drawn + 1)),
    dhExponent (numbers (drawn + 2)), dhExponent (numbers (drawn + 3))]

variable {stream now} {κ : Type} {stops agrees : κ → Bool} {s : Position UInt32}

theorem drawExponents_run : drawExponents.run stream now s =
    (exponentsAt (stream s.seed) s.drawn, { s with drawn := s.drawn + 4 }) := rfl

/-- Behind `k` key agreements the next one gets the numbers behind theirs. -/
theorem handleCommands_getElem? {cmds : List κ} {k : Nat} {e : Exponents}
    (he : ((handleCommands stops agrees cmds).run stream now s).1[k]? = some e) :
    e = exponentsAt (stream s.seed) (s.drawn + 4 * k) := by
  induction cmds generalizing s k with
  | nil => cases he
  | cons cmd cmds ih =>
      rw [handleCommands] at he
      split at he
      · cases he
      · split at he
        · rw [run_bind, drawExponents_run, run_bind] at he
          cases k with
          | zero =>
              obtain rfl : exponentsAt (stream s.seed) s.drawn = e := Option.some.inj he
              rfl
          | succ k =>
              have hrest := @ih _ k he
              rw [hrest, Nat.mul_succ, Nat.add_right_comm, Nat.add_assoc]
        · exact ih he

/-- The parent has drawn nothing. -/
theorem serverParent_run (connections : Nat) (s : Position UInt32) :
    ((serverParent connections).run stream now s).2 = s := by
  have hloop : ∀ l : List Nat,
      ((l.forM fun _ => (pure ⟨⟩ : RandProg PUnit)).run stream now s).2 = s := by
    intro l
    induction l with
    | nil => rfl
    | cons n l ih => exact ih
  exact hloop (List.range connections)

theorem clientRun_getElem? {commands : List Command} {k : Nat} {e : Exponents}
    (he : (clientRun stream now commands)[k]? = some e) :
    e = exponentsAt (stream 1) (4 * k) := by
  have hexponents := handleCommands_getElem? he
  rwa [unseeded, Nat.zero_add] at hexponents

theorem childRun_getElem? {connections k : Nat} {requests : List Request} {e : Exponents}
    (he : (childRun stream now connections requests)[k]? = some e) :
    e = exponentsAt (stream 1) (4 * k) := by
  have hexponents := handleCommands_getElem? he
  rwa [serverParent_run, unseeded, Nat.zero_add] at hexponents

end Runs

/-- Whenever two clients are started, and whenever two servers are, the key agreements
behind equally many others in their sessions get the same exponents. -/
theorem exponents_ignoreStart (stream : UInt32 → Nat → UInt64) (t₁ t₂ k : Nat) :
    (∀ c₁ c₂, k < (clientRun stream t₁ c₁).length → k < (clientRun stream t₂ c₂).length →
        (clientRun stream t₁ c₁)[k]? = (clientRun stream t₂ c₂)[k]?) ∧
      ∀ n₁ n₂ r₁ r₂, k < (childRun stream t₁ n₁ r₁).length →
        k < (childRun stream t₂ n₂ r₂).length →
          (childRun stream t₁ n₁ r₁)[k]? = (childRun stream t₂ n₂ r₂)[k]? := by
  constructor
  · intro c₁ c₂ h₁ h₂
    have hfirst := clientRun_getElem? (List.getElem?_eq_getElem h₁)
    have hsecond := clientRun_getElem? (List.getElem?_eq_getElem h₂)
    rw [List.getElem?_eq_getElem h₁, List.getElem?_eq_getElem h₂, hfirst, hsecond]
  · intro n₁ n₂ r₁ r₂ h₁ h₂
    have hfirst := childRun_getElem? (List.getElem?_eq_getElem h₁)
    have hsecond := childRun_getElem? (List.getElem?_eq_getElem h₂)
    rw [List.getElem?_eq_getElem h₁, List.getElem?_eq_getElem h₂, hfirst, hsecond]

/-- A stream that differs from seed to seed in every number. -/
def seedStream (seed : UInt32) (_ : Nat) : UInt64 := seed.toUInt64

/-- The second transfers of sessions that begin at different times. -/
theorem exponents_ignoreStart_second :
    (clientRun seedStream 100 [.get (some "f"), .get (some "g")])[1]? =
        (clientRun seedStream 200 [.ls none, .put (some "h"), .get (some "f")])[1]? ∧
      (childRun seedStream 100 0 [.command .retr, .command .stor])[1]? =
        (childRun seedStream 200 3 [.command .stor, .command .retr])[1]? := by
  have hsame := exponents_ignoreStart seedStream 100 200 1
  exact ⟨hsame.1 _ _ (by decide) (by decide), hsame.2 _ _ _ _ (by decide) (by decide)⟩

/-- The streams of the two start times have no number in common, and the exponents are
the same. -/
theorem exponents_repeat :
    (∀ i, seedStream (UInt32.ofNat 100) i ≠ seedStream (UInt32.ofNat 200) i) ∧
      clientRun seedStream 100 [.get (some "f")] =
        clientRun seedStream 200 [.get (some "f")] ∧
      (clientRun seedStream 100 [.get (some "f")]).length = 1 ∧
      childRun seedStream 100 0 [.command .retr] =
        childRun seedStream 200 0 [.command .retr] ∧
      (childRun seedStream 100 0 [.command .retr]).length = 1 := by
  refine ⟨fun i => ?_, rfl, rfl, rfl, rfl⟩
  change UInt32.toUInt64 (UInt32.ofNat 100) ≠ UInt32.toUInt64 (UInt32.ofNat 200)
  decide

end EcFtp
