/-
What crosses the data connection of a transfer.  It depends on the file and on how many
key agreements went before in the session, and on nothing else: neither on when the
programs were started nor on the hosts, and not on who sends.
-/
import EcFtp.RandDraws
import EcFtp.TransferOutcome
import Mathlib.Data.List.Forall2

namespace EcFtp

open Duplex Exec

section Prepared

variable {lzma : Lzma} {chunk c c' : Bytes} {chunks : List Bytes} {r r' : Record}

/-- A chunk has one record. -/
theorem Packs.unique (h : Packs lzma chunk r) (h' : Packs lzma chunk r') : r = r' := by
  cases h with
  | raw h hle =>
      cases h' with
      | raw h' hle' => rfl
      | compressed h' hlt =>
          cases h.symm.trans h'
          exact absurd hlt (Nat.not_lt.mpr hle)
  | compressed h hlt =>
      cases h' with
      | raw h' hle =>
          cases h.symm.trans h'
          exact absurd hlt (Nat.not_lt.mpr hle)
      | compressed h' hlt' =>
          cases h.symm.trans h'
          rfl

theorem Holds.unique (h : Holds lzma c chunks) (h' : Holds lzma c' chunks) : c = c' := by
  obtain ⟨rs, hpacks, rfl⟩ := h
  obtain ⟨rs', hpacks', rfl⟩ := h'
  have hunique : Relator.RightUnique (Packs lzma) := fun _ _ _ => Packs.unique
  rw [hunique.forall₂ hpacks hpacks']

variable {env env' : PrepareEnv} {key : Key}
  {filename filename' preparedFp preparedFp' : Path}
  {fs₀ fs₀' fs fs' : FileSystem} {x : FileData}

end Prepared

section Endpoints

variable {lzma : Lzma} {role : DhRole} {draws : Draws} {filename : Path} {fs : FileSystem}
  {u w : Bytes} {e : Bool}

end Endpoints

section Transcripts

variable {lzma : Lzma} {t : Session}
  {s :
    Net Byte (EStateM.Result Exit FileSystem Path) (EStateM.Result Exit FileSystem PUnit)}
  {l r : List Bytes}

end Transcripts

def Session.drawsOf (t : Session) (side : DhRole) : Draws :=
  if side = t.role then t.senderDraws else t.receiverDraws

/-- The key agreement of the transfer is behind `k` others: in the session of the
client, which was started at some time, and in that of a child of the server, which was,
too. -/
structure Session.Behind (stream : UInt32 → Nat → UInt64) (k : Nat) (t : Session) :
    Prop where
  client : ∃ now commands,
    (clientRun stream now commands)[k]? = some (t.drawsOf .client).exponents
  server : ∃ now connections requests,
    (childRun stream now connections requests)[k]? = some (t.drawsOf .server).exponents

section Repeats

variable {stream : UInt32 → Nat → UInt64} {k : Nat} {t : Session}

theorem Session.Behind.draws (h : t.Behind stream k) (side : DhRole) :
    (t.drawsOf side).exponents = exponentsAt (stream 1) (4 * k) := by
  cases side with
  | client =>
      obtain ⟨_, _, hdraws⟩ := h.client
      exact clientRun_getElem? hdraws
  | server =>
      obtain ⟨_, _, _, hdraws⟩ := h.server
      exact childRun_getElem? hdraws

theorem Session.Behind.senderDraws (h : t.Behind stream k) :
    t.senderDraws.exponents = exponentsAt (stream 1) (4 * k) := by
  have hdraws := h.draws t.role
  rwa [Session.drawsOf, if_pos rfl] at hdraws

theorem Session.Behind.receiverDraws (h : t.Behind stream k) :
    t.receiverDraws.exponents = exponentsAt (stream 1) (4 * k) := by
  have hdraws := h.draws t.role.other
  have hother : t.role.other ≠ t.role := by
    cases t.role <;> exact fun heq => by cases heq
  rwa [Session.drawsOf, if_neg hother] at hdraws

end Repeats

end EcFtp
