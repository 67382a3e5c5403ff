/-
What the commands of a session do to the files of the two hosts.  As long as every
transfer ends with both functions returning zero, it comes to this: each command
copies one file.
-/
import EcFtp.MissingInput
import EcFtp.TransferOutcome

namespace EcFtp

open Duplex Exec

/-- The files of the client's host and those of the server's. -/
@[ext] structure Hosts where
  client : FileSystem
  server : FileSystem

/-- A `put` or a `get`: which side sends, and the name, which is the same on both
hosts. -/
structure TransferCommand where
  sends : DhRole
  name : Path
deriving Repr, DecidableEq

namespace Hosts

def files (h : Hosts) : DhRole → FileSystem
  | .client => h.client
  | .server => h.server

def withFiles (h : Hosts) (fs : FileSystem) : DhRole → Hosts
  | .client => { h with client := fs }
  | .server => { h with server := fs }

/-- What a command is for: the other side gets the file. -/
def copy (h : Hosts) (cmd : TransferCommand) : Option Hosts :=
  (h.files cmd.sends cmd.name).map fun x =>
    h.withFiles ((h.files cmd.sends.other).write cmd.name x) cmd.sends.other

variable (h : Hosts) (role : DhRole) (fs : FileSystem)

@[simp] theorem files_withFiles : (h.withFiles fs role).files role = fs := by
  cases role <;> rfl

@[simp] theorem files_withFiles_other :
    (h.withFiles fs role.other).files role = h.files role := by
  cases role <;> rfl

theorem withFiles_files (role' : DhRole) : h.withFiles (h.files role') role' = h := by
  cases role' <;> rfl

end Hosts

/-- One command: a session on the files as they are, in which both functions return
zero.  The prepared file is removed behind it. -/
def Transfers (lzma : Lzma) (h : Hosts) (cmd : TransferCommand) (h' : Hosts) : Prop :=
  ∃ t : Session, t.role = cmd.sends ∧ t.source = cmd.name ∧ t.dest = cmd.name ∧
    t.senderFs = h.files cmd.sends ∧ t.receiverFs = h.files cmd.sends.other ∧
    ∃ preparedFp fs fs', t.EndsWith lzma preparedFp fs fs' ∧
      h' = (h.withFiles (fs.delete preparedFp) cmd.sends).withFiles fs' cmd.sends.other

/-- Some commands, one after the other. -/
inductive TransfersAll (lzma : Lzma) : Hosts → List TransferCommand → Hosts → Prop
  | nil (h : Hosts) : TransfersAll lzma h [] h
  | cons {h h' h'' : Hosts} {cmd : TransferCommand} {cmds : List TransferCommand}
      (first : Transfers lzma h cmd h') (rest : TransfersAll lzma h' cmds h'') :
      TransfersAll lzma h (cmd :: cmds) h''

/-- No file on either host is one of those that are lost. -/
def Hosts.Kept (lzma : Lzma) (h : Hosts) : Prop :=
  ∀ role fp x, h.files role fp = some x → ¬ Loses lzma x.bytes

section Missing

variable {lzma : Lzma} {env : PrepareEnv} {key : Key} {fs fs' : FileSystem}
  {filename preparedFp : Path}

/-- On a missing file `comp_file` writes nothing. -/
theorem compFile_missing {compEnv : Env} {stSize : Int}
    (h : exitCode (compFile lzma compEnv stSize none .empty) = some 0) :
    (finalState (compFile lzma compEnv stSize none .empty)).out = [] := by
  have hrun := @aroundBatches_missing _ compPlan compEnv stSize
    (compJob compPlan.toThreadPlan lzma compEnv stSize none) fun _ _ _ => rfl
  change exitCode (aroundBatches compPlan.toThreadPlan compEnv stSize
    (compJob compPlan.toThreadPlan lzma compEnv stSize none) .empty) = some 0 at h
  change (finalState (aroundBatches compPlan.toThreadPlan compEnv stSize
    (compJob compPlan.toThreadPlan lzma compEnv stSize none) .empty)).out = []
  rw [hrun]
  split
  · rfl
  · split
    · rfl
    · rfl

/-- Only a file that exists is prepared. -/
theorem prepareFile_source
    (h : prepareFile lzma env filename key fs = .ok preparedFp fs') :
    ∃ x, fs filename = some x := by
  cases hsource : fs filename with
  | some x => exact ⟨x, rfl⟩
  | none =>
      obtain ⟨cOutFp, fs₁, hname, h₁⟩ := ok_of_bind h
      obtain ⟨_, rfl, _⟩ := tempCompressionName_ok hname
      obtain ⟨_, fs₂, hcomp, h₂⟩ := ok_of_bind h₁
      have hmissing : fs.content filename = none := by
        rw [FileSystem.content, hsource]
        rfl
      rw [callCompFile, hmissing] at hcomp
      obtain ⟨hcode, c, hc, rfl⟩ := callFile_ok hcomp fun hcode => by
        rw [not_fails_of_zero hcode]
        rfl
      obtain ⟨eOutFp, fs₃, hname', h₃⟩ := ok_of_bind h₂
      obtain ⟨_, _, rfl⟩ := mkstemp_ok hname'
      obtain ⟨_, fs₄, henc, _⟩ := ok_of_bind h₃
      obtain ⟨hencCode, _⟩ := (callEncFile_ok_iff FileSystem.write_self).mp henc
      exact absurd (hc.trans (compFile_missing hcode)) (encFileOf_ne_nil hencCode)

end Missing

section Copies

variable {lzma : Lzma} {h h' h'' : Hosts} {cmd : TransferCommand}
  {cmds : List TransferCommand}

/-- One command copies one file. -/
theorem Transfers.copy (hundoes : lzma.Undoes) (hkept : h.Kept lzma)
    (htransfer : Transfers lzma h cmd h') : h.copy cmd = some h' := by
  obtain ⟨t, hrole, hsource, hdest, hsender, hreceiver, preparedFp,
    fs, fs', hends, rfl⟩ :=
    htransfer
  obtain ⟨key, recvFp, hprepare, _, _⟩ := Session.endsWith_inv hends
  obtain ⟨x, hx⟩ := prepareFile_source hprepare
  have hlost : ¬ Loses lzma x.bytes := by
    rw [hsource, hsender] at hx
    exact hkept cmd.sends cmd.name x hx
  obtain ⟨hfile, _, _, hfresh, hsame, hothers⟩ :=
    keeps_of hundoes hlost t hx preparedFp fs fs' hends
  have hleft : fs.delete preparedFp = h.files cmd.sends := by
    rw [← hsender]
    funext fp
    by_cases hfp : fp = preparedFp
    · rw [hfp, FileSystem.delete_self, hfresh]
    · rw [FileSystem.delete_of_ne hfp, hsame fp hfp]
  have hright : fs' = (h.files cmd.sends.other).write cmd.name x := by
    rw [← hreceiver, ← hdest]
    funext fp
    by_cases hfp : fp = t.dest
    · rw [hfp, hfile, FileSystem.write_self]
    · rw [FileSystem.write_of_ne hfp, hothers fp hfp]
  rw [hsource, hsender] at hx
  rw [Hosts.copy, hx, hleft, hright, Hosts.withFiles_files]
  rfl

/-- Copying brings no other file than there was. -/
theorem Hosts.Kept.copy (hkept : h.Kept lzma) (hcopy : h.copy cmd = some h') :
    h'.Kept lzma := by
  obtain ⟨x, hx, rfl⟩ := Option.map_eq_some_iff.mp hcopy
  intro role fp y hy
  by_cases hrole : role = cmd.sends.other
  · subst hrole
    rw [Hosts.files_withFiles] at hy
    by_cases hfp : fp = cmd.name
    · rw [hfp, FileSystem.write_self] at hy
      obtain rfl : x = y := Option.some.inj hy
      exact hkept _ _ x hx
    · rw [FileSystem.write_of_ne hfp] at hy
      exact hkept _ _ y hy
  · obtain rfl : role = cmd.sends := by
      generalize cmd.sends = sends at hrole
      cases role <;> cases sends <;> first | rfl | exact absurd rfl hrole
    rw [Hosts.files_withFiles_other] at hy
    exact hkept _ _ y hy

/-- Sessions refine copying: whatever is put and got, in whatever order, both hosts
have the files that copying gives them, and no others. -/
theorem transfersAll_copy (lzma : Lzma) (hundoes : lzma.Undoes) (h h' : Hosts)
    (cmds : List TransferCommand) (hkept : h.Kept lzma)
    (htransfers : TransfersAll lzma h cmds h') : cmds.foldlM Hosts.copy h = some h' := by
  induction htransfers with
  | nil h => rfl
  | cons first rest ih =>
      have hcopy := first.copy hundoes hkept
      rw [List.foldlM_cons, hcopy]
      exact ih (hkept.copy hcopy)

theorem Transferable.not_loses {x : Bytes} (h : Transferable lzma x) :
    ¬ Loses lzma x := by
  obtain ⟨_, _, n, hsize, _, _, hroom⟩ := h
  rintro ⟨_, _, m, hsize', hpads⟩
  obtain rfl : n = m := Option.some.inj (hsize.symm.trans hsize')
  unfold PadsToNoBatch at hpads
  omega

/-- Where nothing fails, a file that can be transferred is. -/
theorem transfers_of_clear (hundoes : lzma.Undoes) {t : Session} (hclear : t.Clear)
    (hname : t.dest = t.source) {x : FileData} (hsource : t.senderFs t.source = some x)
    (hx : Transferable lzma x.bytes) (hsender : t.senderFs = h.files t.role)
    (hreceiver : t.receiverFs = h.files t.role.other) :
    ∃ h', Transfers lzma h ⟨t.role, t.source⟩ h' := by
  obtain ⟨preparedFp, e, hprepare, _, hreceived⟩ := hclear.results hundoes hsource hx
  obtain ⟨s, hruns, hleft, hright⟩ := Session.runs_of_prepared hprepare
  rw [content_of_some FileSystem.write_self, Option.getD_some, hreceived] at hright
  exact ⟨_, t, rfl, rfl, hname, hsender, hreceiver, _, _, _,
    ⟨s, hruns, hleft, hright⟩, rfl⟩

end Copies

/-- The hosts of a client with one file and a server with none. -/
def putHosts (x : FileData) : Hosts :=
  ⟨(putSession x).senderFs, (putSession x).receiverFs⟩

theorem putHosts_kept {x : FileData} (hx : Transferable .storing x.bytes) :
    (putHosts x).Kept .storing := by
  intro role fp y hy
  cases role with
  | client =>
      change (putSession x).senderFs fp = some y at hy
      rw [putSession_senderFs] at hy
      by_cases hfp : fp = "f"
      · rw [hfp, FileSystem.write_self] at hy
        obtain rfl : x = y := Option.some.inj hy
        exact hx.not_loses
      · rw [FileSystem.write_of_ne hfp] at hy
        cases hy
  | server => cases hy

theorem transfersAll_copy_a :
    ∃ h', TransfersAll .storing (putHosts fileOfA) [⟨.client, "f"⟩] h' ∧
    [(⟨.client, "f"⟩ : TransferCommand)].foldlM Hosts.copy
      (putHosts fileOfA) = some h' := by
  obtain ⟨h', htransfer⟩ := transfers_of_clear (h := putHosts fileOfA) storing_undoes
    (putSession_clear fileOfA) rfl (putSession_source fileOfA)
      fileOfA_transferable rfl rfl
  have hall := TransfersAll.cons htransfer (.nil h')
  exact ⟨h', hall, transfersAll_copy .storing storing_undoes (putHosts fileOfA) h' _
    (putHosts_kept fileOfA_transferable) hall⟩

end EcFtp
