/-
A transfer at every moment.  Between any two calls of a handler, and between any two
pieces of a file function's output, the files of its host are in order; so it may be
stopped at any of them.
-/
import EcFtp.CutInput
import EcFtp.ParallelTransfers

namespace EcFtp

open Exec Activities
open Activities.Program
  (call trace_bind trace_call endState_mem_trace within_call alone_call)

/-- The destination is as it was, or holds a new file whose bytes are allowed; of the
other files only temporary ones may differ. -/
structure LeavesOnly (allowed : Bytes → Prop) (filename : Path) (fs fs' : FileSystem) :
    Prop where
  dest : fs' filename = fs filename ∨ ∃ y, fs' filename = some y ∧ allowed y.bytes
  others : ∀ fp, fp ≠ filename → ¬ IsTempName filename fp → fs' fp = fs fp

/-- It touches no file but temporary ones. -/
abbrev OnlyTemp {α : Type} (filename : Path) (p : FileActivity α) : Prop :=
  p.activity.Within Set.univ {fp | IsTempName filename fp}

section Frames

variable {α β : Type} {allowed : Bytes → Prop} {filename fp : Path}
  {fs fs₁ fs' : FileSystem}
  {p : FileActivity α} {f : α → FileActivity β}

theorem not_isTempName_self (filename : Path) : ¬ IsTempName filename filename :=
  fun h => h.ne rfl

theorem LeavesOnly.of_frame (hframe : ∀ fp, ¬ IsTempName filename fp → fs' fp = fs fp) :
    LeavesOnly allowed filename fs fs' :=
  ⟨.inl (hframe filename (not_isTempName_self filename)), fun fp _ => hframe fp⟩

theorem LeavesOnly.after_frame (hframe : ∀ fp, ¬ IsTempName filename fp → fs₁ fp = fs fp)
    (h : LeavesOnly allowed filename fs₁ fs') : LeavesOnly allowed filename fs fs' := by
  refine ⟨?_, fun fp hne htemp => (h.others fp hne htemp).trans (hframe fp htemp)⟩
  rw [← hframe filename (not_isTempName_self filename)]
  exact h.dest

theorem LeavesOnly.before_frame (h : LeavesOnly allowed filename fs fs₁)
    (hframe : ∀ fp, ¬ IsTempName filename fp → fs' fp = fs₁ fp) :
    LeavesOnly allowed filename fs fs' := by
  refine ⟨?_, fun fp hne htemp => (hframe fp htemp).trans (h.others fp hne htemp)⟩
  rw [hframe filename (not_isTempName_self filename)]
  exact h.dest

/-- A part that touches temporary files only, before the part that matters. -/
theorem leavesOnly_bind (hp : OnlyTemp filename p)
    (hf : ∀ a fs₁, p.alone fs = .ok a fs₁ → fs' ∈ (f a).activity.trace fs₁ →
      LeavesOnly allowed filename fs₁ fs')
    (h : fs' ∈ (p >>= f).activity.trace fs) : LeavesOnly allowed filename fs fs' := by
  rcases trace_bind h with hfirst | ⟨a, fs₁, hrun, hsecond⟩
  · exact .of_frame fun fp htemp => hp.trace_frame hfirst htemp
  · have hend := endState_mem_trace p fs
    rw [hrun] at hend
    exact (hf a fs₁ hrun hsecond).after_frame fun fp htemp => hp.trace_frame hend htemp

/-- And one behind it. -/
theorem leavesOnly_then
    (hp : ∀ fs₁ ∈ p.activity.trace fs, LeavesOnly allowed filename fs fs₁)
    (hf : ∀ a, OnlyTemp filename (f a)) (h : fs' ∈ (p >>= f).activity.trace fs) :
    LeavesOnly allowed filename fs fs' := by
  rcases trace_bind h with hfirst | ⟨a, fs₁, hrun, hsecond⟩
  · exact hp fs' hfirst
  · have hend := endState_mem_trace p fs
    rw [hrun] at hend
    exact (hp fs₁ hend).before_frame fun fp htemp => (hf a).trace_frame hsecond htemp

end Frames

section Received

variable {lzma : Lzma} {pieces : List Nat} {key : Key} {e d : FileData}
  {penv : ProcessEnv}
  {fs fs' : FileSystem} {filename recvFp outputFp : Path} {allowed : Bytes → Prop}
  {creates : Bool} {reached : Nat} {res : EStateM.Result Exit IoState PUnit}

theorem clip_begins {bs cs : Bytes} (h : bs <+: cs) : (FileData.clip bs).bytes <+: cs :=
  List.IsPrefix.trans ⟨_, List.take_append_drop _ _⟩ h

theorem outputLeft_mayHold : (finalState res).MayHold (outputLeft reached res).bytes := by
  unfold outputLeft
  split
  · exact .inl (clip_begins List.prefix_rfl)
  · exact .inr (clip_begins (List.take_prefix _ _))

/-- While a file function writes, its output holds a beginning of what it writes. -/
theorem trace_writing
    (h : fs' ∈ (writing creates reached res outputFp pieces).activity.trace fs) :
    fs' = fs ∨ ∃ y : FileData, (finalState res).MayHold y.bytes ∧
      fs' = fs.write outputFp y := by
  induction pieces generalizing fs with
  | nil =>
      rcases trace_call h with hsame | hend
      · exact .inl hsame
      · rw [endState_callFile] at hend
        cases creates with
        | false => exact .inl hend
        | true => exact .inr ⟨_, outputLeft_mayHold, hend⟩
  | cons n pieces ih =>
      rcases trace_bind h with hfirst | ⟨u, fs₁, hrun, hsecond⟩
      · rcases trace_call hfirst with hsame | hend
        · exact .inl hsame
        · cases creates with
          | false => exact .inl hend
          | true => exact .inr ⟨_, .inl (clip_begins (List.take_prefix _ _)), hend⟩
      · rw [alone_call] at hrun
        cases hrun
        cases creates with
        | false => exact ih hsecond
        | true =>
            refine .inr ?_
            rcases ih hsecond with hsame | ⟨y, hy, hwrite⟩
            · exact ⟨_, .inl (clip_begins (List.take_prefix _ _)), hsame⟩
            · exact ⟨y, hy, hwrite.trans FileSystem.write_write⟩

/-- `uncomp_file` at work on `d`. -/
theorem trace_uncompCall {env : Env} {unset : Int} {inputFp : Path}
    (hfile : fs inputFp = some d)
    (h : fs' ∈
      (uncompCall lzma pieces env unset reached inputFp outputFp).activity.trace fs) :
    fs' = fs ∨ ∃ y : FileData, (finalState (uncompFileOf lzma env d)).MayHold y.bytes ∧
      fs' = fs.write outputFp y := by
  rcases trace_bind h with hfirst | ⟨r, fs₁, hrun, hsecond⟩
  · rcases trace_call hfirst with hsame | hend
    · exact .inl hsame
    · exact .inl hend
  · rw [alone_call] at hrun
    cases hrun
    have hwriting := trace_writing hsecond
    dsimp only at hwriting
    rw [stSize_of_some hfile, content_of_some hfile] at hwriting
    exact hwriting

/-- `process_received_file`: what is at the destination comes of `uncomp_file`. -/
theorem trace_processActivity (hname : IsRecvName filename recvFp)
    (hrecv : fs recvFp = some e)
    (hdec : ∀ d, Decrypts penv e key d → ∀ env bs,
      (finalState (uncompFileOf lzma env d)).MayHold bs → allowed bs)
    (h : fs' ∈ (processActivity lzma pieces penv filename recvFp key).activity.trace fs) :
    LeavesOnly allowed filename fs fs' := by
  refine leavesOnly_bind (within_call (calls_mkstemp fun _ _ => Set.mem_univ _)) ?_ h
  intro decOutFp fs₁ hrun h₁
  rw [alone_call] at hrun
  obtain ⟨_, rfl, hne⟩ := tempCompressionName_ok hrun
  have htemp : IsTempName filename decOutFp := .inl (tempCompressionName_isCompName hrun)
  refine leavesOnly_bind (within_decCall (Set.mem_univ _) htemp) ?_ h₁
  intro u fs₂ hcall h₂
  rw [alone_decCall] at hcall
  obtain ⟨hcode, d, hd, rfl⟩ := (callDecFile_ok_iff hrecv).mp hcall
  refine leavesOnly_bind (within_call (calls_remove (.inr hname))) ?_ h₂
  intro u fs₃ hremove h₃
  rw [alone_call] at hremove
  cases hremove
  have hfile : ((fs.write decOutFp d).delete recvFp) decOutFp = some d := by
    rw [FileSystem.delete_of_ne (mkstemp_ne hrun hrecv), FileSystem.write_self]
  refine leavesOnly_then (fun fs₄ h₄ => ?_) (fun _ => within_call (calls_remove htemp)) h₃
  rcases trace_uncompCall hfile h₄ with rfl | ⟨y, hy, rfl⟩
  · exact .of_frame fun _ _ => rfl
  · exact ⟨.inr ⟨y, FileSystem.write_self, hdec d ⟨hcode, hd⟩ _ y.bytes hy⟩,
      fun fp hne _ => FileSystem.write_of_ne hne⟩

/-- A receiving handler: what is at the destination comes of what it has received. -/
theorem trace_receiveActivity {removes : Bool} {host : RecvHost}
    (hdec : ∀ d, Decrypts penv (.clip host.received) key d → ∀ env bs,
      (finalState (uncompFileOf lzma env d)).MayHold bs → allowed bs)
    (h : fs' ∈ (receiveActivity lzma pieces removes penv host key
      (some filename)).activity.trace fs) : LeavesOnly allowed filename fs fs' := by
  refine leavesOnly_bind (within_call (calls_mkstemp fun _ _ => Set.mem_univ _)) ?_ h
  intro recvFp fs₁ hrun h₁
  rw [alone_call] at hrun
  have hname := tempRecvName_isRecvName hrun
  refine leavesOnly_bind (within_call (.exitIf _ _)) ?_ h₁
  intro u fs₂ _ h₂
  refine leavesOnly_bind (within_receiving (.inr hname)) ?_ h₂
  intro u fs₃ hreceive h₃
  rw [alone_receiving] at hreceive
  cases hreceive
  cases hquits : removes && host.readFails with
  | true =>
      rw [hquits] at h₃
      refine leavesOnly_bind (within_call (calls_remove (.inr hname))) ?_ h₃
      intro u fs₄ _ h₄
      have hthrow : OnlyTemp filename (call (throw (.ret (-1))) : FileActivity PUnit) :=
        within_call (.throw _)
      exact .of_frame fun fp htemp => hthrow.trace_frame h₄ htemp
  | false =>
      rw [hquits] at h₃
      exact trace_processActivity hname FileSystem.write_self hdec h₃

end Received

end EcFtp
