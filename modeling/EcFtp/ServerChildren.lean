/-
The children of the server: each serves its own client, whose next command may depend
on how the ones before it ended. Children that handle other files do not disturb each
other, whatever the order of their calls.
-/
import EcFtp.ParallelTransfers

namespace EcFtp

open Exec Activities

/-- A transfer command as a child of the server comes to it: the file it names, what the
host has for it, and the key that was agreed on. -/
inductive Job where
  | retr (filename : Option Path) (env : PrepareEnv) (opens : Bool) (key : Key)
  | stor (filename : Option Path) (env : ProcessEnv) (host : RecvHost) (key : Key)

namespace Job

def filename : Job → Option Path
  | retr filename _ _ _ => filename
  | stor filename _ _ _ => filename

/-- The characters of the two temporary names. -/
def compDigits : Job → Digits
  | retr _ env _ _ => env.compDigits
  | stor _ env _ _ => env.decDigits

def encDigits : Job → Digits
  | retr _ env _ _ => env.encDigits
  | stor _ _ host _ => host.recvDigits

/-- The temporary files of the job. -/
def temps (job : Job) : List Path :=
  job.filename.toList.flatMap fun filename => tempFiles filename
    job.compDigits job.encDigits

/-- The files the job looks at. -/
def uses (job : Job) : List Path := job.filename.toList ++ job.temps

/-- The files it may change. -/
def changes : Job → List Path
  | job@(retr ..) => job.temps
  | job@(stor ..) => job.uses

variable (lzma : Lzma)

/-- The handler, and the bytes it sends. -/
def handler : Job → FileProg Bytes
  | retr filename env opens key => doRetrSends lzma env opens key filename
  | stor filename env host key => do
      doStorFiles lzma key env host filename
      pure []

def activity (pieces : List Nat) : Job → FileActivity Bytes
  | retr filename env opens key => retrActivity lzma pieces env opens key filename
  | stor filename env host key => do
      storActivity lzma pieces env host key filename
      pure []

end Job

/-- The commands of one client. -/
inductive Script where
  | leaves
  | asks (job : Job) (next : Except Exit Bytes → Script)

namespace Script

/-- The client may ask for the job. -/
def Asks (job : Job) : Script → Prop
  | leaves => False
  | asks job' next => job' = job ∨ ∃ reply, (next reply).Asks job

def uses (script : Script) : Set Path := {fp | ∃ job, script.Asks job ∧ fp ∈ job.uses}

def changes (script : Script) : Set Path :=
  {fp | ∃ job, script.Asks job ∧ fp ∈ job.changes}

variable (lzma : Lzma)

/-- One handler after the other, and how each has ended. -/
def serve : Script → FileSystem → List (Except Exit Bytes) × FileSystem
  | leaves, fs => ([], fs)
  | asks job next, fs =>
      let reply := outcome (job.handler lzma fs)
      let rest := (next reply).serve (endState (job.handler lzma fs))
      (reply :: rest.1, rest.2)

def activity (pieces : List Nat) :
    Script → Activity Path (Option FileData) (List (Except Exit Bytes))
  | leaves => .ended []
  | asks job next =>
      (job.activity lzma pieces).activity.bind fun reply =>
        ((next reply).activity pieces).bind fun replies => .ended (reply :: replies)

end Script

section Sound

variable {lzma : Lzma} {pieces : List Nat} {job : Job} {script : Script}
  {reads writes : Set Path}

theorem Job.changes_subset {fp : Path} (h : fp ∈ job.changes) : fp ∈ job.uses := by
  cases job with
  | retr filename env opens key => exact List.mem_append_right _ h
  | stor filename env host key => exact h

theorem Job.alone_activity : (job.activity lzma pieces).alone = job.handler lzma := by
  cases job with
  | retr filename env opens key => exact alone_retrActivity
  | stor filename env host key =>
      unfold Job.activity Job.handler
      simp only [Program.alone_bind, Program.alone_pure, alone_storActivity]

theorem Job.file_mem {f : Path} (h : f ∈ job.filename) : f ∈ job.uses :=
  List.mem_append_left _ (Option.mem_toList.mpr h)

theorem Job.temp_mem {f fp : Path} (h : f ∈ job.filename)
    (hfp : fp ∈ tempFiles f job.compDigits job.encDigits) : fp ∈ job.temps :=
  List.mem_flatMap.mpr ⟨f, Option.mem_toList.mpr h, hfp⟩

theorem Job.within_activity (hr : ∀ fp ∈ job.uses, fp ∈ reads)
    (hw : ∀ fp ∈ job.changes, fp ∈ writes) :
    (job.activity lzma pieces).activity.Within reads writes := by
  have htemps : ∀ f ∈ job.filename, ∀ fp ∈ tempFiles f job.compDigits job.encDigits,
      fp ∈ reads ∧ fp ∈ writes := by
    intro f hf fp hfp
    have htemp := Job.temp_mem hf hfp
    refine ⟨hr fp (List.mem_append_right _ htemp), hw fp ?_⟩
    cases job with
    | retr filename env opens key => exact htemp
    | stor filename env host key => exact List.mem_append_right _ htemp
  cases job with
  | retr filename env opens key =>
      exact within_retrActivity (fun f hf => hr f (Job.file_mem hf)) htemps
  | stor filename env host key =>
      refine Program.within_bind ?_ fun _ => Program.within_pure _
      exact within_storActivity (fun f hf => hw f (Job.file_mem hf)) htemps

theorem Script.run_activity (script : Script) (fs : FileSystem) :
    (script.activity lzma pieces).run fs = script.serve lzma fs := by
  induction script generalizing fs with
  | leaves => rfl
  | asks job next ih =>
      unfold Script.activity Script.serve
      rw [Activity.run_bind, Activity.run_bind, Program.run_eq, Job.alone_activity, ih]
      rfl

theorem Script.within_activity (h : ∀ job, script.Asks job →
      (∀ fp ∈ job.uses, fp ∈ reads) ∧ ∀ fp ∈ job.changes, fp ∈ writes) :
    (script.activity lzma pieces).Within reads writes := by
  induction script with
  | leaves => exact True.intro
  | asks job next ih =>
      obtain ⟨hr, hw⟩ := h job (.inl rfl)
      refine (Job.within_activity hr hw).bind (Activity.gives_of (fun _ => True.intro) _)
        fun reply _ => ?_
      refine (ih reply fun job' hjob' => h job' (.inr ⟨reply, hjob'⟩)).bind
        (Activity.gives_of (fun _ => True.intro) _) fun _ _ => True.intro

/-- Clients whose commands leave each other's files alone. -/
theorem scripts_apart {κ : Type} {scripts : κ → Script}
    (h : ∀ j k, j ≠ k → ∀ fp ∈ (scripts j).changes, fp ∉ (scripts k).uses) :
    Apart (fun k => (scripts k).uses) (fun k => (scripts k).changes)
      fun k => (scripts k).activity lzma pieces := by
  refine ⟨fun k => Script.within_activity fun job hjob => ?_, h⟩
  exact ⟨fun fp hfp => ⟨job, hjob, hfp⟩, fun fp hfp => ⟨job, hjob, hfp⟩⟩

theorem oneByOne_scripts {κ : Type} {scripts : κ → Script} {order : List κ}
    {fs : FileSystem} :
    oneByOne (fun k => (scripts k).activity lzma pieces) order fs =
      order.foldl (fun fs k => ((scripts k).serve lzma fs).2) fs := by
  unfold oneByOne
  simp only [Script.run_activity]

end Sound

/-- `mkstemp` puts six characters in the place of `XXXXXX`. -/
def SixDigits (digits : Digits) : Prop := ∀ d ∈ digits, d.length = 6

theorem sixDigits_some {d : Path} (h : d.length = 6) : SixDigits (some d) := by
  intro d' hd'
  cases hd'
  exact h

/-- The path has the form of a temporary name of the file. -/
def LooksTemp (filename fp : Path) : Prop :=
  ∃ d, d.length = 6 ∧ (fp = compressionName filename ++ "-" ++ d ∨
    fp = compressionName filename ++ ".enc" ++ "-" ++ d)

/-- Two transfers that leave each other's files alone: of files none of which is called
like the other one or like a temporary file of it, or with different temporary names
when nothing else is changed. -/
def Job.Apart (job job' : Job) : Prop :=
  (∀ f ∈ job.filename, ∀ f' ∈ job'.filename,
      f ≠ f' ∧ ¬ LooksTemp f f' ∧ ¬ LooksTemp f' f) ∨
    ∀ fp ∈ job.changes, fp ∉ job'.uses

section Names

variable {f f' fp : Path} {compDigits encDigits : Digits} {d d' : Path} {job job' : Job}

theorem append_inj_right {x y x' y' : Path} (hlen : x'.length = y'.length)
    (h : x ++ x' = y ++ y') : x = y ∧ x' = y' := by
  have hlist := congrArg String.toList h
  rw [String.toList_append, String.toList_append] at hlist
  have hlen' : x'.toList.length = y'.toList.length := hlen
  obtain ⟨hx, hy⟩ := List.append_inj' hlist hlen'
  exact ⟨String.toList_inj.mp hx, String.toList_inj.mp hy⟩

/-- The two suffixes are never mistaken for one another. -/
theorem comp_ne_enc {x y : Path} (hlen : d.length = d'.length) :
    x ++ ".comp" ++ "-" ++ d ≠ y ++ ".enc" ++ "-" ++ d' := by
  intro h
  obtain ⟨h₁, _⟩ := append_inj_right hlen h
  obtain ⟨h₂, _⟩ := append_inj_right rfl h₁
  have hdot : ".comp" = "." ++ "comp" := by decide
  rw [hdot, ← String.append_assoc] at h₂
  obtain ⟨_, hsuffix⟩ := append_inj_right (by decide) h₂
  exact absurd hsuffix (by decide)

/-- A temporary name tells whose it is. -/
theorem LooksTemp.unique (h : LooksTemp f fp) (h' : LooksTemp f' fp) : f = f' := by
  obtain ⟨d, hd, hname⟩ := h
  obtain ⟨d', hd', hname'⟩ := h'
  have hlen : d.length = d'.length := hd.trans hd'.symm
  unfold compressionName at hname hname'
  rcases hname with rfl | rfl
  · rcases hname' with heq | heq
    · obtain ⟨h₁, _⟩ := append_inj_right hlen heq
      obtain ⟨h₂, _⟩ := append_inj_right rfl h₁
      exact (append_inj_right rfl h₂).1
    · exact absurd heq (comp_ne_enc hlen)
  · rcases hname' with heq | heq
    · exact absurd heq.symm (comp_ne_enc hlen.symm)
    · obtain ⟨h₁, _⟩ := append_inj_right hlen heq
      obtain ⟨h₂, _⟩ := append_inj_right rfl h₁
      obtain ⟨h₃, _⟩ := append_inj_right rfl h₂
      exact (append_inj_right rfl h₃).1

theorem looksTemp_of_mem (hcomp : SixDigits compDigits) (henc : SixDigits encDigits)
    (h : fp ∈ tempFiles f compDigits encDigits) : LooksTemp f fp := by
  unfold tempFiles at h
  rcases List.mem_append.mp h with hin | hin
  · obtain ⟨d, hd, rfl⟩ := List.mem_map.mp hin
    exact ⟨d, hcomp d (Option.mem_toList.mp hd), .inl rfl⟩
  · obtain ⟨d, hd, rfl⟩ := List.mem_map.mp hin
    exact ⟨d, henc d (Option.mem_toList.mp hd), .inr rfl⟩

/-- A file a job looks at is the one it names, or is called like a temporary file of
it. -/
theorem Job.mem_uses (hcomp : SixDigits job.compDigits) (henc : SixDigits job.encDigits)
    (h : fp ∈ job.uses) : ∃ f ∈ job.filename, fp = f ∨ LooksTemp f fp := by
  rcases List.mem_append.mp h with hfile | htemp
  · exact ⟨fp, Option.mem_toList.mp hfile, .inl rfl⟩
  · obtain ⟨f, hf, hin⟩ := List.mem_flatMap.mp htemp
    exact ⟨f, Option.mem_toList.mp hf, .inr (looksTemp_of_mem hcomp henc hin)⟩

theorem Job.Apart.not_mem (h : Job.Apart job job')
    (hcomp : SixDigits job.compDigits) (henc : SixDigits job.encDigits)
    (hcomp' : SixDigits job'.compDigits) (henc' : SixDigits job'.encDigits)
    (hfp : fp ∈ job.changes) : fp ∉ job'.uses := by
  rcases h with hnames | hfiles
  · intro hfp'
    obtain ⟨f, hf, hmine⟩ := Job.mem_uses hcomp henc (Job.changes_subset hfp)
    obtain ⟨f', hf', hyours⟩ := Job.mem_uses hcomp' henc' hfp'
    obtain ⟨hne, hnot, hnot'⟩ := hnames f hf f' hf'
    rcases hmine with rfl | hmine
    · rcases hyours with heq | hyours
      · exact hne heq
      · exact hnot' hyours
    · rcases hyours with rfl | hyours
      · exact hnot hmine
      · exact hne (hmine.unique hyours)
  · exact hfiles fp hfp

end Names

/-- A child that has served its client has done for it what it does when there is no
other child, and has left the files of its transfers so; files of no transfer are as
they were. When all children have ended, the files are as if they had been started one
by one. -/
theorem children_isolated {κ : Type} [DecidableEq κ] (lzma : Lzma) (pieces : List Nat)
    (scripts : κ → Script) (fs : FileSystem)
    (hsix : ∀ k job, (scripts k).Asks job → SixDigits job.compDigits ∧
      SixDigits job.encDigits)
    (hapart : ∀ j k, j ≠ k → ∀ job job', (scripts j).Asks job → (scripts k).Asks job' →
      job.Apart job')
    (c : Config κ Path (Option FileData) (List (Except Exit Bytes)))
    (hacts : Acts ⟨fun k => (scripts k).activity lzma pieces, fs⟩ c) :
    (∀ k replies, c.parties k = .ended replies →
      replies = ((scripts k).serve lzma fs).1 ∧
        ∀ fp ∈ (scripts k).uses, c.cells fp = ((scripts k).serve lzma fs).2 fp) ∧
    (∀ fp, (∀ k, fp ∉ (scripts k).changes) → c.cells fp = fs fp) ∧
    ∀ order : List κ, order.Nodup → (∀ k, k ∈ order) →
      (∀ k, ∃ replies, c.parties k = .ended replies) →
      c.cells = order.foldl (fun fs k => ((scripts k).serve lzma fs).2) fs := by
  have hdisjoint : ∀ j k, j ≠ k → ∀ fp ∈ (scripts j).changes, fp ∉ (scripts k).uses := by
    intro j k hne fp hchanges huses
    obtain ⟨job, hjob, hfp⟩ := hchanges
    obtain ⟨job', hjob', hfp'⟩ := huses
    obtain ⟨hcomp, henc⟩ := hsix j job hjob
    obtain ⟨hcomp', henc'⟩ := hsix k job' hjob'
    exact (hapart j k hne job job' hjob hjob').not_mem hcomp henc hcomp' henc' hfp hfp'
  have happ := @scripts_apart lzma pieces κ scripts hdisjoint
  have hway := happ.acts hacts
  refine ⟨fun k replies hk => ?_, hway.frame, fun order hnodup hall hend => ?_⟩
  · have hended := hway.ended hk
    rw [Script.run_activity] at hended
    exact hended
  · rw [← @oneByOne_scripts lzma pieces]
    refine happ.serializable (fun k fp hfp => ?_) hnodup hall hacts hend
    obtain ⟨job, hjob, hin⟩ := hfp
    exact ⟨job, hjob, Job.changes_subset hin⟩

/-- Two clients, one that stores `a` and one that fetches `b`. -/
def twoScripts : Bool → Script
  | true => .asks
    (.stor (some "a") (procHost inOrderEnv.toEnv) ⟨some "bbbbbb", true, [], false⟩
      (Vector.replicate 4 0)) fun _ => .leaves
  | false => .asks (.retr (some "b") ⟨inOrderEnv.toEnv, inOrderEnv.toEnv, some "aaaaaa",
      some "bbbbbb", 0, 0⟩ true (Vector.replicate 4 0)) fun _ => .leaves

theorem not_looksTemp_of_length {f fp : Path} (h : fp.length ≤ f.length) :
    ¬ LooksTemp f fp := by
  rintro ⟨d, hd, rfl | rfl⟩
  · simp only [compressionName, String.length_append] at h
    omega
  · simp only [compressionName, String.length_append] at h
    omega

theorem twoScripts_asks {k : Bool} {job : Job} (h : (twoScripts k).Asks job) :
    job.filename = some (if k then "a" else "b") ∧ SixDigits job.compDigits ∧
      SixDigits job.encDigits := by
  cases k with
  | true =>
      rcases h with rfl | ⟨_, hnone⟩
      · exact ⟨rfl, sixDigits_some (by decide), sixDigits_some (by decide)⟩
      · cases hnone
  | false =>
      rcases h with rfl | ⟨_, hnone⟩
      · exact ⟨rfl, sixDigits_some (by decide), sixDigits_some (by decide)⟩
      · cases hnone

/-- Where the first one is served before the second, the files are as in the other
order. -/
theorem children_isolated_two : ∃ c,
    Acts ⟨fun k => (twoScripts k).activity .failing [0], oldFs⟩ c ∧
      (∀ k, ∃ replies, c.parties k = .ended replies) ∧
      c.cells =
        [false, true].foldl (fun fs k => ((twoScripts k).serve .failing fs).2) oldFs := by
  obtain ⟨c, hacts, _, hended, _⟩ := @acts_oneByOne _ _ _ _ _ [true, false] (by decide)
    (fun k => (twoScripts k).activity .failing [0]) oldFs
  have hall : ∀ k, ∃ replies, c.parties k = .ended replies := by
    intro k
    refine hended k ?_
    cases k <;> decide
  have hresult := children_isolated .failing [0] twoScripts oldFs
    (fun k job hjob => (twoScripts_asks hjob).2)
    (fun j k hne job job' hjob hjob' => ?_) c hacts
  · refine ⟨c, hacts, hall, hresult.2.2 [false, true] (by decide) (fun k => ?_) hall⟩
    cases k <;> decide
  · refine .inl fun f hf f' hf' => ?_
    rw [(twoScripts_asks hjob).1] at hf
    rw [(twoScripts_asks hjob').1] at hf'
    obtain rfl := Option.some.inj hf
    obtain rfl := Option.some.inj hf'
    cases j <;> cases k
    · exact absurd rfl hne
    · exact ⟨by decide, not_looksTemp_of_length (by decide),
        not_looksTemp_of_length (by decide)⟩
    · exact ⟨by decide, not_looksTemp_of_length (by decide),
        not_looksTemp_of_length (by decide)⟩
    · exact absurd rfl hne

end EcFtp
