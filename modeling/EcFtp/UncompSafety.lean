/-
`uncomp_file` on untrusted bytes: it always ends, and it keeps to its buffers
and returns a code unless a few bytes are left behind the last record, or a
record is written past its end.
-/
import EcFtp.UncompFile

namespace EcFtp

open Exec

/-- `uncomp_file` on a file that exists. -/
def uncompFileOf (lzma : Lzma) (env : Env) (c : FileData) :
    EStateM.Result Exit IoState PUnit :=
  uncompFile lzma env c.size (some c.bytes) .empty

/-- What the records of a file stand for, one after the other. -/
def plainOf (lzma : Lzma) (c : Bytes) : Bytes :=
  (records c).1.flatMap fun r => (r.plain lzma).getD []

/-- All bytes of the file are records that are written. -/
def AllUsable (lzma : Lzma) (c : Bytes) : Prop :=
  (∀ r ∈ (records c).1, r.Usable lzma) ∧ (records c).2 = []

/-- Records behind which a few bytes are left, or one of which is written past
its end. -/
def RunsAstray (lzma : Lzma) (c : Bytes) : Prop :=
  Strands lzma (records c).1 (records c).2 ∨
    OverRuns lzma (records c).1 (records c).2

section Returns

variable {lzma : Lzma} {env : Env} {c : FileData}

theorem empty_allBounded : OutIs [] AllBounded IoState.empty := by
  refine ⟨rfl, ?_⟩
  intro w hw
  cases hw

theorem fileOutcome_undefined_iff :
    uncompOutcome lzma (c.bytes.length + 1) c.bytes = .undefined ↔
      RunsAstray lzma c.bytes :=
  uncompOutcome_undefined_iff (Nat.lt_succ_self _)

theorem fileOutcome_of_usable (h : AllUsable lzma c.bytes) :
    uncompOutcome lzma (c.bytes.length + 1) c.bytes =
      .wrote (plainOf lzma c.bytes) := by
  obtain ⟨out, hout⟩ := (uncompOutcome_wrote_iff (Nat.lt_succ_self _)).mpr h
  rw [hout, uncompOutcome_eq_wrote (Nat.lt_succ_self _) hout]
  rfl

theorem fileOutcome_wrote {out : Bytes}
    (h : uncompOutcome lzma (c.bytes.length + 1) c.bytes = .wrote out) :
    AllUsable lzma c.bytes ∧ out = plainOf lzma c.bytes :=
  ⟨(uncompOutcome_wrote_iff (Nat.lt_succ_self _)).mp ⟨out, h⟩,
    uncompOutcome_eq_wrote (Nat.lt_succ_self _) h⟩

/-- The number of batches is bounded by the length of the file. -/
theorem uncompFileOf_not_outOfFuel (lzma : Lzma) (env : Env) (c : FileData)
    (s : IoState) : uncompFileOf lzma env c ≠ .error .outOfFuel s := by
  have hrun := (@triple_uncompFile lzma env c.bytes
    (fun e _ => e ≠ .outOfFuel) c.length_lt (fun _ _ => by simp)
    (fun _ _ => by simp) (fun _ _ => by simp)).run IoState.empty empty_allBounded
  intro hfuel
  rw [uncompFileOf] at hfuel
  rw [hfuel] at hrun
  exact hrun rfl

/-- Zero is returned only when every byte belongs to a record and every record
is written. -/
theorem uncompFileOf_zero
    (h : exitCode (uncompFileOf lzma env c) = some 0) :
    AllUsable lzma c.bytes ∧
      (finalState (uncompFileOf lzma env c)).out = plainOf lzma c.bytes := by
  have hrun := @triple_uncompFile lzma env c.bytes NonZero c.length_lt
    (fun _ => nonZero_ret) (fun _ => nonZero_ret) (fun _ => nonZero_undefined)
  obtain ⟨out, hout, hs, _⟩ :=
    exitCode_zero_imp hrun empty_allBounded (fun _ hs => hs rfl) h
  obtain ⟨husable, hplain⟩ := fileOutcome_wrote hout
  exact ⟨husable, hs.trans hplain⟩

/-- In an unfailing environment such files are written out. -/
theorem uncompFileOf_reliable (env : ReliableEnv)
    (h : AllUsable lzma c.bytes) :
    exitCode (uncompFileOf lzma env.toEnv c) = some 0 ∧
      (finalState (uncompFileOf lzma env.toEnv c)).out =
        plainOf lzma c.bytes := by
  have houtcome := fileOutcome_of_usable h
  have hrun := @triple_uncompFile lzma env.toEnv c.bytes (FaultOnly env.toEnv)
    c.length_lt faultOnly_ret
    (fun hout => by rw [houtcome] at hout; cases hout)
    (fun hout => by rw [houtcome] at hout; cases hout)
  obtain ⟨hcode, out, hout, hs, _⟩ :=
    exitCode_zero hrun empty_allBounded fun e s hs => env.not_faulty hs.2
  rw [houtcome] at hout
  cases hout
  exact ⟨hcode, hs⟩

/-- A run that has a meaning returns a code, and its writes are bounded. -/
theorem uncompFileOf_returns (h : ¬ RunsAstray lzma c.bytes) (env : Env) :
    (exitCode (uncompFileOf lzma env c) = some (-1) ∨
      exitCode (uncompFileOf lzma env c) = some 0 ∧
        AllBounded (finalState (uncompFileOf lzma env c)).writes) := by
  have hrun := (@triple_uncompFile lzma env c.bytes (fun e _ => e = .ret (-1))
    c.length_lt (fun _ _ => rfl) (fun _ _ => rfl)
    (fun hout => absurd (fileOutcome_undefined_iff.mp hout) h)).run IoState.empty
      empty_allBounded
  unfold uncompFileOf
  cases hres : uncompFile lzma env c.size (some c.bytes) IoState.empty with
  | ok a s =>
      rw [hres] at hrun
      obtain ⟨out, _, _, hbounded⟩ := hrun
      exact .inr ⟨rfl, hbounded⟩
  | error e s =>
      rw [hres] at hrun
      exact .inl (by rw [hrun]; rfl)

/-- A run that has none returns nothing in an unfailing environment. -/
theorem uncompFileOf_astray (h : RunsAstray lzma c.bytes) (env : ReliableEnv) :
    exitCode (uncompFileOf lzma env.toEnv c) = none := by
  have houtcome := fileOutcome_undefined_iff.mpr h
  have hrun := @triple_uncompFile lzma env.toEnv c.bytes
    (fun e _ => e = .undefined) c.length_lt
    (fun hfaulty => absurd hfaulty env.not_faulty)
    (fun hout => by rw [houtcome] at hout; cases hout) (fun _ _ => rfl)
  refine exitCode_none (hrun.post ?_) empty_allBounded
  rintro _ s ⟨out, hout, _⟩
  rw [houtcome] at hout
  cases hout

end Returns

/-- A run that hands `fwrite` no more than its blocks hold, or returns a nonzero
code. -/
def WritesBounded (r : EStateM.Result Exit IoState PUnit) : Prop :=
  (∃ code, code ≠ 0 ∧ exitCode r = some code) ∨
    exitCode r = some 0 ∧ AllBounded (finalState r).writes

/-- `uncomp_file` stays within its buffers exactly when its records do not lead
astray. -/
theorem uncompFile_writesBounded_iff (lzma : Lzma) (c : FileData) :
    (∀ env, WritesBounded (uncompFileOf lzma env c)) ↔
      ¬ RunsAstray lzma c.bytes := by
  constructor
  · intro hall hastray
    have hnone := uncompFileOf_astray hastray inOrderEnv
    rcases hall inOrderEnv.toEnv with ⟨code, _, hcode⟩ | ⟨hcode, _⟩
    · cases hnone.symm.trans hcode
    · cases hnone.symm.trans hcode
  · intro h env
    exact (uncompFileOf_returns h env).imp_left fun hcode => ⟨-1, by decide, hcode⟩

/-- A record as the format has it: one of the two flags, and the length its
header gives. -/
def Record.WellFormed (lzma : Lzma) (r : Record) : Prop :=
  r.header.compressed = 0 ∧ r.header.procSize = r.header.origSize ∨
    r.header.compressed = 1 ∧ ∃ plain, r.plain lzma = some plain ∧
      plain.length = r.header.origSize

/-- A file of records and nothing else. -/
def WellFormed (lzma : Lzma) (c : Bytes) : Prop :=
  (records c).2 = [] ∧ ∀ r ∈ (records c).1, r.WellFormed lzma

/-- `uncomp_file` returns, and zero only on well-formed input, exactly when its
records do not lead astray and are well formed where they are written. -/
theorem uncompFile_returns_iff (lzma : Lzma) (c : FileData) :
    (∀ env, ∃ code, exitCode (uncompFileOf lzma env c) = some code ∧
      (¬ WellFormed lzma c.bytes → code ≠ 0)) ↔
      ¬ RunsAstray lzma c.bytes ∧
        (AllUsable lzma c.bytes → WellFormed lzma c.bytes) := by
  constructor
  · intro hall
    constructor
    · intro hastray
      obtain ⟨code, hcode, _⟩ := hall inOrderEnv.toEnv
      cases (uncompFileOf_astray hastray inOrderEnv).symm.trans hcode
    · intro husable
      by_contra hbad
      obtain ⟨code, hcode, hne⟩ := hall inOrderEnv.toEnv
      obtain ⟨hzero, _⟩ := uncompFileOf_reliable inOrderEnv husable
      exact hne hbad (Option.some.inj (hcode.symm.trans hzero))
  · rintro ⟨hastray, hformed⟩ env
    rcases uncompFileOf_returns hastray env with hcode | ⟨hcode, _⟩
    · exact ⟨-1, hcode, fun _ => by decide⟩
    · refine ⟨0, hcode, fun hbad => absurd (hformed ?_) hbad⟩
      exact (uncompFileOf_zero hcode).1

/-- A library whose every call fails. -/
def Lzma.failing : Lzma where
  compress _ _ := none
  uncompress _ _ _ := none
  length_props h := nomatch h
  length_data h := nomatch h
  data_ne_nil h := nomatch h
  length_plain h := nomatch h

/-- A raw record of one byte that asks for two to be written. -/
def overReadRecord : Record where
  header := ⟨0, 2, 1⟩
  props := []
  data := [0]
  length_props := by decide
  length_data := by decide

/-- The file of this record. -/
def overReadFile : FileData where
  bytes := overReadRecord.bytes
  length_lt := by
    rw [length_recordBytes]
    decide

theorem uncompFile_overReads :
    ¬ WritesBounded (uncompFileOf .failing inOrderEnv.toEnv overReadFile) := by
  have hfits : overReadRecord.header.Fits := by
    refine ⟨.inl rfl, ?_, ?_⟩ <;> decide
  have hrecords : records overReadFile.bytes = ([overReadRecord], []) := by
    have hbytes : overReadFile.bytes = [overReadRecord].flatMap Record.bytes := by
      rw [List.flatMap_singleton]
      rfl
    rw [hbytes]
    exact records_bytes (List.forall_mem_singleton.mpr hfits)
  have hastray : RunsAstray .failing overReadFile.bytes := by
    rw [RunsAstray, hrecords]
    refine .inr ⟨[], overReadRecord, [], rfl, by simp, by decide, by simp, ?_⟩
    exact .inr (by decide)
  have hnone := uncompFileOf_astray hastray inOrderEnv
  rintro (⟨code, _, hcode⟩ | ⟨hcode, _⟩)
  · cases hnone.symm.trans hcode
  · cases hnone.symm.trans hcode

/-- A file of a single byte leaves the first batch without a thread. -/
theorem uncompFile_noThread_zeros :
    ¬ ∃ code, exitCode (uncompFileOf .failing inOrderEnv.toEnv
        (.zeros 1 (by decide))) = some code ∧
      (¬ WellFormed .failing (FileData.zeros 1 (by decide)).bytes → code ≠ 0) := by
  have hrecords : records (FileData.zeros 1 (by decide)).bytes = ([], [0]) := by
    apply records_of_none
    rw [parseRecord_eq_none]
    exact fun hfit => absurd hfit.1 (by decide)
  have hastray : RunsAstray .failing (FileData.zeros 1 (by decide)).bytes := by
    rw [RunsAstray, hrecords]
    exact .inl ⟨by simp, by simp, by decide⟩
  rintro ⟨code, hcode, _⟩
  cases (uncompFileOf_astray hastray inOrderEnv).symm.trans hcode

end EcFtp
