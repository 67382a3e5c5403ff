/-
`uncomp_file` on any bytes.  Each batch reads as many headers as it has
threads, or stops at the end of the file; the run ends as the outcome of the
records says, unless a library call fails.
-/
import EcFtp.UncompBatch

namespace EcFtp

open ByteStrings Exec

section Headers

variable {data : Bytes} {pos : Nat}

/-- A field of the header is read, or the file ends before it, or the read
fails. -/
theorem readField_cases (fails : Bool) {size : Nat} (hsize : 0 < size)
    (hpos : pos ≤ data.length) :
    pos + size ≤ data.length ∧ readField fails size ⟨data, pos, false⟩ =
        (some (slice data pos size), ⟨data, pos + size, false⟩) ∨
      data.length < pos + size ∧ readField fails size ⟨data, pos, false⟩ =
        (none, ⟨data, data.length, true⟩) ∨
      fails = true ∧ readField fails size ⟨data, pos, false⟩ =
        (none, ⟨data, pos, false⟩) := by
  cases fails with
  | true =>
      right
      right
      simp [readField, Nat.ne_of_lt hsize]
  | false =>
      by_cases hfit : pos + size ≤ data.length
      · left
        have hlen := length_slice_of_le hfit
        simp [readField, FILE.read, hlen, hfit]
      · right
        left
        have hlen : (slice data pos size).length = data.length - pos := by
          rw [length_slice]
          omega
        have hshort : ¬ data.length - pos = size := by omega
        have hlt : data.length - pos < size := by omega
        have hend : pos + (data.length - pos) = data.length := by omega
        refine ⟨by omega, ?_⟩
        simp [readField, FILE.read, hlen, hshort, hlt, hend]

/-- A header is read, or the file ends within it, or a read fails before the
end of the file was seen. -/
theorem readEcHeader_cases (fails : Nat → Bool) (hpos : pos ≤ data.length) :
    pos + ecHeaderSize ≤ data.length ∧ readEcHeader fails ⟨data, pos, false⟩ =
        (.ok (parseHeader (data.drop pos)), ⟨data, pos + ecHeaderSize, false⟩) ∨
      data.length < pos + ecHeaderSize ∧ (∃ code,
        readEcHeader fails ⟨data, pos, false⟩ =
          (.error code, ⟨data, data.length, true⟩)) ∨
      (∃ field, fails field = true) ∧ ∃ code pos',
        readEcHeader fails ⟨data, pos, false⟩ =
          (.error code, ⟨data, pos', false⟩) := by
  unfold ecHeaderSize
  rcases @readField_cases data pos (fails 0) 1 (by decide) hpos with
    ⟨hfit, h0⟩ | ⟨hend, h0⟩ | ⟨hfails, h0⟩
  · rcases @readField_cases data (pos + 1) (fails 1) 8 (by decide) hfit with
      ⟨hfit, h1⟩ | ⟨hend, h1⟩ | ⟨hfails, h1⟩
    · rcases @readField_cases data (pos + 1 + 8) (fails 2) 8 (by decide) hfit with
        ⟨hfit, h2⟩ | ⟨hend, h2⟩ | ⟨hfails, h2⟩
      · left
        refine ⟨by omega, ?_⟩
        simp only [readEcHeader, h0, h1, h2, parseHeader, slice_drop]
        rfl
      · right
        left
        exact ⟨by omega, -3, by simp only [readEcHeader, h0, h1, h2]⟩
      · right
        right
        exact ⟨⟨2, hfails⟩, -3, pos + 1 + 8, by simp only [readEcHeader, h0, h1, h2]⟩
    · right
      left
      exact ⟨by omega, -2, by simp only [readEcHeader, h0, h1]⟩
    · right
      right
      exact ⟨⟨1, hfails⟩, -2, pos + 1, by simp only [readEcHeader, h0, h1]⟩
  · right
    left
    exact ⟨by omega, -1, by simp only [readEcHeader, h0]⟩
  · right
    right
    exact ⟨⟨0, hfails⟩, -1, pos, by simp only [readEcHeader, h0]⟩

/-- At the end of the file no header is read. -/
theorem readEcHeader_end (fails : Nat → Bool) :
    readEcHeader fails ⟨data, data.length, true⟩ =
      (.error (-1), ⟨data, data.length, true⟩) := by
  have hread : readField (fails 0) 1 ⟨data, data.length, true⟩ =
      (none, ⟨data, data.length, true⟩) := by
    cases fails 0 <;> simp [readField, FILE.read, slice]
  simp only [readEcHeader, hread]

end Headers

section Scan

variable {env : Env} {data : Bytes} {b t pos : Nat} {E : Exit → IoState → Prop}
  {P : IoState → Prop}

/-- Where the loop stands before the header at `pos`. -/
def scanState (data : Bytes) (pos : Nat) : UncompState where
  inFile := ⟨data, pos, false⟩
  bytesLeft := data.length - pos
  curPos := pos

/-- Where the loop stands once the end of the file was met in the header at
`pos`. -/
def scanEnd (data : Bytes) (pos : Nat) : UncompState :=
  { scanState data pos with inFile := ⟨data, data.length, true⟩ }

theorem toOffT_eq {z : Int} (hlow : -2 ^ 63 ≤ z) (hhigh : z < 2 ^ 63) :
    toOffT z = z := by
  unfold toOffT
  exact Int.bmod_eq_of_le (by omega) (by omega)

theorem advance_scanState (hn : data.length < 2 ^ 63) (f : FILE) {len : Nat}
    (hfit : pos + len ≤ data.length) :
    UncompState.advance { scanState data pos with inFile := f } len =
      { scanState data (pos + len) with inFile := f } := by
  have hleft : toOffT ((data.length : Int) - pos - len) =
      data.length - (pos + len : Nat) := by
    rw [toOffT_eq (by omega) (by omega)]
    omega
  have hcur : toOffT ((pos : Int) + len) = (pos + len : Nat) := by
    rw [toOffT_eq (by omega) (by omega)]
    omega
  simp only [UncompState.advance, scanState, hleft, hcur]

theorem triple_mallocPlain (hfault : env.Faulty → ∀ s, E (.ret (-1)) s)
    (h : EcHeader) :
    Triple P (mallocPlain env b t h)
      (fun buf s => buf = (if h.isCompressed then some (malloc h.origSize)
        else none) ∧ P s) E := by
  unfold mallocPlain
  apply Triple.ite
  · intro hcomp
    refine Triple.bind (triple_call hfault _) fun _ => ?_
    exact Triple.pure fun s hs => ⟨by rw [if_pos hcomp], hs⟩
  · intro hraw
    exact Triple.pure fun s hs => ⟨by rw [if_neg hraw], hs⟩

theorem triple_afterSeek (hfault : env.Faulty → ∀ s, E (.ret (-1)) s)
    (h : EcHeader) (s : UncompState) (f : FILE) :
    Triple P (afterSeek env b t h s (0, f))
      (fun s' st => s' = UncompState.advance { s with inFile := f } h.procSize ∧
        P st) E := by
  unfold afterSeek
  refine Triple.bind (R := fun _ => P) ?_ fun _ =>
    Triple.pure fun _ hs => ⟨rfl, hs⟩
  refine Triple.exitIf (fun hfails s _ => ?_) fun _ s hs => hs
  exact hfault ⟨_, by simpa using hfails⟩ s

/-- Seeking to the next header may be refused; what it leaves is open. -/
theorem triple_seekNext_any (hret : ∀ s, E (.ret (-1)) s) (h : EcHeader)
    (s : UncompState) :
    Triple P (seekNext env b t h s) (fun _ => P) E := by
  unfold seekNext
  generalize FILE.seekCur s.inFile (toOffT h.bodySize) = sought
  exact Triple.bind (triple_returnIf fun _ => hret) fun _ => Triple.pure fun _ hs => hs.2

theorem triple_seekNext (hn : data.length < 2 ^ 63)
    (hfault : env.Faulty → ∀ s, E (.ret (-1)) s) (h : EcHeader)
    (hfit : pos + h.bodySize ≤ data.length) :
    Triple P (seekNext env b t h (scanState data pos))
      (fun s' s => s' = scanState data (pos + h.bodySize) ∧ P s) E := by
  have hbody : h.bodySize = h.numPropsBytes + h.procSize := rfl
  have hseek : FILE.seekCur ⟨data, pos, false⟩ (toOffT h.bodySize) =
      (0, ⟨data, pos + h.bodySize, false⟩) := by
    rw [toOffT_eq (by omega) (by omega), FILE.seekCur, if_neg]
    · rfl
    · change ¬ ((pos : Int) + h.bodySize < 0 ∨ 2 ^ 63 ≤ (pos : Int) + h.bodySize)
      omega
  have hfirst := @advance_scanState data pos hn ⟨data, pos, false⟩
    h.numPropsBytes (by omega)
  have hsecond := @advance_scanState data (pos + h.numPropsBytes) hn
    ⟨data, pos + h.bodySize, false⟩ h.procSize (by omega)
  rw [Nat.add_assoc, ← hbody] at hsecond
  have hstart : scanState data pos =
      { scanState data pos with inFile := ⟨data, pos, false⟩ } := rfl
  rw [seekNext, hstart, hfirst, hseek]
  refine (triple_afterSeek hfault h _ _).post ?_
  rintro s' s ⟨rfl, hs⟩
  exact ⟨hsecond, hs⟩

/-- The slot of a header, with its reader behind it; `S` is what seeking to the next one
leaves. -/
theorem triple_setUncompArgs_of {S : UncompState → Prop} {h : EcHeader} {s : UncompState}
    (hP : LogFree P) (hfault : env.Faulty → ∀ s, E (.ret (-1)) s)
    (hseek : Triple P (seekNext env b t h (s.advance ecHeaderSize))
      (fun s' st => S s' ∧ P st) E) :
    Triple P (setUncompArgs env data b t h s)
      (fun res st => (env.fails (.mallocInbuf b t h.procSize) = false ∧
        res.1 =
          uncompSlot h ((FILE.ofData data).seekSet (s.advance ecHeaderSize).curPos) ∧
        S res.2) ∧ P st) E := by
  unfold setUncompArgs
  refine Triple.bind (triple_openReader hP hfault _) fun f => ?_
  refine Triple.assume fun hf => ?_
  refine Triple.bind (triple_call hfault _) fun _ => ?_
  refine Triple.bind (triple_returnIf fun hfails => hfault ⟨_, hfails⟩) fun _ => ?_
  refine Triple.assume fun hmalloc => ?_
  refine Triple.bind (triple_mallocPlain hfault h) fun buf => ?_
  refine Triple.assume fun hbuf => ?_
  refine Triple.bind hseek fun s' => ?_
  refine Triple.assume fun hs' => Triple.pure fun st hs => ⟨⟨hmalloc, ?_, hs'⟩, hs⟩
  rw [hf, hbuf]
  rfl

/-- The slot for the header at `pos`, and the state before the next one. -/
theorem triple_setUncompArgs (hn : data.length < 2 ^ 63) (hP : LogFree P)
    (hfault : env.Faulty → ∀ s, E (.ret (-1)) s) (h : EcHeader)
    (hfit : pos + (ecHeaderSize + h.bodySize) ≤ data.length) :
    Triple P (setUncompArgs env data b t h
        { scanState data pos with inFile := ⟨data, pos + ecHeaderSize, false⟩ })
      (fun res s => res = (uncompSlot h ⟨data, pos + ecHeaderSize, false⟩,
        scanState data (pos + (ecHeaderSize + h.bodySize))) ∧ P s) E := by
  have hstart := @advance_scanState data pos hn ⟨data, pos + ecHeaderSize, false⟩
    ecHeaderSize (by omega)
  have hstate : ({ scanState data (pos + ecHeaderSize) with
      inFile := ⟨data, pos + ecHeaderSize, false⟩ } : UncompState) =
      scanState data (pos + ecHeaderSize) := rfl
  have hreader := seekSet_of_nat data (pos + ecHeaderSize)
  rw [hstate] at hstart
  have hseek :=
    @triple_seekNext env data b t (pos + ecHeaderSize) E P hn hfault h (by omega)
  rw [← hstart] at hseek
  refine (triple_setUncompArgs_of hP hfault hseek).post ?_
  rintro ⟨arg, s'⟩ s ⟨⟨_, harg, hs'⟩, hs⟩
  rw [hstart] at harg
  rw [Nat.add_assoc] at hs'
  exact ⟨Prod.ext (harg.trans (congrArg _ hreader)) hs', hs⟩

/-- Whatever the header asks for, the slot is one, with its reader behind the
header. -/
theorem triple_setUncompArgs_any (hP : LogFree P)
    (hret : ∀ s, E (.ret (-1)) s) (h : EcHeader) (s : UncompState) :
    Triple P (setUncompArgs env data b t h s)
      (fun res st => res.1 = uncompSlot h
        ((FILE.ofData data).seekSet (s.advance ecHeaderSize).curPos) ∧ P st)
      E := by
  have hseek := (@triple_seekNext_any env b t E P hret h (s.advance ecHeaderSize)).post
    fun _ _ hs => And.intro trivial hs
  exact (triple_setUncompArgs_of hP (fun _ => hret) hseek).post
    fun _ _ hres => ⟨hres.1.2.1, hres.2⟩

/-- What the rest of a batch reads once a header asked for too much. -/
theorem triple_setUncompThreads_any (hP : LogFree P)
    (hret : ∀ s, E (.ret (-1)) s) (k t : Nat) (s : UncompState) :
    Triple P (setUncompThreads env data b k t s)
      (fun res st => (∀ arg ∈ res.1, IsSlot arg) ∧ P st) E := by
  induction k generalizing t s with
  | zero => exact Triple.pure fun st hs => ⟨by simp, hs⟩
  | succ k ih =>
      unfold setUncompThreads
      rcases readEcHeader (fun field => env.fails (.freadHeader b t field))
        s.inFile with ⟨_ | h, inFile⟩
      · apply Triple.ite
        · intro _
          exact Triple.pure fun st hs => ⟨by simp, hs⟩
        · intro _
          exact Triple.throw fun st _ => hret st
      · refine Triple.bind (triple_setUncompArgs_any hP hret h _) fun first => ?_
        refine Triple.assume fun hfirst => ?_
        refine Triple.bind (ih _ _) fun rest => ?_
        refine Triple.assume fun hrest => ?_
        refine Triple.pure fun st hs => ⟨?_, hs⟩
        intro arg harg
        rcases List.mem_cons.mp harg with rfl | hmem
        · exact ⟨h, _, hfirst⟩
        · exact hrest arg hmem

/-- The slots of the first `k` records behind `pos`, and the state they leave:
before the next header, or at the end of the file. -/
def ScannedWell (data : Bytes) (k pos : Nat)
    (res : List CompThreadArgs × UncompState) : Prop :=
  SlotsOf data res.1 (takeRecords k (data.drop pos)).1 ∧
    ((takeRecords k (data.drop pos)).1.length = k ∧ res.2 =
        scanState data (data.length - (takeRecords k (data.drop pos)).2.length) ∨
      (takeRecords k (data.drop pos)).1.length < k ∧
        (takeRecords k (data.drop pos)).2.length < ecHeaderSize ∧ res.2 =
        scanEnd data (data.length - (takeRecords k (data.drop pos)).2.length))

/-- A header behind the records asks for more than the file holds. -/
def Overshoots (data : Bytes) (k pos : Nat) : Prop :=
  (takeRecords k (data.drop pos)).1.length < k ∧
    ecHeaderSize ≤ (takeRecords k (data.drop pos)).2.length

/-- Its slot is among those of the batch. -/
def ScannedShort (data : Bytes) (res : List CompThreadArgs × UncompState) :
    Prop :=
  (∀ arg ∈ res.1, IsSlot arg) ∧ ∃ arg ∈ res.1, ReadsShort data arg

theorem readsRecord_firstRecord (hfit : HoldsRecord (data.drop pos)) :
    ReadsRecord data (uncompSlot (parseHeader (data.drop pos))
      ⟨data, pos + ecHeaderSize, false⟩) (firstRecord (data.drop pos) hfit) := by
  refine ⟨pos + ecHeaderSize, ?_, ?_, ?_⟩
  · rw [firstRecord_header]
  · rw [firstRecord_header, firstRecord_props, slice_drop]
  · rw [firstRecord_header, firstRecord_data, slice_drop, Nat.add_assoc]

theorem fit_of_holdsRecord (hfit : HoldsRecord (data.drop pos)) :
    pos + (ecHeaderSize + (parseHeader (data.drop pos)).bodySize) ≤
      data.length := by
  have hle := hfit.2
  rw [List.length_drop] at hle
  unfold ecHeaderSize at hle ⊢
  omega

/-- The record at `pos` and the records behind it. -/
theorem takeRecords_drop_succ (hfit : HoldsRecord (data.drop pos)) (k : Nat) :
    takeRecords (k + 1) (data.drop pos) =
      (firstRecord (data.drop pos) hfit :: (takeRecords k (data.drop (pos +
          (ecHeaderSize + (parseHeader (data.drop pos)).bodySize)))).1,
        (takeRecords k (data.drop (pos +
          (ecHeaderSize + (parseHeader (data.drop pos)).bodySize)))).2) := by
  have hparse : parseRecord (data.drop pos) =
      some (firstRecord (data.drop pos) hfit, data.drop (pos +
        (ecHeaderSize + (parseHeader (data.drop pos)).bodySize))) := by
    rw [parseRecord, dif_pos hfit, List.drop_drop]
  exact takeRecords_succ hparse k

theorem takeRecords_drop_of_not (hfit : ¬ HoldsRecord (data.drop pos))
    (k : Nat) : takeRecords k (data.drop pos) = ([], data.drop pos) :=
  takeRecords_of_none (parseRecord_eq_none.mpr hfit) k

theorem scannedWell_succ (hfit : HoldsRecord (data.drop pos)) {k : Nat}
    {args : List CompThreadArgs} {s : UncompState}
    (h : ScannedWell data k (pos + (ecHeaderSize +
      (parseHeader (data.drop pos)).bodySize)) (args, s)) :
    ScannedWell data (k + 1) pos
      (uncompSlot (parseHeader (data.drop pos))
        ⟨data, pos + ecHeaderSize, false⟩ :: args, s) := by
  obtain ⟨hslots, hstate⟩ := h
  unfold ScannedWell
  rw [takeRecords_drop_succ hfit k]
  refine ⟨List.Forall₂.cons (readsRecord_firstRecord hfit) hslots, ?_⟩
  rcases hstate with ⟨hall, hs⟩ | ⟨hshort, hrest, hs⟩
  · exact .inl ⟨by rw [List.length_cons, hall], hs⟩
  · exact .inr ⟨by rw [List.length_cons]; exact Nat.succ_lt_succ hshort, hrest, hs⟩

theorem overshoots_succ (hfit : HoldsRecord (data.drop pos)) {k : Nat} :
    Overshoots data (k + 1) pos ↔ Overshoots data k (pos + (ecHeaderSize +
      (parseHeader (data.drop pos)).bodySize)) := by
  unfold Overshoots
  rw [takeRecords_drop_succ hfit k]
  simp

theorem readsShort_of_not_holdsRecord (hfit : ¬ HoldsRecord (data.drop pos))
    (hheader : pos + ecHeaderSize ≤ data.length) {arg : CompThreadArgs}
    (harg : arg = uncompSlot (parseHeader (data.drop pos))
      ((FILE.ofData data).seekSet ((pos + ecHeaderSize : Nat) : Int))) :
    ReadsShort data arg := by
  rw [seekSet_of_nat] at harg
  refine ⟨_, pos + ecHeaderSize, harg, ?_, hheader⟩
  by_contra hle
  refine hfit ⟨?_, ?_⟩
  · rw [List.length_drop]
    omega
  · rw [List.length_drop]
    omega

theorem scannedWell_zero (hpos : pos ≤ data.length) :
    ScannedWell data 0 pos ([], scanState data pos) := by
  refine ⟨List.Forall₂.nil, .inl ⟨rfl, ?_⟩⟩
  rw [takeRecords, List.length_drop, Nat.sub_sub_self hpos]

/-- The file ends within the header at `pos`, or before it. -/
theorem scannedWell_end (hpos : pos ≤ data.length)
    (hend : data.length < pos + ecHeaderSize)
    (k : Nat) : ScannedWell data (k + 1) pos ([], scanEnd data pos) := by
  have hnone : ¬ HoldsRecord (data.drop pos) := by
    intro hfit
    have hle := hfit.1
    rw [List.length_drop] at hle
    omega
  unfold ScannedWell
  rw [takeRecords_drop_of_not hnone]
  refine ⟨List.Forall₂.nil, .inr ⟨Nat.succ_pos k, ?_, ?_⟩⟩
  · rw [List.length_drop]
    omega
  · rw [List.length_drop, Nat.sub_sub_self hpos]

/-- A header, and less than the record it announces. -/
theorem overshoots_of_header (hfit : ¬ HoldsRecord (data.drop pos))
    (hheader : pos + ecHeaderSize ≤ data.length) (k : Nat) :
    Overshoots data (k + 1) pos := by
  unfold Overshoots
  rw [takeRecords_drop_of_not hfit]
  refine ⟨Nat.succ_pos k, ?_⟩
  rw [List.length_drop]
  omega

/-- The first stage of one batch. -/
theorem triple_setUncompThreads (hn : data.length < 2 ^ 63) (hP : LogFree P)
    (hfault : env.Faulty → ∀ s, E (.ret (-1)) s) (k t : Nat)
    (hpos : pos ≤ data.length)
    (hover : Overshoots data k pos → ∀ s, E (.ret (-1)) s) :
    Triple P (setUncompThreads env data b k t (scanState data pos))
      (fun res s => (ScannedWell data k pos res ∨
        Overshoots data k pos ∧ ScannedShort data res) ∧ P s) E := by
  induction k generalizing t pos with
  | zero => exact Triple.pure fun s hs => ⟨.inl (scannedWell_zero hpos), hs⟩
  | succ k ih =>
      have hfile : (scanState data pos).inFile = ⟨data, pos, false⟩ := rfl
      unfold setUncompThreads
      rw [hfile]
      rcases readEcHeader_cases
        (fun field => env.fails (.freadHeader b t field)) hpos with
        ⟨hheader, hread⟩ | ⟨hend, code, hread⟩ | ⟨⟨field, hfails⟩, code, pos', hread⟩
      · rw [hread]
        by_cases hfit : HoldsRecord (data.drop pos)
        · have hend := fit_of_holdsRecord hfit
          refine Triple.bind (triple_setUncompArgs hn hP hfault _ hend)
            fun first => ?_
          refine Triple.assume fun hfirst => ?_
          subst hfirst
          refine Triple.bind (ih (t + 1) hend fun hshort =>
            hover ((overshoots_succ hfit).mpr hshort)) fun rest => ?_
          refine Triple.assume fun hrest => Triple.pure fun s hs => ⟨?_, hs⟩
          rcases hrest with hwell | ⟨hshort, hslots, short, hmem, hread⟩
          · exact .inl (scannedWell_succ hfit hwell)
          · refine .inr ⟨(overshoots_succ hfit).mpr hshort, ?_, short,
              List.mem_cons_of_mem _ hmem, hread⟩
            exact List.forall_mem_cons.mpr ⟨⟨_, _, rfl⟩, hslots⟩
        · have hshort := overshoots_of_header hfit hheader k
          have hret := hover hshort
          have hadvance := @advance_scanState data pos hn
            ⟨data, pos + ecHeaderSize, false⟩ ecHeaderSize (by omega)
          refine Triple.bind (triple_setUncompArgs_any hP hret _ _) fun first => ?_
          refine Triple.assume fun hfirst => ?_
          refine Triple.bind (triple_setUncompThreads_any hP hret k (t + 1) _)
            fun rest => ?_
          refine Triple.assume fun hrest => Triple.pure fun s hs => ⟨?_, hs⟩
          rw [hadvance] at hfirst
          refine .inr ⟨hshort, List.forall_mem_cons.mpr ⟨⟨_, _, hfirst⟩, hrest⟩,
            first.1, List.mem_cons_self, ?_⟩
          exact readsShort_of_not_holdsRecord hfit hheader hfirst
      · rw [hread]
        exact Triple.pure fun s hs => ⟨.inl (scannedWell_end hpos hend k), hs⟩
      · rw [hread]
        exact Triple.throw fun s _ => hfault ⟨_, hfails⟩ s

theorem takeRecords_suffix (k : Nat) (bs : Bytes) :
    (takeRecords k bs).2 <:+ bs := by
  induction k generalizing bs with
  | zero => exact List.suffix_refl bs
  | succ k ih =>
      cases hparse : parseRecord bs with
      | none =>
          rw [takeRecords_of_none hparse]
      | some parsed =>
          obtain ⟨r, rest⟩ := parsed
          obtain ⟨_, _, hrest⟩ := parseRecord_eq_some hparse
          rw [takeRecords_succ hparse]
          exact (ih rest).trans (hrest ▸ List.drop_suffix _ bs)

theorem drop_takeRecords (k : Nat) : data.drop
    (data.length - (takeRecords k (data.drop pos)).2.length) =
      (takeRecords k (data.drop pos)).2 :=
  (List.suffix_iff_eq_drop.mp ((takeRecords_suffix k _).trans
    (List.drop_suffix pos data))).symm

end Scan

section Loop

variable {lzma : Lzma} {env : Env} {data : Bytes} {E : Exit → IoState → Prop}

/-- At the end of the file a batch has no thread. -/
theorem triple_uncompBatch_end (hundef : ∀ s, E .undefined s) {b pos : Nat}
    {P : IoState → Prop} {Q : PUnit → IoState → Prop} (fuel : Nat)
    (hpos : pos < data.length) :
    Triple P (uncompLoop lzma env data (fuel + 1) b (scanEnd data pos)) Q E := by
  have hleft : 0 < (scanEnd data pos).bytesLeft := by
    change 0 < (data.length : Int) - pos
    omega
  have hfile : (scanEnd data pos).inFile = ⟨data, data.length, true⟩ := rfl
  have hthreads : compPlan.maxThreads = 7 + 1 := rfl
  have hscan : setUncompThreads env data b compPlan.maxThreads 0
      (scanEnd data pos) = pure ([], scanEnd data pos) := by
    rw [hthreads, setUncompThreads, hfile, readEcHeader_end]
    rfl
  rw [uncompLoop, if_pos hleft, hscan]
  refine Triple.bind (R := fun res _ => res = ([], scanEnd data pos))
    (Triple.pure fun _ _ => rfl) fun res => ?_
  refine Triple.of_pre fun s hres => ?_
  subst hres
  exact Triple.bind_stop (Triple.throw fun s _ => hundef s)

/-- The loop goes on as the outcome of the bytes from `pos` on says. -/
def LoopEnds (lzma : Lzma) (data : Bytes) (E : Exit → IoState → Prop)
    (fuel pos : Nat) (o : Bytes) (loop : Prog PUnit) : Prop :=
  (uncompOutcome lzma fuel (data.drop pos) = .refused →
      ∀ s, E (.ret (-1)) s) →
    (uncompOutcome lzma fuel (data.drop pos) = .undefined →
      ∀ s, E .undefined s) →
    Triple (OutIs o AllBounded) loop
      (fun _ s => ∃ out,
        uncompOutcome lzma fuel (data.drop pos) = .wrote out ∧
          OutIs (o ++ out) AllBounded s) E

theorem loopEnds_all {fuel b : Nat} {s : UncompState} (hleft : s.bytesLeft = 0)
    (o : Bytes) : LoopEnds lzma data E (fuel + 1) data.length o
      (uncompLoop lzma env data (fuel + 1) b s) := by
  intro _ _
  rw [uncompLoop, if_neg (by omega)]
  refine Triple.pure fun s hs => ⟨[], ?_, ?_⟩
  · rw [List.drop_length]
    rfl
  · rw [List.append_nil]
    exact hs

theorem loopEnds_end {fuel b pos : Nat} (hpos : pos ≤ data.length)
    (hrest : (data.drop pos).length < ecHeaderSize) (o : Bytes) :
    LoopEnds lzma data E (fuel + 1) pos o
      (uncompLoop lzma env data (fuel + 1) b (scanEnd data pos)) := by
  by_cases hall : pos = data.length
  · subst hall
    exact loopEnds_all (Int.sub_self _) o
  · intro _ hundef
    have hne : data.drop pos ≠ [] := by
      apply List.length_pos_iff.mp
      rw [List.length_drop]
      omega
    refine triple_uncompBatch_end (hundef ?_) fuel (by omega)
    rw [uncompOutcome_of_short hrest, if_neg hne]

/-- A batch with records: the loop goes on behind them. -/
theorem triple_uncompBatch {fuel b pos : Nat} {o : Bytes}
    {args : List CompThreadArgs} {loop : Prog PUnit}
    (hslots : SlotsOf data args
      (takeRecords compPlan.maxThreads (data.drop pos)).1)
    (hne : (takeRecords compPlan.maxThreads (data.drop pos)).1 ≠ [])
    (hbatch : (takeRecords compPlan.maxThreads (data.drop pos)).1.length =
        compPlan.maxThreads ∨
      (takeRecords compPlan.maxThreads (data.drop pos)).2.length < ecHeaderSize)
    (hfault : env.Faulty → ∀ s, E (.ret (-1)) s)
    (hloop : ∀ o, LoopEnds lzma data E fuel (data.length -
      (takeRecords compPlan.maxThreads (data.drop pos)).2.length) o loop) :
    LoopEnds lzma data E (fuel + 1) pos o
      (do runUncompThreads lzma env b args; loop) := by
  have houtcome := @uncompOutcome_succ lzma fuel _ hbatch hne
  unfold LoopEnds at hloop ⊢
  rw [drop_takeRecords] at hloop
  rw [houtcome]
  intro hrefused hundef
  refine Triple.bind (triple_runUncompThreads hslots hne hfault
    (fun hout => hrefused ?_) fun hout => hundef ?_) fun _ => ?_
  · rw [hout]
    rfl
  · rw [hout]
    rfl
  refine Triple.exists fun out => Triple.assume fun hout => ?_
  rw [hout] at hrefused hundef ⊢
  refine (hloop (o ++ out) (fun hmore => hrefused ?_) fun hmore => hundef ?_).post
    ?_
  · rw [hmore]
    rfl
  · rw [hmore]
    rfl
  · rintro _ s ⟨more, hmore, hs⟩
    refine ⟨out ++ more, ?_, ?_⟩
    · rw [hmore]
      rfl
    · rw [← List.append_assoc]
      exact hs

/-- A batch without a record has no thread. -/
theorem ScannedWell.noRecord {fuel pos : Nat} {res : List CompThreadArgs × UncompState}
    (h : ScannedWell data compPlan.maxThreads pos res) (hbs : data.drop pos ≠ [])
    (hnil : (takeRecords compPlan.maxThreads (data.drop pos)).1 = []) :
    res.1 = [] ∧ uncompOutcome lzma (fuel + 1) (data.drop pos) = .undefined := by
  obtain ⟨hslots, hstate⟩ := h
  unfold SlotsOf at hslots
  rw [hnil] at hslots hstate
  refine ⟨List.forall₂_nil_right_iff.mp hslots, ?_⟩
  rcases hstate with ⟨hfull, _⟩ | ⟨_, hrest, _⟩
  · cases hfull
  · rw [takeRecords_of_nil (by decide) hnil] at hrest
    rw [uncompOutcome_of_short hrest, if_neg hbs]

/-- The loop of `uncomp_file` ends as the outcome of the bytes says. -/
theorem loopEnds_scanState (hn : data.length < 2 ^ 63)
    (hfault : env.Faulty → ∀ s, E (.ret (-1)) s) {fuel b pos : Nat}
    (hpos : pos ≤ data.length) (hfuel : data.length - pos < fuel) (o : Bytes) :
    LoopEnds lzma data E fuel pos o
      (uncompLoop lzma env data fuel b (scanState data pos)) := by
  induction fuel generalizing b pos o with
  | zero => omega
  | succ fuel ih =>
      by_cases hall : pos = data.length
      · subst hall
        exact loopEnds_all (Int.sub_self _) o
      · have hleft : 0 < (scanState data pos).bytesLeft := by
          change 0 < (data.length : Int) - pos
          omega
        have hbs : data.drop pos ≠ [] := by
          apply List.length_pos_iff.mp
          rw [List.length_drop]
          omega
        intro hrefused hundef
        have hover : Overshoots data compPlan.maxThreads pos →
            ∀ s, E (.ret (-1)) s := by
          intro hshort
          exact hrefused (uncompOutcome_cut hshort.1 hshort.2)
        rw [uncompLoop, if_pos hleft]
        refine Triple.bind (triple_setUncompThreads hn logFree_outIs hfault _ 0
          hpos hover) fun res => ?_
        refine Triple.assume fun hres => ?_
        obtain ⟨args, next⟩ := res
        dsimp only at hres ⊢
        rcases hres with hwell | ⟨hshort, hslots, hread⟩
        · by_cases hnil :
            (takeRecords compPlan.maxThreads (data.drop pos)).1 = []
          · obtain ⟨hargs, hnone⟩ := hwell.noRecord hbs hnil
            have hargs : args = [] := hargs
            rw [hargs]
            exact Triple.bind_stop (Triple.throw fun s _ => hundef hnone s)
          · obtain ⟨hslots, hstate⟩ := hwell
            have hlen := length_takeRecords compPlan.maxThreads (data.drop pos)
            have hpositive := List.length_pos_iff.mpr hnil
            rw [List.length_drop] at hlen
            unfold ecHeaderSize at hlen
            refine triple_uncompBatch hslots hnil
              (hstate.imp And.left fun hend => hend.2.1) hfault (fun o => ?_)
              hrefused hundef
            rcases hstate with ⟨_, hs⟩ | ⟨_, hrest, hs⟩
            · have hs : next = _ := hs
              rw [hs]
              exact ih (Nat.sub_le _ _) (by omega) o
            · obtain ⟨more, rfl⟩ : ∃ more, fuel = more + 1 :=
                ⟨fuel - 1, by omega⟩
              have hs : next = _ := hs
              rw [hs]
              refine loopEnds_end (Nat.sub_le _ _) ?_ o
              rw [drop_takeRecords]
              exact hrest
        · exact Triple.bind_stop (triple_runUncompThreads_short logFree_outIs
            hslots hread (hover hshort))

/-- `uncomp_file` ends as the outcome of the bytes says. -/
theorem triple_uncompFile (hn : data.length < 2 ^ 63)
    (hfault : env.Faulty → ∀ s, E (.ret (-1)) s)
    (hrefused : uncompOutcome lzma (data.length + 1) data = .refused →
      ∀ s, E (.ret (-1)) s)
    (hundef : uncompOutcome lzma (data.length + 1) data = .undefined →
      ∀ s, E .undefined s) :
    Triple (OutIs [] AllBounded) (uncompFile lzma env data.length (some data))
      (fun _ s => ∃ out, uncompOutcome lzma (data.length + 1) data = .wrote out ∧
        OutIs out AllBounded s) E := by
  have hloop := @loopEnds_scanState lzma env data E hn hfault (data.length + 1) 0
    0 (Nat.zero_le _) (by omega) []
  unfold LoopEnds at hloop
  rw [List.drop_zero] at hloop
  have hstart : (⟨.ofData data, data.length, 0⟩ : UncompState) =
      scanState data 0 := by
    rw [scanState, Int.ofNat_zero, Int.sub_zero]
    rfl
  unfold uncompFile
  refine Triple.bind (triple_call hfault _) fun _ => ?_
  refine Triple.bind (triple_emit logFree_outIs _) fun _ => ?_
  refine Triple.bind (triple_call hfault _) fun _ => ?_
  refine Triple.bind (triple_emit logFree_outIs _) fun _ => ?_
  rw [hstart]
  refine Triple.bind (hloop hrefused hundef) fun _ => ?_
  exact triple_emit (fun s log ⟨out, hout, hs⟩ => ⟨out, hout, hs⟩) _

end Loop

end EcFtp
