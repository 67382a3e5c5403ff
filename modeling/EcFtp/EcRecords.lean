/-
The format `comp_file` writes and `uncomp_file` reads: a sequence of records, an
EC header followed by raw data, or by LZMA props and compressed data.  What
`uncomp_file` makes of any bytes is given here on the records they hold and on
what is left behind the last one.
-/
import EcFtp.Comp

namespace EcFtp

open ByteStrings

/-- A header with as many bytes behind it as it asks for. -/
structure Record where
  header : EcHeader
  props : Bytes
  data : Bytes
  length_props : props.length = header.numPropsBytes
  length_data : data.length = header.procSize

/-- The header at the beginning of `bs`. -/
def parseHeader (bs : Bytes) : EcHeader where
  compressed := toChar (ofLe (slice bs 0 1))
  origSize := ofLe (slice bs 1 8)
  procSize := ofLe (slice bs 9 8)

/-- Whether `bs` begins with a header and as many bytes as it asks for. -/
def HoldsRecord (bs : Bytes) : Prop :=
  ecHeaderSize ≤ bs.length ∧
    ecHeaderSize + (parseHeader bs).bodySize ≤ bs.length

instance (bs : Bytes) : Decidable (HoldsRecord bs) :=
  inferInstanceAs (Decidable (_ ∧ _))

/-- The record at the beginning of `bs`. -/
def firstRecord (bs : Bytes) (h : HoldsRecord bs) : Record where
  header := parseHeader bs
  props := slice bs ecHeaderSize (parseHeader bs).numPropsBytes
  data := slice bs (ecHeaderSize + (parseHeader bs).numPropsBytes)
    (parseHeader bs).procSize
  length_props := by
    have hfit := h.2
    unfold EcHeader.bodySize at hfit
    exact length_slice_of_le (by omega)
  length_data := by
    have hfit := h.2
    unfold EcHeader.bodySize at hfit
    exact length_slice_of_le (by omega)

theorem firstRecord_header {bs : Bytes} (h : HoldsRecord bs) :
    (firstRecord bs h).header = parseHeader bs := rfl

theorem firstRecord_props {bs : Bytes} (h : HoldsRecord bs) :
    (firstRecord bs h).props =
      slice bs ecHeaderSize (parseHeader bs).numPropsBytes := by
  rw [firstRecord]

theorem firstRecord_data {bs : Bytes} (h : HoldsRecord bs) :
    (firstRecord bs h).data =
      slice bs (ecHeaderSize + (parseHeader bs).numPropsBytes)
        (parseHeader bs).procSize := by
  rw [firstRecord]

/-- The first record of `bs`, and what follows it. -/
def parseRecord (bs : Bytes) : Option (Record × Bytes) :=
  if h : HoldsRecord bs then
    some (firstRecord bs h, bs.drop (ecHeaderSize + (parseHeader bs).bodySize))
  else none

/-- The first records of `bs`, at most `k`, and what follows them. -/
def takeRecords : Nat → Bytes → List Record × Bytes
  | 0, bs => ([], bs)
  | k + 1, bs =>
      match parseRecord bs with
      | none => ([], bs)
      | some (r, rest) =>
          (r :: (takeRecords k rest).1, (takeRecords k rest).2)

/-- All records of `bs`, and what is left behind them. -/
def records (bs : Bytes) : List Record × Bytes := takeRecords bs.length bs

section Parsing

variable {bs rest : Bytes} {r : Record} {k : Nat}

theorem parseRecord_eq_none : parseRecord bs = none ↔ ¬ HoldsRecord bs := by
  unfold parseRecord
  split
  · rename_i h
    simp [h]
  · rename_i h
    simp [h]

theorem parseRecord_eq_some (h : parseRecord bs = some (r, rest)) :
    ∃ hfit : HoldsRecord bs, r = firstRecord bs hfit ∧
      rest = bs.drop (ecHeaderSize + (parseHeader bs).bodySize) := by
  unfold parseRecord at h
  split at h
  · rename_i hfit
    have hpair := Prod.mk.inj (Option.some.inj h)
    exact ⟨hfit, hpair.1.symm, hpair.2.symm⟩
  · cases h

theorem length_rest (h : parseRecord bs = some (r, rest)) :
    rest.length + (ecHeaderSize + (parseHeader bs).bodySize) = bs.length := by
  obtain ⟨hfit, _, rfl⟩ := parseRecord_eq_some h
  have hle := hfit.2
  rw [List.length_drop]
  omega

theorem takeRecords_of_none (h : parseRecord bs = none) (k : Nat) :
    takeRecords k bs = ([], bs) := by
  cases k with
  | zero => rfl
  | succ k => rw [takeRecords, h]

theorem takeRecords_succ (h : parseRecord bs = some (r, rest)) (k : Nat) :
    takeRecords (k + 1) bs =
      (r :: (takeRecords k rest).1, (takeRecords k rest).2) := by
  rw [takeRecords, h]

theorem takeRecords_add (j k : Nat) (bs : Bytes) :
    takeRecords (j + k) bs =
      ((takeRecords j bs).1 ++ (takeRecords k (takeRecords j bs).2).1,
        (takeRecords k (takeRecords j bs).2).2) := by
  induction j generalizing bs with
  | zero => simp [takeRecords]
  | succ j ih =>
      cases hparse : parseRecord bs with
      | none => simp [takeRecords_of_none hparse]
      | some parsed =>
          obtain ⟨r, rest⟩ := parsed
          have hadd : j + 1 + k = (j + k) + 1 := by omega
          rw [hadd, takeRecords_succ hparse, takeRecords_succ hparse, ih]
          rfl

/-- Fewer records than asked for means that no further one is there. -/
theorem parseRecord_of_short (h : (takeRecords k bs).1.length < k) :
    parseRecord (takeRecords k bs).2 = none := by
  induction k generalizing bs with
  | zero => omega
  | succ k ih =>
      cases hparse : parseRecord bs with
      | none =>
          rw [takeRecords_of_none hparse]
          exact hparse
      | some parsed =>
          obtain ⟨r, rest⟩ := parsed
          rw [takeRecords_succ hparse] at h ⊢
          exact ih (by simpa using h)

theorem length_takeRecords_le (k : Nat) (bs : Bytes) :
    (takeRecords k bs).1.length ≤ k := by
  induction k generalizing bs with
  | zero => exact Nat.le_refl 0
  | succ k ih =>
      cases hparse : parseRecord bs with
      | none =>
          rw [takeRecords_of_none hparse]
          exact Nat.zero_le _
      | some parsed =>
          obtain ⟨r, rest⟩ := parsed
          rw [takeRecords_succ hparse, List.length_cons]
          exact Nat.succ_le_succ (ih rest)

/-- Every record takes up the bytes of its header. -/
theorem length_takeRecords (k : Nat) (bs : Bytes) :
    (takeRecords k bs).2.length + ecHeaderSize * (takeRecords k bs).1.length ≤
      bs.length := by
  induction k generalizing bs with
  | zero => simp [takeRecords]
  | succ k ih =>
      cases hparse : parseRecord bs with
      | none => simp [takeRecords_of_none hparse]
      | some parsed =>
          obtain ⟨r, rest⟩ := parsed
          have hrest := length_rest hparse
          have hih := ih rest
          rw [takeRecords_succ hparse]
          simp only [List.length_cons, Nat.mul_add, Nat.mul_one]
          omega

/-- There are no more records than bytes. -/
theorem takeRecords_of_le (h : bs.length ≤ k) :
    takeRecords k bs = records bs := by
  obtain ⟨j, rfl⟩ := Nat.exists_eq_add_of_le h
  by_cases hshort : (takeRecords bs.length bs).1.length < bs.length
  · rw [takeRecords_add, takeRecords_of_none (parseRecord_of_short hshort),
      List.append_nil]
    rfl
  · have hlen := length_takeRecords bs.length bs
    have hnil : bs = [] := by
      apply List.eq_nil_of_length_eq_zero
      unfold ecHeaderSize at hlen
      omega
    subst hnil
    exact takeRecords_of_none (parseRecord_eq_none.mpr fun h => by
      have := h.1
      simp [ecHeaderSize] at this) _

theorem records_of_none (h : parseRecord bs = none) : records bs = ([], bs) :=
  takeRecords_of_none h _

/-- The records of `bs` are a batch of them and the records of the rest. -/
theorem records_takeRecords (k : Nat) (bs : Bytes) :
    records bs = ((takeRecords k bs).1 ++ (records (takeRecords k bs).2).1,
      (records (takeRecords k bs).2).2) := by
  have hlen := length_takeRecords k bs
  rw [← takeRecords_of_le (Nat.le_add_left bs.length k), takeRecords_add,
    @takeRecords_of_le (takeRecords k bs).2 bs.length (by omega)]

theorem records_of_short (h : (takeRecords k bs).1.length < k) :
    records bs = takeRecords k bs := by
  rw [records_takeRecords k bs, records_of_none (parseRecord_of_short h), List.append_nil]

/-- Induction over the batches of `uncomp_file`: a full one and those behind it, or the
last one, which is not full. -/
@[elab_as_elim] theorem batches_induct {Q : Nat → Bytes → Prop}
    (hfull : ∀ fuel bs,
      (takeRecords compPlan.maxThreads bs).1.length = compPlan.maxThreads →
      (takeRecords compPlan.maxThreads bs).1 ≠ [] →
      Q fuel (takeRecords compPlan.maxThreads bs).2 → Q (fuel + 1) bs)
    (hshort : ∀ fuel bs, bs.length < fuel + 1 →
      (takeRecords compPlan.maxThreads bs).1.length <
        compPlan.maxThreads → Q (fuel + 1) bs)
    {fuel : Nat} {bs : Bytes} (hfuel : bs.length < fuel) : Q fuel bs := by
  induction fuel generalizing bs with
  | zero => omega
  | succ fuel ih =>
      by_cases hall : (takeRecords compPlan.maxThreads bs).1.length = compPlan.maxThreads
      · have hlen := length_takeRecords compPlan.maxThreads bs
        have hthreads : compPlan.maxThreads = 8 := rfl
        unfold ecHeaderSize at hlen
        exact hfull fuel bs hall (List.length_pos_iff.mp (by omega)) (ih (by omega))
      · have hle := length_takeRecords_le compPlan.maxThreads bs
        exact hshort fuel bs hfuel (by omega)

end Parsing

/-- A header whose fields their types hold, with one of the two flags. -/
def EcHeader.Fits (h : EcHeader) : Prop :=
  (h.compressed = 0 ∨ h.compressed = 1) ∧ h.origSize < 2 ^ 64 ∧
    h.procSize < 2 ^ 64

/-- The bytes of a record in the file. -/
def Record.bytes (r : Record) : Bytes := r.header.bytes ++ r.props ++ r.data

section Serialising

variable {r : Record} {h : EcHeader}

theorem length_headerBytes (h : EcHeader) : h.bytes.length = ecHeaderSize := by
  simp [EcHeader.bytes, ecHeaderSize]

theorem parseHeader_bytes (hfits : h.Fits) (rest : Bytes) :
    parseHeader (h.bytes ++ rest) = h := by
  obtain ⟨hflag, horig, hproc⟩ := hfits
  have hfirst : slice (h.bytes ++ rest) 0 1 =
      le 1 (h.compressed % 256).toNat := by
    have hmiddle := slice_middle [] (le 1 (h.compressed % 256).toNat)
      (le 8 h.origSize ++ (le 8 h.procSize ++ rest)) rfl (length_le 1 _)
    simpa [EcHeader.bytes] using hmiddle
  have hsecond : slice (h.bytes ++ rest) 1 8 = le 8 h.origSize := by
    have hmiddle := slice_middle (le 1 (h.compressed % 256).toNat)
      (le 8 h.origSize) (le 8 h.procSize ++ rest) (length_le 1 _) (length_le 8 _)
    simpa [EcHeader.bytes] using hmiddle
  have hthird : slice (h.bytes ++ rest) 9 8 = le 8 h.procSize := by
    have hmiddle := @slice_middle _
      (le 1 (h.compressed % 256).toNat ++ le 8 h.origSize) (le 8 h.procSize) rest
      9 8 (by simp) (length_le 8 _)
    simpa [EcHeader.bytes] using hmiddle
  have hcompressed : toChar (ofLe (le 1 (h.compressed % 256).toNat)) =
      h.compressed := by
    rcases hflag with hflag | hflag
    · rw [hflag]
      decide
    · rw [hflag]
      decide
  unfold parseHeader
  rw [hfirst, hsecond, hthird, hcompressed, ofLe_le horig, ofLe_le hproc]

theorem length_recordBytes (r : Record) :
    r.bytes.length = ecHeaderSize + r.header.bodySize := by
  simp [Record.bytes, length_headerBytes, r.length_props, r.length_data,
    EcHeader.bodySize]

/-- A record is read back from its bytes. -/
theorem parseRecord_bytes (hfits : r.header.Fits) (rest : Bytes) :
    parseRecord (r.bytes ++ rest) = some (r, rest) := by
  have hsplit : r.bytes ++ rest =
      r.header.bytes ++ (r.props ++ (r.data ++ rest)) := by
    simp [Record.bytes]
  have hparse : parseHeader (r.bytes ++ rest) = r.header := by
    rw [hsplit]
    exact parseHeader_bytes hfits _
  have hlen := length_recordBytes r
  have hfit : HoldsRecord (r.bytes ++ rest) := by
    rw [HoldsRecord, hparse, List.length_append]
    omega
  have hrecord : firstRecord (r.bytes ++ rest) hfit = r := by
    have hprops : (firstRecord (r.bytes ++ rest) hfit).props = r.props := by
      rw [firstRecord_props, hparse, hsplit]
      exact slice_middle _ _ _ (length_headerBytes _) r.length_props
    have hdata : (firstRecord (r.bytes ++ rest) hfit).data = r.data := by
      have hmiddle := slice_middle (r.header.bytes ++ r.props) r.data rest
        (by rw [List.length_append, length_headerBytes, r.length_props])
        r.length_data
      rw [firstRecord_data, hparse, hsplit]
      simpa using hmiddle
    have hheader : (firstRecord (r.bytes ++ rest) hfit).header = r.header :=
      hparse
    cases hr : firstRecord (r.bytes ++ rest) hfit
    cases r
    simp_all
  rw [parseRecord, dif_pos hfit, hrecord, hparse, ← hlen, List.drop_left]

/-- A sequence of records is read back from its bytes. -/
theorem records_bytes {rs : List Record} (hfits : ∀ r ∈ rs, r.header.Fits) :
    records (rs.flatMap Record.bytes) = (rs, []) := by
  induction rs with
  | nil => rfl
  | cons r rs ih =>
      obtain ⟨hr, hrs⟩ := List.forall_mem_cons.mp hfits
      rw [List.flatMap_cons, records_takeRecords 1,
        takeRecords_succ (parseRecord_bytes hr _), takeRecords, ih hrs]
      rfl

end Serialising

namespace Record

variable (lzma : Lzma) (r : Record)

/-- The bytes a record stands for. -/
def plain : Option Bytes :=
  if r.header.isCompressed then
    lzma.uncompress r.header.origSize r.data r.props
  else some (r.data.take r.header.origSize)

/-- A record that is not compressed and asks for more bytes to be written than
it has. -/
def OverReads : Prop :=
  r.header.isCompressed = false ∧ r.header.procSize < r.header.origSize

instance : Decidable r.OverReads := inferInstanceAs (Decidable (_ ∧ _))

/-- A record whose thread returns zero. -/
def Works : Prop := r.plain lzma ≠ none

/-- A record whose bytes are written. -/
def Usable : Prop := ¬ r.OverReads ∧ ∃ bs, bs ≠ [] ∧ r.plain lzma = some bs

variable {lzma r}

theorem Usable.works (h : r.Usable lzma) : r.Works lzma := by
  obtain ⟨_, bs, _, hplain⟩ := h
  rw [Works, hplain]
  exact Option.some_ne_none bs

theorem OverReads.works (h : r.OverReads) : r.Works lzma := by
  rw [Works, plain, if_neg (by rw [h.1]; decide)]
  exact Option.some_ne_none _

end Record

/-- What becomes of bytes given to `uncomp_file`. -/
inductive Outcome where
  | wrote (out : Bytes)
  | refused
  | undefined
deriving Repr, DecidableEq

/-- What comes next matters only after bytes were written. -/
def Outcome.andThen : Outcome → Outcome → Outcome
  | .wrote out, .wrote next => .wrote (out ++ next)
  | .wrote _, next => next
  | stopped, _ => stopped

section Outcomes

variable (lzma : Lzma)

def Record.write (r : Record) : Outcome :=
  if r.OverReads then .undefined
  else
    match r.plain lzma with
    | some (b :: bs) => .wrote (b :: bs)
    | _ => .refused

def writeAll : List Record → Outcome
  | [] => .wrote []
  | r :: rs => (r.write lzma).andThen (writeAll rs)

/-- One batch: nothing is written unless every thread returns zero. -/
def batchOutcome (rs : List Record) : Outcome :=
  if rs.all fun r => (r.plain lzma).isSome then writeAll lzma rs else .refused

/-- Any bytes, in batches of as many records as there are threads. -/
def uncompOutcome : Nat → Bytes → Outcome
  | 0, _ => .refused
  | fuel + 1, bs =>
      if bs = [] then .wrote []
      else if (takeRecords compPlan.maxThreads bs).1.length < compPlan.maxThreads ∧
          ecHeaderSize ≤ (takeRecords compPlan.maxThreads bs).2.length then
        .refused
      else if (takeRecords compPlan.maxThreads bs).1 = [] then .undefined
      else
        (batchOutcome lzma (takeRecords compPlan.maxThreads bs).1).andThen
          (uncompOutcome fuel (takeRecords compPlan.maxThreads bs).2)

/-- Records that are all written, and a few bytes that are no record. -/
def Strands (rs : List Record) (rest : Bytes) : Prop :=
  (∀ r ∈ rs, r.Usable lzma) ∧ rest ≠ [] ∧ rest.length < ecHeaderSize

/-- The room a batch has behind the record of this index. -/
def batchRoom (index : Nat) : Nat :=
  compPlan.maxThreads - 1 - index % compPlan.maxThreads

/-- A record whose write runs past its buffer: those before it are written, and
the threads of those behind it in its batch return zero. -/
def OverRuns (rs : List Record) (rest : Bytes) : Prop :=
  ∃ before r after, rs = before ++ r :: after ∧
    (∀ q ∈ before, q.Usable lzma) ∧ r.OverReads ∧
    (∀ q ∈ after.take (batchRoom before.length), q.Works lzma) ∧
    (batchRoom before.length ≤ after.length ∨ rest.length < ecHeaderSize)

end Outcomes

section Characterisation

variable {lzma : Lzma}

theorem andThen_eq_undefined {a b : Outcome} :
    a.andThen b = .undefined ↔
      a = .undefined ∨ (∃ out, a = .wrote out) ∧ b = .undefined := by
  cases a <;> cases b <;> simp [Outcome.andThen]

theorem andThen_eq_wrote {a b : Outcome} :
    (∃ out, a.andThen b = .wrote out) ↔
      (∃ out, a = .wrote out) ∧ ∃ out, b = .wrote out := by
  cases a <;> cases b <;> simp [Outcome.andThen]

theorem write_eq_undefined {r : Record} :
    r.write lzma = .undefined ↔ r.OverReads := by
  unfold Record.write
  split
  · rename_i h
    simp [h]
  · rename_i h
    split <;> simp [h]

theorem write_of_usable {r : Record} (h : r.Usable lzma) :
    r.write lzma = .wrote ((r.plain lzma).getD []) := by
  obtain ⟨hreads, bs, hne, hplain⟩ := h
  obtain ⟨b, rest, rfl⟩ := List.exists_cons_of_ne_nil hne
  rw [Record.write, if_neg hreads, hplain]
  rfl

theorem usable_of_write {r : Record} {out : Bytes}
    (h : r.write lzma = .wrote out) : r.Usable lzma := by
  unfold Record.write at h
  split at h
  · cases h
  · rename_i hreads
    split at h
    · rename_i b bs hplain
      exact ⟨hreads, b :: bs, List.cons_ne_nil b bs, hplain⟩
    · cases h

theorem writeAll_eq_wrote {rs : List Record} :
    (∃ out, writeAll lzma rs = .wrote out) ↔ ∀ r ∈ rs, r.Usable lzma := by
  induction rs with
  | nil => simp [writeAll]
  | cons r rs ih =>
      rw [List.forall_mem_cons, ← ih]
      constructor
      · rintro ⟨out, hout⟩
        cases hwrite : r.write lzma with
        | wrote first =>
            refine ⟨usable_of_write hwrite, ?_⟩
            cases hrest : writeAll lzma rs with
            | wrote rest => exact ⟨rest, rfl⟩
            | refused => simp [writeAll, hwrite, hrest, Outcome.andThen] at hout
            | undefined => simp [writeAll, hwrite, hrest, Outcome.andThen] at hout
        | refused => simp [writeAll, hwrite, Outcome.andThen] at hout
        | undefined => simp [writeAll, hwrite, Outcome.andThen] at hout
      · rintro ⟨husable, rest, hrest⟩
        rw [writeAll, write_of_usable husable, hrest]
        exact ⟨_, rfl⟩

theorem writeAll_of_usable {rs : List Record}
    (h : ∀ r ∈ rs, r.Usable lzma) :
    writeAll lzma rs = .wrote (rs.flatMap fun r => (r.plain lzma).getD []) := by
  induction rs with
  | nil => rfl
  | cons r rs ih =>
      obtain ⟨hr, hrs⟩ := List.forall_mem_cons.mp h
      rw [writeAll, write_of_usable hr, ih hrs, List.flatMap_cons]
      rfl

/-- The first record that is not written decides; here it over-reads. -/
theorem writeAll_eq_undefined {rs : List Record} :
    writeAll lzma rs = .undefined ↔
      ∃ before r after, rs = before ++ r :: after ∧
        (∀ q ∈ before, q.Usable lzma) ∧ r.OverReads := by
  induction rs with
  | nil => simp [writeAll]
  | cons r rs ih =>
      rw [writeAll, andThen_eq_undefined, write_eq_undefined, ih]
      constructor
      · rintro (hreads | ⟨⟨out, hout⟩, before, q, after, rfl, hbefore, hq⟩)
        · exact ⟨[], r, rs, rfl, by simp, hreads⟩
        · exact ⟨r :: before, q, after, rfl,
            List.forall_mem_cons.mpr ⟨usable_of_write hout, hbefore⟩, hq⟩
      · rintro ⟨before, q, after, hsplit, hbefore, hq⟩
        cases before with
        | nil =>
            obtain ⟨rfl, rfl⟩ := List.cons.inj hsplit
            exact .inl hq
        | cons first before =>
            obtain ⟨rfl, rfl⟩ := List.cons.inj hsplit
            obtain ⟨hfirst, hbefore⟩ := List.forall_mem_cons.mp hbefore
            exact .inr ⟨⟨_, write_of_usable hfirst⟩, before, q, after, rfl,
              hbefore, hq⟩

theorem all_works_iff {rs : List Record} :
    (rs.all fun r => (r.plain lzma).isSome) = true ↔
      ∀ r ∈ rs, r.Works lzma := by
  simp [Record.Works, Option.isSome_iff_ne_none]

theorem batchOutcome_eq_wrote {rs : List Record} :
    (∃ out, batchOutcome lzma rs = .wrote out) ↔ ∀ r ∈ rs, r.Usable lzma := by
  unfold batchOutcome
  split
  · exact writeAll_eq_wrote
  · rename_i h
    constructor
    · rintro ⟨out, hout⟩
      cases hout
    · intro husable
      exact absurd (all_works_iff.mpr fun r hr => (husable r hr).works) h

theorem batchOutcome_of_usable {rs : List Record}
    (h : ∀ r ∈ rs, r.Usable lzma) : batchOutcome lzma rs =
      .wrote (rs.flatMap fun r => (r.plain lzma).getD []) := by
  rw [batchOutcome, if_pos (all_works_iff.mpr fun r hr => (h r hr).works),
    writeAll_of_usable h]

theorem batchOutcome_eq_undefined {rs : List Record} :
    batchOutcome lzma rs = .undefined ↔
      ∃ before r after, rs = before ++ r :: after ∧
        (∀ q ∈ before, q.Usable lzma) ∧ r.OverReads ∧
        ∀ q ∈ after, q.Works lzma := by
  unfold batchOutcome
  split
  · rename_i hall
    rw [all_works_iff] at hall
    rw [writeAll_eq_undefined]
    constructor
    · rintro ⟨before, r, after, rfl, hbefore, hreads⟩
      exact ⟨before, r, after, rfl, hbefore, hreads, fun q hq =>
        hall q (List.mem_append_right _ (List.mem_cons_of_mem r hq))⟩
    · rintro ⟨before, r, after, hsplit, hbefore, hreads, _⟩
      exact ⟨before, r, after, hsplit, hbefore, hreads⟩
  · rename_i hall
    constructor
    · intro h
      cases h
    · rintro ⟨before, r, after, rfl, hbefore, hreads, hafter⟩
      refine absurd (all_works_iff.mpr fun q hq => ?_) hall
      rcases List.mem_append.mp hq with hmem | hmem
      · exact (hbefore q hmem).works
      · rcases List.mem_cons.mp hmem with rfl | hmem
        · exact hreads.works
        · exact hafter q hmem

theorem batchRoom_eq (index : Nat) : batchRoom index = 7 - index % 8 := rfl

theorem batchRoom_add (index : Nat) :
    batchRoom (compPlan.maxThreads + index) = batchRoom index := by
  rw [batchRoom, Nat.add_mod_left]
  rfl

/-- The over-read of a batch of at most as many records as threads. -/
theorem overRuns_iff_of_le {rs : List Record} {rest : Bytes}
    (hle : rs.length ≤ compPlan.maxThreads)
    (hfull : rs.length = compPlan.maxThreads ∨ rest.length < ecHeaderSize) :
    OverRuns lzma rs rest ↔ batchOutcome lzma rs = .undefined := by
  have hthreads : compPlan.maxThreads = 8 := rfl
  rw [batchOutcome_eq_undefined]
  constructor
  · rintro ⟨before, r, after, rfl, hbefore, hreads, hafter, _⟩
    rw [List.length_append, List.length_cons] at hle
    rw [batchRoom_eq, List.take_of_length_le (by omega)] at hafter
    exact ⟨before, r, after, rfl, hbefore, hreads, hafter⟩
  · rintro ⟨before, r, after, rfl, hbefore, hreads, hafter⟩
    rw [List.length_append, List.length_cons] at hle hfull
    refine ⟨before, r, after, rfl, hbefore, hreads,
      fun q hq => hafter q (List.mem_of_mem_take hq), ?_⟩
    rw [batchRoom_eq]
    omega

/-- The over-read is in the first batch, or behind a batch that is written. -/
theorem overRuns_append {rs more : List Record} {rest : Bytes}
    (hlen : rs.length = compPlan.maxThreads) :
    OverRuns lzma (rs ++ more) rest ↔
      batchOutcome lzma rs = .undefined ∨
        (∀ r ∈ rs, r.Usable lzma) ∧ OverRuns lzma more rest := by
  have hthreads : compPlan.maxThreads = 8 := rfl
  rw [batchOutcome_eq_undefined]
  constructor
  · rintro ⟨before, r, after, hsplit, hbefore, hreads, hafter, hend⟩
    by_cases hin : before.length < rs.length
    · left
      obtain ⟨within, rfl⟩ : ∃ within, rs = before ++ r :: within := by
        have htake := congrArg (List.take rs.length) hsplit
        obtain ⟨j, hj⟩ : ∃ j, rs.length = before.length + (j + 1) :=
          ⟨rs.length - before.length - 1, by omega⟩
        rw [List.take_left, hj, List.take_length_add_append,
          List.take_succ_cons] at htake
        exact ⟨_, htake⟩
      rw [List.length_append, List.length_cons] at hlen
      have hroom : batchRoom before.length = within.length := by
        rw [batchRoom_eq]
        omega
      rw [List.append_assoc, List.cons_append] at hsplit
      have hafterEq : within ++ more = after :=
        (List.cons.inj (List.append_cancel_left hsplit)).2
      rw [hroom, ← hafterEq, List.take_left] at hafter
      exact ⟨before, r, within, rfl, hbefore, hreads, hafter⟩
    · right
      obtain ⟨within, rfl⟩ : ∃ within, before = rs ++ within :=
        (List.prefix_of_prefix_length_le ⟨more, hsplit⟩
          (List.prefix_append before _) (by omega)).imp fun _ h => h.symm
      rw [List.append_assoc] at hsplit
      rw [List.length_append, hlen, batchRoom_add] at hafter hend
      exact ⟨fun q hq => hbefore q (List.mem_append_left _ hq), within, r, after,
        List.append_cancel_left hsplit,
        fun q hq => hbefore q (List.mem_append_right _ hq), hreads, hafter, hend⟩
  · rintro (⟨before, r, after, rfl, hbefore, hreads, hafter⟩ |
      ⟨husable, before, r, after, rfl, hbefore, hreads, hafter, hend⟩)
    · rw [List.length_append, List.length_cons] at hlen
      have hroom : batchRoom before.length = after.length := by
        rw [batchRoom_eq]
        omega
      refine ⟨before, r, after ++ more, by simp, hbefore, hreads, ?_, ?_⟩
      · rw [hroom, List.take_left]
        exact hafter
      · left
        rw [hroom, List.length_append]
        omega
    · refine ⟨rs ++ before, r, after, by simp, ?_, hreads, ?_⟩
      · intro q hq
        rcases List.mem_append.mp hq with hmem | hmem
        · exact husable q hmem
        · exact hbefore q hmem
      · rw [List.length_append, hlen, batchRoom_add]
        exact ⟨hafter, hend⟩

theorem strands_append {rs more : List Record} {rest : Bytes} :
    Strands lzma (rs ++ more) rest ↔
      (∀ r ∈ rs, r.Usable lzma) ∧ Strands lzma more rest := by
  unfold Strands
  rw [List.forall_mem_append]
  tauto

/-- Past the last record every batch is empty. -/
theorem uncompOutcome_of_short {fuel : Nat} {bs : Bytes}
    (hlen : bs.length < ecHeaderSize) :
    uncompOutcome lzma (fuel + 1) bs =
      if bs = [] then .wrote [] else .undefined := by
  have hnone : parseRecord bs = none := by
    rw [parseRecord_eq_none]
    intro hfit
    have hle := hfit.1
    omega
  rw [uncompOutcome, takeRecords_of_none hnone]
  by_cases hnil : bs = []
  · rw [if_pos hnil, if_pos hnil]
  · rw [if_neg hnil, if_neg hnil, if_neg (fun h => Nat.not_le_of_lt hlen h.2),
      if_pos rfl]

/-- The first batch, and what the rest of the bytes comes to. -/
theorem uncompOutcome_succ {fuel : Nat} {bs : Bytes}
    (hbatch : (takeRecords compPlan.maxThreads bs).1.length = compPlan.maxThreads ∨
      (takeRecords compPlan.maxThreads bs).2.length < ecHeaderSize)
    (hne : (takeRecords compPlan.maxThreads bs).1 ≠ []) :
    uncompOutcome lzma (fuel + 1) bs =
      (batchOutcome lzma (takeRecords compPlan.maxThreads bs).1).andThen
        (uncompOutcome lzma fuel (takeRecords compPlan.maxThreads bs).2) := by
  have hbs : bs ≠ [] := by
    rintro rfl
    exact hne rfl
  rw [uncompOutcome, if_neg hbs, if_neg (by omega), if_neg hne]

theorem takeRecords_of_nil {k : Nat} {bs : Bytes} (hk : 0 < k)
    (h : (takeRecords k bs).1 = []) : takeRecords k bs = ([], bs) := by
  obtain ⟨j, rfl⟩ := Nat.exists_eq_succ_of_ne_zero (Nat.ne_of_gt hk)
  cases hparse : parseRecord bs with
  | none => exact takeRecords_of_none hparse _
  | some parsed =>
      rw [takeRecords_succ hparse] at h
      cases h

/-- A last batch that is cut short by a record. -/
theorem uncompOutcome_cut {fuel : Nat} {bs : Bytes}
    (hshort : (takeRecords compPlan.maxThreads bs).1.length <
      compPlan.maxThreads)
    (hcut : ecHeaderSize ≤ (takeRecords compPlan.maxThreads bs).2.length) :
    uncompOutcome lzma (fuel + 1) bs = .refused := by
  have hbs : bs ≠ [] := by
    rintro rfl
    exact absurd hcut (by decide)
  rw [uncompOutcome, if_neg hbs, if_pos ⟨hshort, hcut⟩]

/-- A last batch, with no more than a few bytes left behind it. -/
theorem uncompOutcome_last {fuel : Nat} {bs : Bytes} (hfuel : bs.length < fuel + 1)
    (hrest : (takeRecords compPlan.maxThreads bs).2.length < ecHeaderSize) :
    uncompOutcome lzma (fuel + 1) bs =
      (batchOutcome lzma (takeRecords compPlan.maxThreads bs).1).andThen
        (if (takeRecords compPlan.maxThreads bs).2 = [] then .wrote []
          else .undefined) := by
  by_cases hnil : (takeRecords compPlan.maxThreads bs).1 = []
  · have htake := takeRecords_of_nil (by decide) hnil
    rw [htake] at hrest ⊢
    rw [uncompOutcome_of_short hrest]
    by_cases hbs : bs = []
    · rw [if_pos hbs]
      rfl
    · rw [if_neg hbs]
      rfl
  · have hlen := length_takeRecords compPlan.maxThreads bs
    have hpos := List.length_pos_iff.mpr hnil
    obtain ⟨more, rfl⟩ : ∃ more, fuel = more + 1 := by
      refine ⟨fuel - 1, ?_⟩
      unfold ecHeaderSize at hlen
      omega
    rw [uncompOutcome_succ (.inr hrest) hnil, uncompOutcome_of_short hrest]

theorem uncompOutcome_undefined_iff_of_short {fuel : Nat} {bs : Bytes}
    (hfuel : bs.length < fuel + 1)
    (hshort : (takeRecords compPlan.maxThreads bs).1.length <
      compPlan.maxThreads) :
    uncompOutcome lzma (fuel + 1) bs = .undefined ↔
      Strands lzma (takeRecords compPlan.maxThreads bs).1
          (takeRecords compPlan.maxThreads bs).2 ∨
        OverRuns lzma (takeRecords compPlan.maxThreads bs).1
          (takeRecords compPlan.maxThreads bs).2 := by
  by_cases hcut : ecHeaderSize ≤ (takeRecords compPlan.maxThreads bs).2.length
  · rw [uncompOutcome_cut hshort hcut]
    constructor
    · intro h
      cases h
    · rintro (⟨_, _, hrest⟩ | ⟨before, r, after, hsplit, _, _, _, hend⟩)
      · omega
      · have hsum := congrArg List.length hsplit
        have hroom := batchRoom_eq before.length
        have hthreads : compPlan.maxThreads = 8 := rfl
        rw [List.length_append, List.length_cons] at hsum
        omega
  · have hrest := Nat.lt_of_not_le hcut
    rw [uncompOutcome_last hfuel hrest, andThen_eq_undefined,
      batchOutcome_eq_wrote,
      overRuns_iff_of_le (Nat.le_of_lt hshort) (.inr hrest)]
    constructor
    · rintro (hbatch | ⟨husable, hend⟩)
      · exact .inr hbatch
      · refine .inl ⟨husable, ?_, hrest⟩
        intro heq
        rw [if_pos heq] at hend
        cases hend
    · rintro (⟨husable, hne, _⟩ | hbatch)
      · exact .inr ⟨husable, if_neg hne⟩
      · exact .inl hbatch

/-- When what `uncomp_file` does with the bytes `bs` has no meaning. -/
theorem uncompOutcome_undefined_iff {fuel : Nat} {bs : Bytes}
    (hfuel : bs.length < fuel) :
    uncompOutcome lzma fuel bs = .undefined ↔
      Strands lzma (records bs).1 (records bs).2 ∨
        OverRuns lzma (records bs).1 (records bs).2 := by
  refine batches_induct (fun fuel bs hfull hne ih => ?_)
    (fun fuel bs hfuel hshort => ?_) hfuel
  · rw [records_takeRecords compPlan.maxThreads bs, uncompOutcome_succ (.inl hfull) hne,
      andThen_eq_undefined, batchOutcome_eq_wrote, ih, strands_append,
      overRuns_append hfull]
    tauto
  · rw [records_of_short hshort]
    exact uncompOutcome_undefined_iff_of_short hfuel hshort

theorem uncompOutcome_wrote_iff_of_short {fuel : Nat} {bs : Bytes}
    (hfuel : bs.length < fuel + 1)
    (hshort : (takeRecords compPlan.maxThreads bs).1.length <
      compPlan.maxThreads) :
    (∃ out, uncompOutcome lzma (fuel + 1) bs = .wrote out) ↔
      (∀ r ∈ (takeRecords compPlan.maxThreads bs).1, r.Usable lzma) ∧
        (takeRecords compPlan.maxThreads bs).2 = [] := by
  by_cases hcut : ecHeaderSize ≤ (takeRecords compPlan.maxThreads bs).2.length
  · rw [uncompOutcome_cut hshort hcut]
    constructor
    · rintro ⟨out, hout⟩
      cases hout
    · rintro ⟨_, hrest⟩
      rw [hrest] at hcut
      exact absurd hcut (by decide)
  · rw [uncompOutcome_last hfuel (Nat.lt_of_not_le hcut), andThen_eq_wrote,
      batchOutcome_eq_wrote]
    refine and_congr_right fun _ => ?_
    constructor
    · rintro ⟨out, hout⟩
      by_contra hne
      rw [if_neg hne] at hout
      cases hout
    · intro hempty
      exact ⟨[], if_pos hempty⟩

/-- When all of the bytes `bs` are written out. -/
theorem uncompOutcome_wrote_iff {fuel : Nat} {bs : Bytes}
    (hfuel : bs.length < fuel) :
    (∃ out, uncompOutcome lzma fuel bs = .wrote out) ↔
      (∀ r ∈ (records bs).1, r.Usable lzma) ∧ (records bs).2 = [] := by
  refine batches_induct (fun fuel bs hfull hne ih => ?_)
    (fun fuel bs hfuel hshort => ?_) hfuel
  · rw [records_takeRecords compPlan.maxThreads bs, uncompOutcome_succ (.inl hfull) hne,
      andThen_eq_wrote, batchOutcome_eq_wrote, ih, List.forall_mem_append]
    tauto
  · rw [records_of_short hshort]
    exact uncompOutcome_wrote_iff_of_short hfuel hshort

/-- What is written is what the records stand for. -/
theorem uncompOutcome_eq_wrote {fuel : Nat} {bs out : Bytes}
    (hfuel : bs.length < fuel) (h : uncompOutcome lzma fuel bs = .wrote out) :
    out = (records bs).1.flatMap fun r => (r.plain lzma).getD [] := by
  induction fuel generalizing bs out with
  | zero => omega
  | succ fuel ih =>
      by_cases hnil : bs = []
      · subst hnil
        have hwrote : Outcome.wrote [] = .wrote out := h
        cases hwrote
        rfl
      · obtain ⟨husable, _⟩ := (uncompOutcome_wrote_iff hfuel).mp ⟨out, h⟩
        have hlen := length_takeRecords compPlan.maxThreads bs
        rw [records_takeRecords compPlan.maxThreads bs] at husable ⊢
        obtain ⟨hbatch, _⟩ := List.forall_mem_append.mp husable
        rw [uncompOutcome, if_neg hnil] at h
        split at h
        · cases h
        · split at h
          · cases h
          · rename_i hne
            have hpos := List.length_pos_iff.mpr hne
            obtain ⟨_, more, hout⟩ := andThen_eq_wrote.mp ⟨out, h⟩
            have hlt : (takeRecords compPlan.maxThreads bs).2.length < fuel := by
              unfold ecHeaderSize at hlen
              omega
            rw [batchOutcome_of_usable hbatch, hout] at h
            rw [List.flatMap_append, ← ih hlt hout]
            exact (Outcome.wrote.inj h).symm

end Characterisation

end EcFtp
