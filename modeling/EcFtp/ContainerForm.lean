/-
The form of a container: which records `comp_file` leaves of a file, that no
others can be read from its output, and how much longer than the file it is.
-/
import EcFtp.CompRoundTrip

namespace EcFtp

/-- What a record of `comp_file` says of itself: the two sizes are the same, or
the compressed data and its props take up less space than the chunk. -/
def EcHeader.Compact (h : EcHeader) : Prop :=
  h.compressed = 0 ∧ h.procSize = h.origSize ∨
    h.compressed = 1 ∧ lzmaPropsSize + h.procSize < h.origSize

/-- The records of a container of `x`. -/
structure ContainerForm (x c : Bytes) (rs : List Record) : Prop where
  bytes : c = rs.flatMap Record.bytes
  unique : ∀ rs' : List Record, (∀ r ∈ rs', r.header.Fits) →
    c = rs'.flatMap Record.bytes → rs' = rs
  compact : ∀ r ∈ rs, r.header.Compact
  payload : ∀ r ∈ rs, r.bytes.length = ecHeaderSize +
    (if r.header.compressed = 1 then lzmaPropsSize else 0) + r.header.procSize
  origSizes : rs.map (fun r => r.header.origSize) =
    (fileChunks compPlan x).map List.length
  sum_origSizes : (rs.map fun r => r.header.origSize).sum = x.length
  length_le : c.length ≤ x.length + ecHeaderSize * rs.length

section Records

variable {lzma : Lzma} {chunk x c : Bytes} {chunks : List Bytes} {r : Record}
  {rs : List Record}

theorem Packs.origSize (h : Packs lzma chunk r) :
    r.header.origSize = chunk.length := by
  cases h with
  | raw _ _ => rfl
  | compressed _ _ => rfl

theorem Packs.compact (h : Packs lzma chunk r) : r.header.Compact := by
  cases h with
  | raw _ _ => exact .inl ⟨rfl, rfl⟩
  | @compressed props data hcompress hlt =>
      have hprops := lzma.length_props hcompress
      refine .inr ⟨rfl, ?_⟩
      change lzmaPropsSize + data.length < chunk.length
      rw [lzmaPropsSize]
      omega

theorem length_recordBytes_of_compact (h : r.header.Compact) :
    r.bytes.length = ecHeaderSize +
      (if r.header.compressed = 1 then lzmaPropsSize else 0) +
        r.header.procSize := by
  rw [length_recordBytes, EcHeader.bodySize, EcHeader.numPropsBytes,
    EcHeader.isCompressed, ← Nat.add_assoc]
  rcases h with ⟨hflag, _⟩ | ⟨hflag, _⟩
  · rw [hflag]
    rfl
  · rw [hflag]
    rfl

theorem forall₂_compact (h : List.Forall₂ (Packs lzma) chunks rs) :
    ∀ r ∈ rs, r.header.Compact := by
  induction h with
  | nil => exact List.forall_mem_nil _
  | cons hr hrest ih => exact List.forall_mem_cons.mpr ⟨hr.compact, ih⟩

theorem forall₂_origSizes (h : List.Forall₂ (Packs lzma) chunks rs) :
    rs.map (fun r => r.header.origSize) = chunks.map List.length := by
  induction h with
  | nil => rfl
  | cons hr hrest ih => rw [List.map_cons, List.map_cons, hr.origSize, ih]

/-- A header for each chunk is all that is added. -/
theorem forall₂_length_le (h : List.Forall₂ (Packs lzma) chunks rs) :
    (rs.flatMap Record.bytes).length ≤
      chunks.flatten.length + ecHeaderSize * rs.length := by
  induction h with
  | nil => exact Nat.zero_le _
  | cons hr hrest ih =>
      have hle := hr.length_le
      rw [List.flatMap_cons, List.flatten_cons, List.length_append,
        List.length_append, List.length_cons, Nat.mul_succ]
      omega

/-- The records of all chunks are a container of that form. -/
theorem Holds.form (h : Holds lzma c (fileChunks compPlan x))
    (hlen : x.length < 2 ^ 63)
    (hnb : (x.length / 64000000 + 1) % 2 ^ 32 ≠ 0)
    (hreads : LastReads compPlan x.length) : ∃ rs, ContainerForm x c rs := by
  obtain ⟨hne, hpos⟩ := (@lastReads_iff compPlan x.length hnb).mp hreads
  obtain ⟨hflatten, _⟩ := @fileChunks_spec compPlan x hne
    (numBatches_pos hne hnb) hpos
  obtain ⟨rs, hpacks, rfl⟩ := h
  have hfits := forall₂_fits hpacks (by rw [hflatten]; exact hlen)
  have hcompact := forall₂_compact hpacks
  have hsizes := forall₂_origSizes hpacks
  have hle := forall₂_length_le hpacks
  rw [hflatten] at hle
  refine ⟨rs, rfl, fun rs' hfits' hsame => ?_, hcompact,
    fun r hr => length_recordBytes_of_compact (hcompact r hr), hsizes, ?_, hle⟩
  · have hparse := records_bytes hfits'
    rw [← hsame, records_bytes hfits] at hparse
    exact (Prod.mk.inj hparse).1.symm
  · rw [hsizes, ← List.length_flatten, hflatten]

end Records

/-- Without a batch the output is empty. -/
theorem compFileOf_none (lzma : Lzma) (env : ReliableEnv) {x : FileData}
    (hnb : (x.size / 64000000 + 1) % 2 ^ 32 = 0) :
    exitCode (compFileOf lzma env.toEnv x) = some 0 ∧
      (finalState (compFileOf lzma env.toEnv x)).out = [] := by
  have hrun := @triple_compFileWith_none compPlan lzma env.toEnv x hnb
  obtain ⟨hcode, hout, _⟩ := exitCode_zero hrun written_empty
    fun e s hs => env.not_faulty hs.2
  exact ⟨hcode, hout⟩

/-- The empty output is a container of no file that leaves `comp_file` without a
batch. -/
theorem not_containerForm_nil {x : FileData} {rs : List Record}
    (hnb : (x.size / 64000000 + 1) % 2 ^ 32 = 0) :
    ¬ ContainerForm x.bytes [] rs := by
  intro h
  have hnil : rs = [] := (h.unique [] (List.forall_mem_nil _) rfl).symm
  have hsum := h.sum_origSizes
  rw [hnil, List.map_nil, List.sum_nil] at hsum
  have hsize : x.size = 0 := hsum.symm
  rw [hsize] at hnb
  cases hnb

/-- What `comp_file` leaves with return code zero is a container of the file,
exactly when the number of batches is not narrowed to zero. -/
theorem compFile_form_iff (lzma : Lzma) (x : FileData) :
    (∀ env : Env, exitCode (compFileOf lzma env x) = some 0 →
      ∃ rs, ContainerForm x.bytes (finalState (compFileOf lzma env x)).out rs) ↔
      (x.size / 64000000 + 1) % 2 ^ 32 ≠ 0 := by
  constructor
  · intro hall hnb
    obtain ⟨hcode, hnil⟩ := compFileOf_none lzma inOrderEnv hnb
    obtain ⟨rs, hform⟩ := hall inOrderEnv.toEnv hcode
    rw [hnil] at hform
    exact not_containerForm_nil hnb hform
  · intro hnb env hcode
    rcases compFileOf_zero hcode with ⟨_, hreads, hholds⟩ | ⟨hzero, _⟩
    · exact hholds.form x.length_lt hnb hreads
    · exact absurd hzero hnb

/-- A file of zeros whose number of batches is narrowed to zero. -/
theorem compFile_formless_zeros :
    exitCode (compFileOf .storing inOrderEnv.toEnv
        (.zeros (64000000 * (2 ^ 32 - 1)) (by decide))) = some 0 ∧
      ¬ ∃ rs, ContainerForm
        (FileData.zeros (64000000 * (2 ^ 32 - 1)) (by decide)).bytes
        (finalState (compFileOf .storing inOrderEnv.toEnv
          (.zeros (64000000 * (2 ^ 32 - 1)) (by decide)))).out rs := by
  have hnb : ((FileData.zeros (64000000 * (2 ^ 32 - 1)) (by decide)).size /
      64000000 + 1) % 2 ^ 32 = 0 := by
    rw [FileData.size, FileData.length_zeros]
    decide
  obtain ⟨hcode, hnil⟩ := compFileOf_none .storing inOrderEnv hnb
  refine ⟨hcode, ?_⟩
  rintro ⟨rs, hform⟩
  rw [hnil] at hform
  exact not_containerForm_nil hnb hform

end EcFtp
