/-
Batched uncompression against a sequential decoder: a record decodes to one
chunk, and a file of records to their chunks in order, however the records fall
into batches.
-/
import EcFtp.CompRoundTrip

namespace EcFtp

/-- A well-formed record and the chunk it decodes to: raw bytes, as many as its
header says twice, or props and data that `LzmaUncompress` turns into as many
bytes as its header says. -/
inductive Record.Decodes (lzma : Lzma) : Record → Bytes → Prop
  | raw {r : Record} (hflag : r.header.compressed = 0)
      (hsize : r.header.origSize = r.header.procSize)
      (hpos : 0 < r.header.origSize) : Decodes lzma r r.data
  | compressed {r : Record} {chunk : Bytes} (hflag : r.header.compressed = 1)
      (hplain : lzma.uncompress r.header.origSize r.data r.props = some chunk)
      (hsize : chunk.length = r.header.origSize)
      (hpos : 0 < r.header.origSize) : Decodes lzma r chunk

section Decoding

variable {lzma : Lzma} {r : Record} {rs : List Record} {chunk : Bytes}
  {chunks : List Bytes}

theorem Record.Decodes.plain (h : r.Decodes lzma chunk) :
    r.plain lzma = some chunk := by
  cases h with
  | raw hflag hsize hpos =>
      have hraw : r.header.isCompressed = false := by
        rw [EcHeader.isCompressed, hflag]
        rfl
      rw [Record.plain, if_neg (by rw [hraw]; decide), hsize, ← r.length_data,
        List.take_length]
  | compressed hflag hplain hsize hpos =>
      have hcompressed : r.header.isCompressed = true := by
        rw [EcHeader.isCompressed, hflag]
        rfl
      rw [Record.plain, if_pos hcompressed, hplain]

theorem Record.Decodes.length (h : r.Decodes lzma chunk) :
    chunk.length = r.header.origSize ∧ 0 < r.header.origSize := by
  cases h with
  | raw hflag hsize hpos => exact ⟨r.length_data.trans hsize.symm, hpos⟩
  | compressed hflag hplain hsize hpos => exact ⟨hsize, hpos⟩

theorem Record.Decodes.usable (h : r.Decodes lzma chunk) : r.Usable lzma := by
  obtain ⟨hlen, hpos⟩ := h.length
  refine ⟨?_, chunk, ?_, h.plain⟩
  · rintro ⟨hraw, hlt⟩
    cases h with
    | raw hflag hsize hpos => omega
    | compressed hflag hplain hsize hpos =>
        rw [EcHeader.isCompressed, hflag] at hraw
        cases hraw
  · apply List.length_pos_iff.mp
    omega

theorem Record.Decodes.fits (h : r.Decodes lzma chunk)
    (horig : r.header.origSize < 2 ^ 64) (hproc : r.header.procSize < 2 ^ 64) :
    r.header.Fits := by
  refine ⟨?_, horig, hproc⟩
  cases h with
  | raw hflag hsize hpos => exact .inl hflag
  | compressed hflag hplain hsize hpos => exact .inr hflag

/-- The records of a file that a file can hold have fields of that size. -/
theorem procSize_le (hmem : r ∈ rs) :
    r.header.procSize ≤ (rs.flatMap Record.bytes).length := by
  obtain ⟨before, after, rfl⟩ := List.append_of_mem hmem
  have hlen := length_recordBytes r
  rw [List.flatMap_append, List.flatMap_cons, List.length_append,
    List.length_append, hlen, EcHeader.bodySize]
  omega

theorem decodes_usable (h : List.Forall₂ (Record.Decodes lzma) rs chunks) :
    ∀ r ∈ rs, r.Usable lzma := by
  induction h with
  | nil => exact List.forall_mem_nil _
  | cons hr hrest ih => exact List.forall_mem_cons.mpr ⟨hr.usable, ih⟩

theorem decodes_fits (h : List.Forall₂ (Record.Decodes lzma) rs chunks)
    (horig : ∀ r ∈ rs, r.header.origSize < 2 ^ 64)
    (hproc : ∀ r ∈ rs, r.header.procSize < 2 ^ 64) :
    ∀ r ∈ rs, r.header.Fits := by
  induction h with
  | nil => exact List.forall_mem_nil _
  | cons hr hrest ih =>
      rw [List.forall_mem_cons] at horig hproc ⊢
      exact ⟨hr.fits horig.1 hproc.1, ih horig.2 hproc.2⟩

theorem flatMap_plain_of_decodes
    (h : List.Forall₂ (Record.Decodes lzma) rs chunks) :
    (rs.flatMap fun r => (r.plain lzma).getD []) = chunks.flatten := by
  induction h with
  | nil => rfl
  | cons hr hrest ih =>
      rw [List.flatMap_cons, List.flatten_cons, hr.plain, ih]
      rfl

end Decoding

/-- `uncomp_file` on the concatenation of well-formed records writes the
concatenation of their chunks. -/
theorem uncompFile_decodes (lzma : Lzma) (rs : List Record) (chunks : List Bytes)
    (c : FileData) (hdecodes : List.Forall₂ (Record.Decodes lzma) rs chunks)
    (horig : ∀ r ∈ rs, r.header.origSize < 2 ^ 64)
    (hc : c.bytes = rs.flatMap Record.bytes) (env : ReliableEnv) :
    exitCode (uncompFileOf lzma env.toEnv c) = some 0 ∧
      (finalState (uncompFileOf lzma env.toEnv c)).out = chunks.flatten := by
  have hproc : ∀ r ∈ rs, r.header.procSize < 2 ^ 64 := by
    intro r hr
    have hle := procSize_le hr
    have hlt := c.length_lt
    rw [hc] at hlt
    omega
  have hrecords : records c.bytes = (rs, []) := by
    rw [hc]
    exact records_bytes (decodes_fits hdecodes horig hproc)
  have husable : AllUsable lzma c.bytes := by
    rw [AllUsable, hrecords]
    exact ⟨decodes_usable hdecodes, rfl⟩
  have hplain : plainOf lzma c.bytes = chunks.flatten := by
    rw [plainOf, hrecords]
    exact flatMap_plain_of_decodes hdecodes
  rw [← hplain]
  exact uncompFileOf_reliable env husable

/-- `"a"` as a raw record and as a compressed one. -/
def recordsOfA : List Record :=
  [rawRecord [97],
    ⟨⟨1, 1, 6⟩, [0x5D, 0, 0, 0, 1], [0, 48, 127, 252, 0, 0], by decide, by decide⟩]

theorem uncompFile_decodes_a :
    exitCode (uncompFileOf .storing inOrderEnv.toEnv
        ⟨recordsOfA.flatMap Record.bytes, by decide⟩) = some 0 ∧
      (finalState (uncompFileOf .storing inOrderEnv.toEnv
        ⟨recordsOfA.flatMap Record.bytes, by decide⟩)).out = [97, 97] :=
  uncompFile_decodes .storing recordsOfA [[97], [97]]
    ⟨recordsOfA.flatMap Record.bytes, by decide⟩
    (.cons (.raw rfl rfl (by decide)) (.cons
      (.compressed rfl (by decide) rfl (by decide)) .nil))
    (by decide) rfl inOrderEnv

end EcFtp
