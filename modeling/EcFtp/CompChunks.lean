/-
The two workers of `comp.c` on one chunk: what they leave in their slot, and
what their failures say about the environment, the library and the file.
-/
import EcFtp.EcRecords

namespace EcFtp

open ByteStrings

/-- The size of `outbuf` for a chunk of `len` bytes. -/
def roomFor (len : Nat) : Nat := len + len / 3 + 128

/-- A chunk stored as it is. -/
def rawRecord (chunk : Bytes) : Record where
  header := ⟨0, chunk.length, chunk.length⟩
  props := []
  data := chunk
  length_props := rfl
  length_data := rfl

/-- A chunk stored as what `LzmaCompress` makes of it. -/
def lzmaRecord {lzma : Lzma} {destLen : Nat} {chunk props data : Bytes}
    (h : lzma.compress destLen chunk = some (props, data)) : Record where
  header := ⟨1, chunk.length, data.length⟩
  props := props
  data := data
  length_props := lzma.length_props h
  length_data := rfl

/-- The record of a chunk: the chunk itself, unless the compressed data and its
props take up less space. -/
inductive Packs (lzma : Lzma) (chunk : Bytes) : Record → Prop where
  | raw {props data : Bytes}
      (h : lzma.compress (roomFor chunk.length) chunk = some (props, data))
      (hle : chunk.length ≤ props.length + data.length) :
      Packs lzma chunk (rawRecord chunk)
  | compressed {props data : Bytes}
      (h : lzma.compress (roomFor chunk.length) chunk = some (props, data))
      (hlt : props.length + data.length < chunk.length) :
      Packs lzma chunk (lzmaRecord h)

section Compress

variable {lzma : Lzma} {readFails lzmaFails : Bool} {chunk : Bytes}

/-- The slot `comp_file` fills in for a chunk. -/
def compSlot (data : Bytes) (off len : Nat) : CompThreadArgs where
  inputReader := ⟨data, off, false⟩
  inbuf := malloc len
  irReadlen := len
  props := malloc lzmaPropsSize
  propsLen := lzmaPropsSize
  outbuf := some (malloc (roomFor len))
  outbufLen := roomFor len
  echeader := none
  returnVal := none

/-- What a successful worker leaves of a chunk. -/
structure Compressed (lzma : Lzma) (chunk : Bytes) (a : CompThreadArgs)
    (props data : Bytes) : Prop where
  compress : lzma.compress (roomFor chunk.length) chunk = some (props, data)
  inbuf : a.inbuf = filled chunk 0
  irReadlen : a.irReadlen = chunk.length
  propsBuf : a.props = filled props 0
  propsLen : a.propsLen = props.length
  outbuf : a.outbuf = some (filled data (roomFor chunk.length - data.length))
  outbufLen : a.outbufLen = data.length
  echeader : a.echeader = some a.prepareHeader

/-- The sum of the two lengths does not wrap. -/
theorem Compressed.storedRaw {a : CompThreadArgs} {props data : Bytes}
    (h : Compressed lzma chunk a props data) (hlen : chunk.length < 2 ^ 63) :
    a.storedRaw = decide (chunk.length ≤ props.length + data.length) := by
  have hprops := lzma.length_props h.compress
  have hdata := lzma.length_data h.compress
  unfold roomFor at hdata
  rw [CompThreadArgs.storedRaw, h.irReadlen, h.propsLen, h.outbufLen,
    toSizeT_of_nat (by omega)]

/-- Steps 2 and 3 of the worker on a slot that holds its chunk. -/
theorem compressData_cases {t : CompThreadArgs}
    (hin : t.inbuf = filled chunk 0) (hlen : t.irReadlen = chunk.length)
    (hprops : t.props = malloc lzmaPropsSize)
    (hout : t.outbuf = some (malloc (roomFor chunk.length)))
    (hroom : t.outbufLen = roomFor chunk.length) :
    ∃ a, compressData lzma lzmaFails t = some a ∧
      (a.returnVal = some 0 ∧ (∃ props data, Compressed lzma chunk a props data) ∨
        a.returnVal = some (-1) ∧ (lzmaFails = true ∨
          lzma.compress (roomFor chunk.length) chunk = none)) := by
  have hload : t.inbuf.load 0 t.irReadlen = some chunk := by
    rw [hin, hlen]
    exact load_filled_all chunk 0
  by_cases hnone : lzmaFails = true ∨
      lzma.compress (roomFor chunk.length) chunk = none
  · have hcall : (if lzmaFails then none
        else lzma.compress t.outbufLen chunk) = none := by
      rcases hnone with hfails | hnone
      · rw [if_pos hfails]
      · rw [hroom, hnone, ite_self]
    refine ⟨{ t with returnVal := some (-1) }, ?_, .inr ⟨rfl, hnone⟩⟩
    rw [compressData, hload, Option.bind_eq_bind, Option.bind_some, hcall]
    rfl
  · obtain ⟨hlzma, hsome⟩ := not_or.mp hnone
    obtain ⟨⟨props, data⟩, hcompress⟩ := Option.ne_none_iff_exists'.mp hsome
    rw [Bool.not_eq_true] at hlzma
    subst hlzma
    have hstoreProps := store_malloc props
    rw [lzma.length_props hcompress] at hstoreProps
    have hstoreData := @store_filled [] data (roomFor chunk.length)
      (lzma.length_data hcompress)
    rw [List.length_nil, List.nil_append, ← malloc_eq_filled] at hstoreData
    let done : CompThreadArgs :=
      { t with props := filled props 0
               propsLen := props.length
               outbuf := some (filled data (roomFor chunk.length - data.length))
               outbufLen := data.length }
    refine ⟨{ done with echeader := some done.prepareHeader, returnVal := some 0 },
      ?_, .inl ⟨rfl, props, data, ?_⟩⟩
    · rw [compressData, hload, Option.bind_eq_bind, Option.bind_some, hroom,
        if_neg Bool.false_ne_true, hcompress]
      simp only [takeCompressed, hprops, hout, lzmaPropsSize, hstoreProps,
        hstoreData, Option.bind_eq_bind, Option.bind_some]
      rfl
    · exact ⟨hcompress, hin, hlen, rfl, rfl, rfl, rfl, rfl⟩

/-- The compressing worker on the slot of a chunk: it leaves the chunk and what
`LzmaCompress` makes of it, or returns `-1`. -/
theorem compressChunk_cases {data : Bytes} {off len : Nat}
    (readFails lzmaFails : Bool) (hfit : off + len ≤ data.length) :
    ∃ a, compressChunkOfFile lzma readFails lzmaFails (compSlot data off len) =
        some a ∧
      (a.returnVal = some 0 ∧
          (∃ props out, Compressed lzma (slice data off len) a props out) ∨
        a.returnVal = some (-1) ∧ ((readFails = true ∨ lzmaFails = true) ∨
          lzma.compress (roomFor len) (slice data off len) = none)) := by
  have hlen := length_slice_of_le hfit
  rcases readBytes_cases readFails len ⟨data, off, false⟩ with
    ⟨_, hread⟩ | ⟨hfails, buf, f, hread⟩
  · obtain ⟨a, ha, hcases⟩ := @compressData_cases lzma lzmaFails
      (slice data off len)
      { compSlot data off len with
        inbuf := filled (slice data off len) 0
        inputReader := ⟨data, off + len, false⟩ }
      rfl hlen.symm rfl (by rw [hlen]; rfl) (by rw [hlen]; rfl)
    refine ⟨a, ?_, hcases.imp_right ?_⟩
    · rw [← ha]
      simp only [compressChunkOfFile, compSlot, hread, Option.bind_eq_bind,
        Option.bind_some]
      rfl
    · rintro ⟨hval, hfails | hnone⟩
      · exact ⟨hval, .inl (.inr hfails)⟩
      · rw [hlen] at hnone
        exact ⟨hval, .inr hnone⟩
  · have hfault : readFails = true := by
      rcases hfails with hfault | hshort
      · exact hfault
      · exact absurd hshort (by rw [hlen]; exact Nat.lt_irrefl _)
    refine ⟨{ compSlot data off len with
      inbuf := buf, inputReader := f, returnVal := some (-1) }, ?_,
      .inr ⟨rfl, .inl (.inl hfault)⟩⟩
    simp only [compressChunkOfFile, compSlot, hread, Option.bind_eq_bind,
      Option.bind_some]
    rfl

end Compress

section Uncompress

variable (lzma : Lzma) {h : EcHeader} {propsFails readFails lzmaFails : Bool}

/-- The slot `uncomp_file` fills in for a chunk with this header. -/
def uncompSlot (h : EcHeader) (f : FILE) : CompThreadArgs where
  inputReader := f
  inbuf := malloc h.procSize
  irReadlen := h.procSize
  props := malloc lzmaPropsSize
  propsLen := lzmaPropsSize
  outbuf := if h.isCompressed then some (malloc h.origSize) else none
  outbufLen := h.origSize
  echeader := some h
  returnVal := none

/-- What a successful worker leaves for `fwrite`: the uncompressed bytes, or
the data itself with the length the header gives. -/
def Uncompressed (h : EcHeader) (props data : Bytes) (a : CompThreadArgs) : Prop :=
  if h.isCompressed then
    ∃ plain, lzma.uncompress h.origSize data props = some plain ∧
      a.outbuf = some (filled plain (h.origSize - plain.length)) ∧
      a.outbufLen = plain.length
  else a.outbuf = some (filled data 0) ∧ a.outbufLen = h.origSize

/-- Why a worker returns `-1`. -/
def WorkFails (propsFails readFails lzmaFails : Bool) (h : EcHeader)
    (props data : Bytes) : Prop :=
  (propsFails = true ∨ readFails = true ∨ lzmaFails = true) ∨
    props.length < h.numPropsBytes ∨ data.length < h.procSize ∨
    h.isCompressed = true ∧ lzma.uncompress h.origSize data props = none

variable {lzma}

theorem setupOutbuf_raw (hraw : h.isCompressed = false) (t : CompThreadArgs) :
    setupOutbuf lzma lzmaFails h t =
      some { t with outbuf := some t.inbuf, outbufLen := h.origSize,
                    returnVal := some 0 } := by
  rw [setupOutbuf, if_neg (by rw [hraw]; decide)]

theorem setupOutbuf_none (hcomp : h.isCompressed = true) {t : CompThreadArgs}
    {data props : Bytes} (hdata : t.inbuf.load 0 t.irReadlen = some data)
    (hprops : t.props.load 0 t.propsLen = some props)
    (hnone : lzmaFails = true ∨ lzma.uncompress t.outbufLen data props = none) :
    setupOutbuf lzma lzmaFails h t = some { t with returnVal := some (-1) } := by
  have hcall : (if lzmaFails then none
      else lzma.uncompress t.outbufLen data props) = none := by
    rcases hnone with hfails | hnone
    · rw [if_pos hfails]
    · rw [hnone, ite_self]
  simp only [setupOutbuf, hcomp, ↓reduceIte, hdata, hprops, Option.bind_eq_bind,
    Option.bind_some, hcall]
  rfl

theorem setupOutbuf_some (hcomp : h.isCompressed = true) {t : CompThreadArgs}
    {data props plain : Bytes} (hdata : t.inbuf.load 0 t.irReadlen = some data)
    (hprops : t.props.load 0 t.propsLen = some props)
    (hout : t.outbuf = some (malloc t.outbufLen))
    (hplain : lzma.uncompress t.outbufLen data props = some plain) :
    setupOutbuf lzma false h t =
      some { t with outbuf := some (filled plain (t.outbufLen - plain.length)),
                    outbufLen := plain.length, returnVal := some 0 } := by
  have hstore := @store_filled [] plain t.outbufLen (lzma.length_plain hplain)
  rw [List.length_nil, List.nil_append, ← malloc_eq_filled] at hstore
  simp only [setupOutbuf, hcomp, ↓reduceIte, hdata, hprops, Option.bind_eq_bind,
    Option.bind_some, Bool.false_eq_true, hplain, takeUncompressed, hout, hstore]
  rfl

/-- Steps 2 and 3 of the worker on a slot whose props are in place. -/
theorem uncompressData_cases {t : CompThreadArgs} {props : Bytes}
    (hin : t.inbuf = malloc t.irReadlen) (hlen : t.irReadlen = h.procSize)
    (hout : h.isCompressed = true → t.outbuf = some (malloc t.outbufLen))
    (horig : t.outbufLen = h.origSize)
    (hprops : h.isCompressed = true → t.props.load 0 t.propsLen = some props) :
    ∃ a, uncompressData lzma readFails lzmaFails h t = some a ∧
      (a.returnVal = some 0 ∧
          (slice t.inputReader.data t.inputReader.pos h.procSize).length =
            h.procSize ∧
          Uncompressed lzma h props
            (slice t.inputReader.data t.inputReader.pos h.procSize) a ∨
        a.returnVal = some (-1) ∧ ((readFails = true ∨ lzmaFails = true) ∨
          (slice t.inputReader.data t.inputReader.pos h.procSize).length <
            h.procSize ∨
          h.isCompressed = true ∧ lzma.uncompress h.origSize
            (slice t.inputReader.data t.inputReader.pos h.procSize) props =
              none)) := by
  rcases readBytes_cases readFails h.procSize t.inputReader with
    ⟨hall, hread⟩ | ⟨hfails, buf, f, hread⟩
  · generalize slice t.inputReader.data t.inputReader.pos h.procSize = data
      at hall hread ⊢
    rw [← hlen, ← hin] at hread
    simp only [uncompressData, hread, Option.bind_eq_bind, Option.bind_some]
    have hload := load_filled_all data 0
    rw [hall, ← hlen] at hload
    cases hcomp : h.isCompressed with
    | false =>
        exact ⟨_, setupOutbuf_raw hcomp _, .inl ⟨rfl, hall, by
          simp [Uncompressed, hcomp]⟩⟩
    | true =>
        rw [← horig]
        by_cases hnone : lzmaFails = true ∨
            lzma.uncompress t.outbufLen data props = none
        · refine ⟨_, setupOutbuf_none hcomp hload (hprops hcomp) hnone,
            .inr ⟨rfl, ?_⟩⟩
          rcases hnone with hfails | hnone
          · exact .inl (.inr hfails)
          · exact .inr (.inr ⟨rfl, hnone⟩)
        · obtain ⟨hlzma, hplain⟩ := not_or.mp hnone
          obtain ⟨plain, hplain⟩ := Option.ne_none_iff_exists'.mp hplain
          rw [Bool.not_eq_true] at hlzma
          subst hlzma
          exact ⟨_, setupOutbuf_some hcomp hload (hprops hcomp) (hout hcomp) hplain,
            .inl ⟨rfl, hall, by simp [Uncompressed, hcomp, ← horig, hplain]⟩⟩
  · rw [← hlen, ← hin] at hread
    refine ⟨{ t with inbuf := buf, inputReader := f, returnVal := some (-1) }, ?_,
      .inr ⟨rfl, ?_⟩⟩
    · simp only [uncompressData, hread, Option.bind_eq_bind, Option.bind_some]
      rfl
    · rcases hfails with hfails | hshort
      · exact .inl (.inl hfails)
      · exact .inr (.inl hshort)

/-- How the uncompressing worker ends on the slot of a chunk: it leaves what the chunk
stands for, or returns `-1`. -/
def UncompressEnds (lzma : Lzma) (propsFails readFails lzmaFails : Bool) (h : EcHeader)
    (f : FILE) (a : CompThreadArgs) : Prop :=
  a.returnVal = some 0 ∧
      ((slice f.data f.pos h.numPropsBytes).length = h.numPropsBytes ∧
        (slice f.data (f.pos + h.numPropsBytes) h.procSize).length = h.procSize) ∧
      Uncompressed lzma h (slice f.data f.pos h.numPropsBytes)
        (slice f.data (f.pos + h.numPropsBytes) h.procSize) a ∨
    a.returnVal = some (-1) ∧ WorkFails lzma propsFails readFails lzmaFails h
      (slice f.data f.pos h.numPropsBytes)
      (slice f.data (f.pos + h.numPropsBytes) h.procSize)

/-- Raw data is read as it is. -/
theorem uncompressChunk_raw (hraw : h.isCompressed = false) (f : FILE) :
    ∃ a, uncompressChunkOfFile lzma propsFails readFails lzmaFails
      (uncompSlot h f) = some a ∧
      UncompressEnds lzma propsFails readFails lzmaFails h f a := by
  have hzero : h.numPropsBytes = 0 := by
    rw [EcHeader.numPropsBytes, hraw]
    rfl
  have hrun : uncompressChunkOfFile lzma propsFails readFails lzmaFails (uncompSlot h f) =
      uncompressData lzma readFails lzmaFails h (uncompSlot h f) := by
    simp only [uncompressChunkOfFile, uncompSlot, Option.bind_eq_bind,
      Option.bind_some, hraw]
    rfl
  obtain ⟨a, ha, hcases⟩ := @uncompressData_cases lzma h readFails lzmaFails
    (uncompSlot h f) (slice f.data f.pos h.numPropsBytes) rfl rfl
    (fun hc => by rw [hraw] at hc; cases hc) rfl (fun hc => by rw [hraw] at hc; cases hc)
  unfold UncompressEnds
  rw [hzero, Nat.add_zero] at *
  refine ⟨a, hrun.trans ha, hcases.imp ?_ ?_⟩
  · rintro ⟨hval, hall, hdone⟩
    exact ⟨hval, ⟨by simp [slice], hall⟩, hdone⟩
  · rintro ⟨hval, hwhy⟩
    refine ⟨hval, ?_⟩
    unfold WorkFails
    tauto

/-- Compressed data is read behind its props. -/
theorem uncompressChunk_compressed (hcomp : h.isCompressed = true) (f : FILE) :
    ∃ a, uncompressChunkOfFile lzma propsFails readFails lzmaFails
      (uncompSlot h f) = some a ∧
      UncompressEnds lzma propsFails readFails lzmaFails h f a := by
  have hfive : h.numPropsBytes = lzmaPropsSize := by
    rw [EcHeader.numPropsBytes, hcomp]
    rfl
  unfold UncompressEnds
  rw [hfive]
  rcases readBytes_cases propsFails lzmaPropsSize f with
    ⟨hall, hread⟩ | ⟨hfails, buf, f', hread⟩
  · have hload := load_filled_all (slice f.data f.pos lzmaPropsSize) 0
    rw [hall] at hload
    obtain ⟨a, ha, hcases⟩ := @uncompressData_cases lzma h readFails lzmaFails
      { uncompSlot h f with
        props := filled (slice f.data f.pos lzmaPropsSize) 0
        inputReader := { f with pos := f.pos + lzmaPropsSize } }
      (slice f.data f.pos lzmaPropsSize) rfl rfl
      (fun _ => if_pos hcomp) rfl (fun _ => hload)
    refine ⟨a, ?_, hcases.imp ?_ ?_⟩
    · rw [← ha]
      simp only [uncompressChunkOfFile, uncompSlot, Option.bind_eq_bind,
        Option.bind_some, hcomp, ↓reduceIte, hread]
      rfl
    · rintro ⟨hval, hdata, hdone⟩
      exact ⟨hval, ⟨hall, hdata⟩, hdone⟩
    · rintro ⟨hval, hwhy⟩
      refine ⟨hval, ?_⟩
      unfold WorkFails
      tauto
  · refine ⟨{ uncompSlot h f with
      props := buf, inputReader := f', returnVal := some (-1) }, ?_,
      .inr ⟨rfl, ?_⟩⟩
    · simp only [uncompressChunkOfFile, uncompSlot, Option.bind_eq_bind,
        Option.bind_some, hcomp, ↓reduceIte, hread]
      rfl
    · rcases hfails with hfails | hshort
      · exact .inl (.inl hfails)
      · exact .inr (.inl (by rw [hfive]; exact hshort))

theorem uncompressChunk_cases (h : EcHeader) (f : FILE)
    (propsFails readFails lzmaFails : Bool) :
    ∃ a, uncompressChunkOfFile lzma propsFails readFails lzmaFails
      (uncompSlot h f) = some a ∧
      UncompressEnds lzma propsFails readFails lzmaFails h f a := by
  cases hcomp : h.isCompressed with
  | false => exact uncompressChunk_raw hcomp f
  | true => exact uncompressChunk_compressed hcomp f

end Uncompress

end EcFtp
