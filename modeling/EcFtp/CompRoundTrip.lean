/-
The round trip of the container: the records `comp_file` writes are found again
by `uncomp_file`, whatever batches they fall into, and stand for the chunks they
were made of.
-/
import EcFtp.CompFile
import EcFtp.UncompSafety

namespace EcFtp

/-- `LzmaUncompress` gives back what `LzmaCompress` was given. -/
def Lzma.Undoes (lzma : Lzma) : Prop :=
  ∀ {destLen src props data}, lzma.compress destLen src = some (props, data) →
    lzma.uncompress src.length data props = some src

section Records

variable {lzma : Lzma} {chunk c x : Bytes} {r : Record}

theorem Packs.fits (h : Packs lzma chunk r) (hlen : chunk.length < 2 ^ 63) :
    r.header.Fits := by
  cases h with
  | raw _ _ =>
      refine ⟨.inl rfl, ?_, ?_⟩ <;> change chunk.length < 2 ^ 64 <;> omega
  | @compressed props data _ hlt =>
      refine ⟨.inr rfl, ?_, ?_⟩
      · change chunk.length < 2 ^ 64
        omega
      · change data.length < 2 ^ 64
        omega

/-- A record stands for the chunk it was made of. -/
theorem Packs.plain (hundoes : lzma.Undoes) (h : Packs lzma chunk r) :
    r.plain lzma = some chunk := by
  cases h with
  | raw _ _ => exact congrArg some List.take_length
  | compressed hcompress _ => exact hundoes hcompress

theorem Packs.not_overReads (h : Packs lzma chunk r) : ¬ r.OverReads := by
  rintro ⟨hraw, hlt⟩
  cases h with
  | raw _ _ => exact absurd hlt (Nat.lt_irrefl _)
  | compressed _ _ => cases hraw

/-- A record takes up no more than its chunk and a header. -/
theorem Packs.length_le (h : Packs lzma chunk r) :
    r.bytes.length ≤ ecHeaderSize + chunk.length := by
  rw [length_recordBytes, EcHeader.bodySize, ← r.length_props, ← r.length_data]
  cases h with
  | raw _ _ => simp [rawRecord]
  | @compressed props data _ hlt =>
      change ecHeaderSize + (props.length + data.length) ≤ _
      omega

/-- The container is not much longer than what it describes. -/
theorem Describes.length_le (h : Describes lzma c x) :
    c.length ≤ (ecHeaderSize + 1) * x.length := by
  obtain ⟨chunks, rfl, hnil, rs, hpacks, rfl⟩ := h
  induction hpacks with
  | nil => exact Nat.zero_le _
  | @cons chunk r chunks rs hr hrest ih =>
      rw [List.mem_cons, not_or] at hnil
      have hbound := hr.length_le
      have hpos := List.length_pos_iff.mpr (Ne.symm hnil.1)
      have hih := ih hnil.2
      unfold ecHeaderSize at *
      simp only [List.flatMap_cons, List.flatten_cons, List.length_append]
      omega

theorem forall₂_fits {chunks : List Bytes} {rs : List Record}
    (h : List.Forall₂ (Packs lzma) chunks rs)
    (hlen : chunks.flatten.length < 2 ^ 63) : ∀ r ∈ rs, r.header.Fits := by
  induction h with
  | nil => simp
  | cons hr hrest ih =>
      rw [List.flatten_cons, List.length_append] at hlen
      rw [List.forall_mem_cons]
      exact ⟨hr.fits (by omega), ih (by omega)⟩

theorem forall₂_usable (hundoes : lzma.Undoes) {chunks : List Bytes}
    {rs : List Record} (h : List.Forall₂ (Packs lzma) chunks rs)
    (hnil : [] ∉ chunks) : ∀ r ∈ rs, r.Usable lzma := by
  induction h with
  | nil => simp
  | cons hr hrest ih =>
      rw [List.mem_cons, not_or] at hnil
      rw [List.forall_mem_cons]
      exact ⟨⟨hr.not_overReads, _, Ne.symm hnil.1, hr.plain hundoes⟩, ih hnil.2⟩

theorem forall₂_plain (hundoes : lzma.Undoes) {chunks : List Bytes}
    {rs : List Record} (h : List.Forall₂ (Packs lzma) chunks rs) :
    (rs.flatMap fun r => (r.plain lzma).getD []) = chunks.flatten := by
  induction h with
  | nil => rfl
  | cons hr hrest ih =>
      rw [List.flatMap_cons, List.flatten_cons, hr.plain hundoes, ih]
      rfl

/-- A container is made of usable records that stand for what it describes. -/
theorem Describes.usable (hundoes : lzma.Undoes) (h : Describes lzma c x)
    (hlen : x.length < 2 ^ 63) : AllUsable lzma c ∧ plainOf lzma c = x := by
  obtain ⟨chunks, rfl, hnil, rs, hpacks, rfl⟩ := h
  have hrecords := records_bytes (forall₂_fits hpacks hlen)
  refine ⟨⟨?_, ?_⟩, ?_⟩
  · rw [hrecords]
    exact forall₂_usable hundoes hpacks hnil
  · rw [hrecords]
  · rw [plainOf, hrecords]
    exact forall₂_plain hundoes hpacks

end Records

/-- The bytes of the record of a chunk. -/
def storedSize (lzma : Lzma) (chunk : Bytes) : Option Nat :=
  (lzma.compress (roomFor chunk.length) chunk).map fun packed =>
    ecHeaderSize + min chunk.length (packed.1.length + packed.2.length)

/-- The bytes of the container of a file. -/
def containerSize (lzma : Lzma) (x : Bytes) : Option Nat :=
  ((fileChunks compPlan x).mapM (storedSize lzma)).map List.sum

section Sizes

variable {lzma : Lzma} {chunk c x : Bytes} {chunks : List Bytes} {r : Record}

theorem Packs.storedSize (h : Packs lzma chunk r) :
    storedSize lzma chunk = some r.bytes.length := by
  rw [length_recordBytes, EcHeader.bodySize, ← r.length_props, ← r.length_data]
  cases h with
  | raw hcompress hle =>
      rw [EcFtp.storedSize, hcompress, Option.map_some, Nat.min_eq_left hle]
      simp [rawRecord]
  | compressed hcompress hlt =>
      rw [EcFtp.storedSize, hcompress, Option.map_some,
        Nat.min_eq_right (Nat.le_of_lt hlt)]
      rfl

theorem Holds.mapM_storedSize (h : Holds lzma c chunks) :
    (chunks.mapM (EcFtp.storedSize lzma)).map List.sum = some c.length := by
  obtain ⟨rs, hpacks, rfl⟩ := h
  have hsizes : chunks.mapM (EcFtp.storedSize lzma) =
      some (rs.map fun r => r.bytes.length) := by
    induction hpacks with
    | nil => rfl
    | cons hr hrest ih =>
        rw [List.mapM_cons, hr.storedSize, ih]
        rfl
  rw [hsizes, Option.map_some, List.length_flatMap]

/-- A container size is there only when every chunk can be compressed. -/
theorem not_rejects_of_mapM {sizes : List Nat}
    (h : chunks.mapM (EcFtp.storedSize lzma) = some sizes) :
    ¬ lzma.Rejects chunks := by
  rintro ⟨chunk, hmem, hnone⟩
  induction chunks generalizing sizes with
  | nil => cases hmem
  | cons first chunks ih =>
      rw [List.mapM_cons] at h
      rcases List.mem_cons.mp hmem with rfl | hrest
      · rw [EcFtp.storedSize, hnone] at h
        cases h
      · cases hfirst : EcFtp.storedSize lzma first with
        | none =>
            rw [hfirst] at h
            cases h
        | some size =>
            rw [hfirst] at h
            cases hsizes : chunks.mapM (EcFtp.storedSize lzma) with
            | none =>
                rw [hsizes] at h
                cases h
            | some sizes => exact ih hsizes hrest

end Sizes

/-- A container is uncompressed to what it describes. -/
theorem uncompFileOf_describes {lzma : Lzma} (hundoes : lzma.Undoes)
    {c x : FileData} (h : Describes lzma c.bytes x.bytes) (env : ReliableEnv) :
    exitCode (uncompFileOf lzma env.toEnv c) = some 0 ∧
      (finalState (uncompFileOf lzma env.toEnv c)).out = x.bytes := by
  obtain ⟨husable, hplain⟩ := h.usable hundoes x.length_lt
  rw [← hplain]
  exact uncompFileOf_reliable env husable

/-- When `comp_file` returns zero, `uncomp_file` gives back the file it
compressed. -/
theorem compFile_uncompFile (lzma : Lzma) (hundoes : lzma.Undoes) (x : FileData)
    (hfit : x.size / 64000000 + 1 < 2 ^ 32) (env : Env)
    (hcode : exitCode (compFileOf lzma env x) = some 0) :
    ∃ c : FileData, c.bytes = (finalState (compFileOf lzma env x)).out ∧
      ∀ env' : ReliableEnv,
        exitCode (uncompFileOf lzma env'.toEnv c) = some 0 ∧
          (finalState (uncompFileOf lzma env'.toEnv c)).out = x.bytes := by
  rcases compFileOf_zero hcode with ⟨hnb, hreads, hholds⟩ | ⟨hnb, _⟩
  · have hdesc := hholds.describes hnb hreads
    have hlen := hdesc.length_le
    have hbound : (finalState (compFileOf lzma env x)).out.length < 2 ^ 63 := by
      unfold ecHeaderSize at hlen
      have : x.size = x.bytes.length := rfl
      omega
    exact ⟨⟨_, hbound⟩, rfl, uncompFileOf_describes hundoes hdesc⟩
  · exact absurd hnb (succ_mod_ne_zero hfit)

theorem storing_undoes : Lzma.storing.Undoes := by
  intro destLen src props data h
  simp only [Lzma.storing] at h
  split at h
  · cases h
    simp only [Lzma.storing, unpackBytes_packBytes]
    rw [if_pos (Nat.le_refl _)]
  · cases h

theorem compFile_uncompFile_a :
    ∃ c : FileData,
      c.bytes =
        (finalState (compFileOf .storing inOrderEnv.toEnv fileOfA)).out ∧
      ∀ env : ReliableEnv, exitCode (uncompFileOf .storing env.toEnv c) = some 0 ∧
        (finalState (uncompFileOf .storing env.toEnv c)).out = [97] :=
  compFile_uncompFile .storing storing_undoes fileOfA (by decide)
    inOrderEnv.toEnv (compFileOf_reliable (storing_not_rejects _) inOrderEnv
      (by decide) (.inl (by decide))).1

end EcFtp
