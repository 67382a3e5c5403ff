/-
Chunks that LZMA does not shrink, of any length, and the containers of files
made of them.
-/
import EcFtp.CompRoundTrip

namespace EcFtp

open ByteStrings

section Chunks

variable {lzma : Lzma} {len : Nat}

/-- What a library that can be undone makes of a chunk tells the chunks of one
length apart. -/
theorem packed_injective (hundoes : lzma.Undoes) {chunk chunk' : Bytes}
    {packed packed' : Bytes × Bytes} (hlen : chunk.length = chunk'.length)
    (h : lzma.compress (roomFor chunk.length) chunk = some packed)
    (h' : lzma.compress (roomFor chunk'.length) chunk' = some packed')
    (hsame : packed.1 ++ packed.2 = packed'.1 ++ packed'.2) : chunk = chunk' := by
  have hprops : packed.1.length = packed'.1.length := by
    rw [lzma.length_props h, lzma.length_props h']
  obtain ⟨hfst, hsnd⟩ := List.append_inj hsame hprops
  have hplain := hundoes h
  rw [hfst, hsnd, hlen, hundoes h'] at hplain
  exact (Option.some.inj hplain).symm

/-- Of the chunks of one length there is one that is stored as it is. -/
theorem exists_storedRaw (hundoes : lzma.Undoes)
    (hpacks : ∀ chunk : Bytes, chunk.length = len →
      lzma.compress (roomFor chunk.length) chunk ≠ none) :
    ∃ chunk : Bytes, chunk.length = len ∧
      storedSize lzma chunk = some (ecHeaderSize + chunk.length) := by
  let pack : Bytes → Bytes := fun chunk =>
    (lzma.compress (roomFor chunk.length) chunk).elim [] fun packed =>
      packed.1 ++ packed.2
  have hpack : ∀ {chunk packed},
      lzma.compress (roomFor chunk.length) chunk = some packed →
        pack chunk = packed.1 ++ packed.2 := by
    intro chunk packed h
    simp only [pack, h, Option.elim_some]
  obtain ⟨chunk, hlen, hle⟩ :=
    exists_length_le pack fun chunk chunk' hlen hlen' hsame => by
    obtain ⟨packed, h⟩ := Option.ne_none_iff_exists'.mp (hpacks chunk hlen)
    obtain ⟨packed', h'⟩ := Option.ne_none_iff_exists'.mp (hpacks chunk' hlen')
    rw [hpack h, hpack h'] at hsame
    exact packed_injective hundoes (hlen.trans hlen'.symm) h h' hsame
  obtain ⟨packed, h⟩ := Option.ne_none_iff_exists'.mp (hpacks chunk hlen)
  rw [hpack h, List.length_append, ← hlen] at hle
  refine ⟨chunk, hlen, ?_⟩
  rw [storedSize, h, Option.map_some, Nat.min_eq_left hle]

theorem mapM_storedSize_of {chunks : List Bytes}
    (h : ∀ chunk ∈ chunks,
      storedSize lzma chunk = some (ecHeaderSize + chunk.length)) :
    (chunks.mapM (storedSize lzma)).map List.sum =
      some (ecHeaderSize * chunks.length + chunks.flatten.length) := by
  have hsizes : chunks.mapM (storedSize lzma) =
      some (chunks.map fun chunk => ecHeaderSize + chunk.length) := by
    induction chunks with
    | nil => rfl
    | cons chunk chunks ih =>
        rw [List.forall_mem_cons] at h
        rw [List.mapM_cons, h.1, ih h.2]
        rfl
  rw [hsizes, Option.map_some, List.length_flatten, List.sum_map_add]
  simp [Nat.mul_comm]

end Chunks

/-- The same chunk over and over, and another one behind it. -/
def repeated (k : Nat) (chunk last : Bytes) : Bytes :=
  (List.replicate k chunk).flatten ++ last

section Repeated

variable {lzma : Lzma} {k len : Nat} {chunk last : Bytes}

theorem length_repeated (k : Nat) (chunk last : Bytes) :
    (repeated k chunk last).length = k * chunk.length + last.length := by
  simp [repeated]

theorem slice_repeated {i : Nat} (hi : i < k) :
    slice (repeated k chunk last) (chunk.length * i) chunk.length = chunk := by
  obtain ⟨j, rfl⟩ := Nat.exists_eq_add_of_lt hi
  have hsplit : repeated (i + j + 1) chunk last =
      (List.replicate i chunk).flatten ++
        (chunk ++ ((List.replicate j chunk).flatten ++ last)) := by
    rw [repeated, Nat.add_assoc, List.replicate_add, List.replicate_succ,
      List.flatten_append, List.flatten_cons, List.append_assoc,
      List.append_assoc]
  rw [hsplit]
  refine slice_middle _ _ _ ?_ rfl
  simp [Nat.mul_comm]

theorem wholeChunks_repeated (k : Nat) (chunk last : Bytes) :
    wholeChunks chunk.length (repeated k chunk last) k = List.replicate k chunk := by
  rw [List.eq_replicate_iff]
  refine ⟨by simp [wholeChunks], fun b hb => ?_⟩
  obtain ⟨i, hi, rfl⟩ := List.mem_map.mp hb
  exact slice_repeated (List.mem_range.mp hi)

/-- The chunks of such a file. -/
theorem fileChunks_repeated {p : ValidPlan} (hchunk : chunk.length = p.threadMaxMem)
    (hlast : last.length < p.threadMaxMem)
    (hfit : (repeated k chunk last).length / p.maxBytesPerBatch + 1 < 2 ^ 32) :
    fileChunks p (repeated k chunk last) = List.replicate k chunk ++ [last] := by
  have hlen := length_repeated k chunk last
  rw [hchunk] at hlen
  have hlastLen : p.lastLen (repeated k chunk last).length = last.length := by
    rw [lastLen_of_fits hfit, hlen, Nat.add_comm, Nat.add_mul_mod_self_right,
      Nat.mod_eq_of_lt hlast]
  have hstart : (repeated k chunk last).length - last.length =
      k * p.threadMaxMem := by omega
  have hdrop : (repeated k chunk last).drop (k * p.threadMaxMem) = last := by
    rw [← hchunk, repeated]
    exact List.drop_left' (by simp)
  rw [fileChunks, hlastLen, hstart, hdrop,
    Nat.mul_div_cancel _ p.threadMaxMem_pos, ← hchunk, wholeChunks_repeated]

/-- Their container, when neither chunk is compressed. -/
theorem containerSize_repeated (hchunk : chunk.length = 8000000)
    (hlast : last.length < 8000000)
    (hfit : (repeated k chunk last).length / 64000000 + 1 < 2 ^ 32)
    (hstored : storedSize lzma chunk = some (ecHeaderSize + chunk.length))
    (hstored' : storedSize lzma last = some (ecHeaderSize + last.length)) :
    containerSize lzma (repeated k chunk last) =
      some (ecHeaderSize * (k + 1) + (repeated k chunk last).length) := by
  rw [containerSize, @fileChunks_repeated k chunk last compPlan hchunk hlast hfit,
    mapM_storedSize_of]
  · simp [repeated]
  · intro c hc
    rcases List.mem_append.mp hc with hc | hc
    · rw [List.eq_of_mem_replicate hc, hstored]
    · rw [List.mem_singleton.mp hc, hstored']

end Repeated

end EcFtp
