/-
The two workers on the bytes of one chunk: what they store in the output
buffer, how long they say it is, and when the block loop runs out of `int`.
-/
import EcFtp.AesInverse
import EcFtp.Enc

namespace EcFtp

open ByteStrings Exec WorkerOrder

theorem toBlock_toList (text : Block) : toBlock text.toList = text := by
  apply Vector.ext
  intro i hi
  simp [toBlock]

theorem toList_toBlock {bs : Bytes} (h : bs.length = 16) :
    (toBlock bs).toList = bs := by
  apply List.ext_getElem
  · simp [h]
  · intro i hi hi'
    simp [toBlock, hi']

/-- One block of `enc_file`, as bytes. -/
def encryptBytes (avars : EncAesVars) (b : Bytes) : Bytes :=
  (encryptText avars (toBlock b)).toList

/-- One block of `dec_file`, as bytes. -/
def decryptBytes (avars : EncAesVars) (b : Bytes) : Bytes :=
  (decryptText avars (toBlock b)).toList

/-- The encrypted whole blocks of `x`. -/
def encryptBlocks (avars : EncAesVars) (x : Bytes) : Bytes :=
  mapBlocks 16 (encryptBytes avars) x

/-- The decrypted whole blocks of `c`. -/
def decryptBlocks (avars : EncAesVars) (c : Bytes) : Bytes :=
  mapBlocks 16 (decryptBytes avars) c

@[simp] theorem length_encryptBytes (avars : EncAesVars) (b : Bytes) :
    (encryptBytes avars b).length = 16 := by
  simp [encryptBytes]

@[simp] theorem length_decryptBytes (avars : EncAesVars) (b : Bytes) :
    (decryptBytes avars b).length = 16 := by
  simp [decryptBytes]

theorem length_encryptBlocks (avars : EncAesVars) (x : Bytes) :
    (encryptBlocks avars x).length = 16 * (x.length / 16) :=
  length_mapBlocks (fun _ _ => length_encryptBytes avars _) x

theorem length_decryptBlocks (avars : EncAesVars) (c : Bytes) :
    (decryptBlocks avars c).length = 16 * (c.length / 16) :=
  length_mapBlocks (fun _ _ => length_decryptBytes avars _) c

theorem decryptBytes_encryptBytes {key : Key} {avars : EncAesVars}
    (havars : encAesVars key = some avars) {b : Bytes} (hb : b.length = 16) :
    decryptBytes avars (encryptBytes avars b) = b := by
  obtain ⟨avars', havars', hinverse⟩ := encAesVars_inverse key
  obtain rfl : avars = avars' := Option.some.inj (havars.symm.trans havars')
  rw [decryptBytes, encryptBytes, toBlock_toList, decryptText, encryptText,
    hinverse, toRowOrder_toColumnOrder, toList_toBlock hb]

theorem decryptBlocks_encryptBlocks {key : Key} {avars : EncAesVars}
    (havars : encAesVars key = some avars) {x : Bytes} (hx : 16 ∣ x.length) :
    decryptBlocks avars (encryptBlocks avars x) = x := by
  have hmap : decryptBlocks avars (encryptBlocks avars x) =
      mapBlocks 16 (fun b => b) x :=
    mapBlocks_mapBlocks (by decide) (fun _ _ => length_encryptBytes avars _)
      (fun b hb => decryptBytes_encryptBytes havars hb) x
  rw [hmap, mapBlocks_id (by decide) hx]

/-- The slot of a thread that is to read `len` bytes at `off`. -/
def EncThreadArgs.fresh (data : Bytes) (off len alloc : Nat)
    (padded : Option Int) (avars : EncAesVars) : EncThreadArgs where
  inputReader := ⟨data, off, false⟩
  inbuf := malloc len
  irReadlen := len
  outbuf := malloc alloc
  outbufLen := len
  padded := padded
  aesVars := avars
  returnVal := none

/-- The whole blocks of `x` that are done after `k` iterations of a block
loop, in a buffer of `alloc` bytes. -/
def blocksDone (f : Bytes → Bytes) (x : Bytes) (alloc k : Nat) : Buffer :=
  filled (mapBlocks 16 f (x.take (16 * k))) (alloc - 16 * k)

theorem blocksDone_zero (f : Bytes → Bytes) (x : Bytes) (alloc : Nat) :
    blocksDone f x alloc 0 = malloc alloc := by
  simp [blocksDone, malloc_eq_filled]

theorem blocksDone_all (f : Bytes → Bytes) (x : Bytes) (alloc : Nat) :
    blocksDone f x alloc (x.length / 16) =
      filled (mapBlocks 16 f x) (alloc - 16 * (x.length / 16)) := by
  rw [blocksDone, mapBlocks_take_whole (by decide)]

/-- One iteration of a block loop, as far as the output buffer goes. -/
theorem storeBlock_blocksDone {f : Bytes → Bytes} {x : Bytes} {alloc k : Nat}
    (hf : ∀ b : Bytes, b.length = 16 → (f b).length = 16)
    (hk : k < x.length / 16) (halloc : 16 * (x.length / 16) ≤ alloc)
    {text : Block} (htext : text.toList = f (slice x (16 * k) 16)) :
    storeBlock (blocksDone f x alloc k) (16 * k) text =
      some (blocksDone f x alloc (k + 1)) := by
  have hfit : 16 * k + 16 ≤ x.length := by omega
  have hdone : (mapBlocks 16 f (x.take (16 * k))).length = 16 * k := by
    rw [length_mapBlocks hf, List.length_take]
    omega
  have hblock : (f (slice x (16 * k) 16)).length = 16 :=
    hf _ (length_slice_of_le hfit)
  have hstore := @store_filled (mapBlocks 16 f (x.take (16 * k)))
    (f (slice x (16 * k) 16)) (alloc - 16 * k) (by omega)
  rw [hdone, hblock, ← mapBlocks_take_succ (by decide) f hfit] at hstore
  rw [storeBlock, htext, blocksDone, hstore, blocksDone]
  congr 2

theorem loadBlock_filled {x : Bytes} {free k : Nat} (hk : k < x.length / 16) :
    loadBlock (filled x free) (16 * k) =
      some (toBlock (slice x (16 * k) 16)) := by
  rw [loadBlock, load_filled (by omega)]
  rfl

/-- The loop ED1 encrypts the whole blocks. -/
theorem blockLoop_encryptAt (avars : EncAesVars) {x : Bytes} {alloc : Nat}
    (hint : 16 * (x.length / 16) < 2 ^ 31)
    (halloc : 16 * (x.length / 16) ≤ alloc) :
    blockLoop (16 * (x.length / 16)) (encryptAt avars (filled x 0))
        (malloc alloc) =
      some (filled (encryptBlocks avars x) (alloc - 16 * (x.length / 16))) := by
  have hloop := @foldlM_range_eq_some _
    (fun outbuf k => encryptAt avars (filled x 0) outbuf (16 * k))
    (blocksDone (encryptBytes avars) x alloc) (x.length / 16) fun k hk => by
      simp only [encryptAt, loadBlock_filled hk, Option.bind_eq_bind,
        Option.bind_some]
      exact storeBlock_blocksDone (fun _ _ => length_encryptBytes avars _) hk
        halloc rfl
  rw [blockLoop, if_pos hint, Nat.mul_div_cancel_left _ (by decide),
    ← blocksDone_zero (encryptBytes avars) x alloc, hloop, blocksDone_all]
  rfl

/-- The bytes `enc_file` appends: as many as are missing from a whole block,
each of them that number. -/
def padding (n : Nat) : Bytes :=
  List.replicate (16 - n % 16) (UInt8.ofNat (16 - n % 16))

/-- A chunk with its stranded bytes padded to a block. -/
def padStranded (x : Bytes) : Bytes :=
  if x.length % 16 = 0 then x else x ++ padding x.length

/-- What the encrypting worker leaves in its slot for a chunk `x`. -/
structure Encrypted (avars : EncAesVars) (x : Bytes) (t : EncThreadArgs) :
    Prop where
  load : t.outbuf.load 0 t.outbufLen =
    some (encryptBlocks avars (padStranded x))
  outbufLen : t.outbufLen = (padStranded x).length
  padded : t.padded = some (if x.length % 16 = 0 then 0 else 1)
  aesVars : t.aesVars = avars

theorem length_padStranded (x : Bytes) :
    (padStranded x).length = 16 * ((x.length + 15) / 16) := by
  unfold padStranded
  split
  · omega
  · simp [padding]
    omega

theorem take_whole_append_stranded (x : Bytes) :
    x.take (16 * (x.length / 16)) ++
      slice x (16 * (x.length / 16)) (x.length % 16) = x := by
  have hsum : 16 * (x.length / 16) + x.length % 16 = x.length := by omega
  rw [take_append_slice, hsum, List.take_length]

/-- Padding the stranded bytes adds one block to the whole ones. -/
theorem encryptBlocks_padStranded (avars : EncAesVars) {x : Bytes}
    (h : x.length % 16 ≠ 0) :
    encryptBlocks avars (padStranded x) = encryptBlocks avars x ++
      encryptBytes avars
        (slice x (16 * (x.length / 16)) (x.length % 16) ++ padding x.length) := by
  have hwhole : 16 ∣ (x.take (16 * (x.length / 16))).length := by
    rw [List.length_take]
    omega
  have hblock : (slice x (16 * (x.length / 16)) (x.length % 16) ++
      padding x.length).length = 16 := by
    simp [padding]
    omega
  have hsplit : x ++ padding x.length = x.take (16 * (x.length / 16)) ++
      (slice x (16 * (x.length / 16)) (x.length % 16) ++ padding x.length) := by
    rw [← List.append_assoc, take_whole_append_stranded]
  rw [padStranded, if_neg h, encryptBlocks, hsplit,
    mapBlocks_append (by decide) _ hwhole, mapBlocks_take_whole (by decide),
    mapBlocks_block (by decide) _ hblock]
  rfl

/-- The slot after its bytes `x` were read. -/
def EncThreadArgs.holding (x : Bytes) (f : FILE) (alloc : Nat)
    (padded : Option Int) (avars : EncAesVars) : EncThreadArgs where
  inputReader := f
  inbuf := filled x 0
  irReadlen := x.length
  outbuf := malloc alloc
  outbufLen := x.length
  padded := padded
  aesVars := avars
  returnVal := none

/-- A worker goes on with the bytes of its chunk, or its read failed and it
returns `-1`. -/
theorem readThen_cases (step : EncThreadArgs → Option EncThreadArgs)
    (fails : Bool) {data : Bytes} {off len : Nat} (alloc : Nat)
    (padded : Option Int) (avars : EncAesVars)
    (hfit : off + len ≤ data.length) :
    (∃ f, readThen step fails (.fresh data off len alloc padded avars) =
        step (.holding (slice data off len) f alloc padded avars)) ∨
      fails = true ∧ ∃ t, t.returnVal = some (-1) ∧
        readThen step fails (.fresh data off len alloc padded avars) = some t := by
  have hlen := length_slice_of_le hfit
  rcases readBytes_cases fails len ⟨data, off, false⟩ with
    ⟨_, hread⟩ | ⟨hfails, buf, f, hread⟩
  · refine .inl ⟨⟨data, off + len, false⟩, ?_⟩
    simp only [readThen, EncThreadArgs.fresh, EncThreadArgs.holding, hread,
      hlen, Option.bind_eq_bind, Option.bind_some]
    rfl
  · have hfault : fails = true := by
      rcases hfails with hfault | hshort
      · exact hfault
      · exact absurd hshort (by rw [hlen]; exact Nat.lt_irrefl _)
    refine .inr ⟨hfault, { EncThreadArgs.fresh data off len alloc padded avars
      with inbuf := buf, inputReader := f, returnVal := some (-1) }, rfl, ?_⟩
    simp only [readThen, EncThreadArgs.fresh, hread, Option.bind_eq_bind,
      Option.bind_some]
    rfl

theorem encryptData_whole (avars : EncAesVars) {x : Bytes} (f : FILE)
    (padded : Option Int) (hwhole : x.length % 16 = 0)
    (hint : 16 * (x.length / 16) < 2 ^ 31) :
    ∃ t, encryptData (.holding x f (16 * ((x.length + 15) / 16)) padded avars) =
      some t ∧ t.returnVal = some 0 ∧ Encrypted avars x t := by
  have hlen : 16 * (x.length / 16) = x.length := by omega
  have halloc : 16 * ((x.length + 15) / 16) = x.length := by omega
  have hloop := @blockLoop_encryptAt avars x x.length hint (by omega)
  have hload := load_filled_all (encryptBlocks avars x) 0
  rw [length_encryptBlocks, hlen] at hload
  rw [hlen, Nat.sub_self] at hloop
  refine ⟨{ EncThreadArgs.holding x f x.length padded avars with
    outbuf := filled (encryptBlocks avars x) 0
    padded := some 0
    returnVal := some 0 }, ?_, rfl, ?_, ?_, ?_, rfl⟩
  · simp only [encryptData, EncThreadArgs.holding, hwhole, halloc, Nat.sub_zero,
      hloop, Option.bind_eq_bind, Option.bind_some]
    rfl
  · simpa [padStranded, hwhole, EncThreadArgs.holding] using hload
  · simp [padStranded, hwhole, EncThreadArgs.holding]
  · simp [hwhole]

theorem encryptData_stranded (avars : EncAesVars) {x : Bytes} (f : FILE)
    (padded : Option Int) (hstranded : x.length % 16 ≠ 0)
    (hsize : x.length < 2 ^ 63) (hint : 16 * (x.length / 16) < 2 ^ 31) :
    ∃ t, encryptData (.holding x f (16 * ((x.length + 15) / 16)) padded avars) =
      some t ∧ t.returnVal = some 0 ∧ Encrypted avars x t := by
  have hmod : x.length - x.length % 16 = 16 * (x.length / 16) := by omega
  have hfree : 16 * ((x.length + 15) / 16) - 16 * (x.length / 16) = 16 := by
    omega
  have hloop := @blockLoop_encryptAt avars x (16 * ((x.length + 15) / 16)) hint
    (by omega)
  have hstrandedBytes := @load_filled x 0 (16 * (x.length / 16))
    (x.length % 16) (by omega)
  have hstore := @store_filled (encryptBlocks avars x) (encryptBytes avars
    (slice x (16 * (x.length / 16)) (x.length % 16) ++ padding x.length)) 16
    (by simp)
  rw [length_encryptBlocks, length_encryptBytes,
    ← encryptBlocks_padStranded avars hstranded] at hstore
  have hpadded : toSizeT (x.length + (16 - x.length % 16) : Nat) =
      (padStranded x).length := by
    rw [length_padStranded, toSizeT_of_nat (by omega)]
    omega
  have hload := load_filled_all (encryptBlocks avars (padStranded x)) 0
  rw [length_encryptBlocks, length_padStranded,
    Nat.mul_div_cancel_left _ (by decide), ← length_padStranded] at hload
  refine ⟨{ EncThreadArgs.holding x f (16 * ((x.length + 15) / 16)) padded avars
    with
    outbuf := filled (encryptBlocks avars (padStranded x)) 0
    outbufLen := (padStranded x).length
    padded := some 1
    returnVal := some 0 }, ?_, rfl, hload, rfl, ?_, rfl⟩
  · simp only [encryptData, EncThreadArgs.holding, hmod, hloop, hfree,
      hstrandedBytes, Option.bind_eq_bind, Option.bind_some, ne_eq, hstranded,
      not_false_eq_true, ↓reduceIte, storeBlock, hpadded]
    have htext : (encryptText avars (toBlock
        (slice x (16 * (x.length / 16)) (x.length % 16) ++
          padding x.length))).toList = encryptBytes avars
        (slice x (16 * (x.length / 16)) (x.length % 16) ++
          padding x.length) := rfl
    rw [padding] at htext hstore
    rw [htext, hstore]
    rfl
  · simp [hstranded]

/-- The work on a chunk the block loop gets through: it is encrypted, or its
read failed. -/
theorem encryptChunk_outcome (avars : EncAesVars) {data : Bytes}
    {off len : Nat} (fails : Bool) (padded : Option Int)
    (hfit : off + len ≤ data.length) (hsize : len < 2 ^ 63)
    (hint : 16 * (len / 16) < 2 ^ 31) :
    ∃ t, encryptChunkOfFile fails
        (.fresh data off len (16 * ((len + 15) / 16)) padded avars) = some t ∧
      (t.returnVal = some 0 ∧ Encrypted avars (slice data off len) t ∨
        fails = true ∧ t.returnVal = some (-1)) := by
  have hlen := length_slice_of_le hfit
  rcases readThen_cases encryptData fails (16 * ((len + 15) / 16)) padded avars
    hfit with ⟨f, hdata⟩ | ⟨hfails, t, hval, hdata⟩
  · rw [encryptChunkOfFile, hdata]
    rw [← hlen] at hint hsize
    have hcases : ∃ t, encryptData (.holding (slice data off len) f
        (16 * (((slice data off len).length + 15) / 16)) padded avars) = some t ∧
        t.returnVal = some 0 ∧ Encrypted avars (slice data off len) t := by
      by_cases hwhole : (slice data off len).length % 16 = 0
      · exact encryptData_whole avars f padded hwhole hint
      · exact encryptData_stranded avars f padded hwhole hsize hint
    rw [hlen] at hcases
    obtain ⟨t, ht, hgood⟩ := hcases
    exact ⟨t, ht, .inl hgood⟩
  · exact ⟨t, hdata, .inr ⟨hfails, hval⟩⟩

theorem blockLoop_overflow {σ : Type} {len : Nat}
    (body : σ → Nat → Option σ) (init : σ) (h : 2 ^ 31 ≤ len) :
    blockLoop len body init = none := by
  rw [blockLoop, if_neg (by omega)]

/-- On a chunk of `2 ^ 31` bytes or more the block loop overflows. -/
theorem encryptChunk_overflow (avars : EncAesVars) {data : Bytes}
    {off len : Nat} (alloc : Nat) (fails : Bool) (padded : Option Int)
    (hfit : off + len ≤ data.length) (hint : 2 ^ 31 ≤ 16 * (len / 16)) :
    encryptChunkOfFile fails (.fresh data off len alloc padded avars) = none ∨
      fails = true ∧ ∃ t, t.returnVal = some (-1) ∧ encryptChunkOfFile fails
        (.fresh data off len alloc padded avars) = some t := by
  have hlen := length_slice_of_le hfit
  rcases readThen_cases encryptData fails alloc padded avars hfit with
    ⟨f, hdata⟩ | hfailed
  · left
    have hmod : len - len % 16 = 16 * (len / 16) := by omega
    rw [encryptChunkOfFile, hdata]
    simp only [encryptData, EncThreadArgs.holding, hlen, hmod,
      blockLoop_overflow _ _ hint]
    rfl
  · exact .inr hfailed

/-- The number DD2 reads off the end of a decrypted chunk. -/
def numPadBytes (avars : EncAesVars) (x : Bytes) : Nat :=
  ((decryptBlocks avars x).getLastD 0).toNat

/-- The length the decrypting worker sets for a chunk `x`. -/
def trimmedLen (avars : EncAesVars) (padded : Int) (x : Bytes) : Nat :=
  if padded = 1 ∧ x.length % 16 = 0 ∧ x ≠ [] then
    toSizeT (x.length - numPadBytes avars x)
  else x.length

/-- What the decrypting worker leaves in its slot for a chunk `x`. -/
structure Decrypted (avars : EncAesVars) (padded : Int) (x : Bytes)
    (t : EncThreadArgs) : Prop where
  outbuf : t.outbuf = filled (decryptBlocks avars x) (x.length % 16)
  outbufLen : t.outbufLen = trimmedLen avars padded x

theorem load_last {bs : Bytes} (free : Nat) (h : bs ≠ []) :
    (filled bs free).load (bs.length - 1) 1 = some [bs.getLastD 0] := by
  have hpos := List.length_pos_iff.mpr h
  rw [load_filled (by omega)]
  rcases List.eq_nil_or_concat bs with rfl | ⟨init, last, rfl⟩
  · exact absurd rfl h
  · simp [slice]

/-- The state of the loop DD1 after `k` iterations. -/
def decryptState (avars : EncAesVars) (padded : Int) (x : Bytes) (k : Nat) :
    Buffer × Nat :=
  (blocksDone (decryptBytes avars) x x.length k,
    if k = x.length / 16 then trimmedLen avars padded x else x.length)

theorem decryptState_zero (avars : EncAesVars) (padded : Int) (x : Bytes) :
    decryptState avars padded x 0 = (malloc x.length, x.length) := by
  rw [decryptState, blocksDone_zero]
  congr 1
  split
  · unfold trimmedLen
    rw [if_neg]
    rintro ⟨_, hwhole, hne⟩
    have hpos := List.length_pos_iff.mpr hne
    omega
  · rfl

/-- One iteration of the loop, when its block can be read and stored. -/
theorem decryptAt_eq {t : EncThreadArgs} {s : Buffer × Nat} {i : Nat}
    {text : Block} {outbuf : Buffer} {padded : Int}
    (hload : loadBlock t.inbuf i = some text)
    (hstore : storeBlock s.1 i (decryptText t.aesVars text) = some outbuf)
    (hpadded : t.padded = some padded) :
    decryptAt t s i =
      if padded = 1 ∧ i = toSizeT (t.irReadlen - 16) then
        (outbuf.load (t.irReadlen - 1) 1).map fun last =>
          (outbuf, toSizeT (t.irReadlen - (last.getD 0 0).toNat))
      else some (outbuf, s.2) := by
  simp only [decryptAt, hload, hstore, hpadded, Option.bind_eq_bind,
    Option.bind_some]
  split
  · cases outbuf.load (t.irReadlen - 1) 1 <;> rfl
  · rfl

theorem trimmedLen_of_not {avars : EncAesVars} {padded : Int} {x : Bytes}
    (h : ¬ (padded = 1 ∧ x.length % 16 = 0)) :
    trimmedLen avars padded x = x.length := by
  rw [trimmedLen, if_neg fun hall => h ⟨hall.1, hall.2.1⟩]

theorem decryptAt_decryptState (avars : EncAesVars) {x : Bytes} (f : FILE)
    (padded : Int) (hsize : x.length < 2 ^ 63) {k : Nat}
    (hk : k < x.length / 16) :
    decryptAt (.holding x f x.length (some padded) avars)
        (decryptState avars padded x k) (16 * k) =
      some (decryptState avars padded x (k + 1)) := by
  have hstore := @storeBlock_blocksDone (decryptBytes avars) x x.length k
    (fun _ _ => length_decryptBytes avars _) hk (by omega)
    (decryptText avars (toBlock (slice x (16 * k) 16))) rfl
  have hbefore : (decryptState avars padded x k).2 = x.length :=
    if_neg (Nat.ne_of_lt hk)
  have hlast : toSizeT ((x.length : Int) - 16) = x.length - 16 := by
    unfold toSizeT
    omega
  have hstep := @decryptAt_eq (.holding x f x.length (some padded) avars)
    (decryptState avars padded x k) (16 * k) _ _ padded (loadBlock_filled hk)
    hstore rfl
  rw [hstep]
  by_cases hend : padded = 1 ∧ 16 * k = x.length - 16
  · have hq : k + 1 = x.length / 16 := by omega
    have hwhole : x.length % 16 = 0 := by omega
    have hne : x ≠ [] := List.length_pos_iff.mp (by omega)
    have hlen : (decryptBlocks avars x).length = x.length := by
      rw [length_decryptBlocks]
      omega
    have hplain : decryptBlocks avars x ≠ [] :=
      List.length_pos_iff.mp (by omega)
    have hload := load_last (x.length - 16 * (x.length / 16)) hplain
    have hbuf : blocksDone (decryptBytes avars) x x.length (k + 1) =
        filled (decryptBlocks avars x) (x.length - 16 * (x.length / 16)) := by
      rw [hq, blocksDone_all]
      rfl
    have hafter : decryptState avars padded x (k + 1) =
        (blocksDone (decryptBytes avars) x x.length (k + 1),
          toSizeT (x.length - numPadBytes avars x)) := by
      rw [decryptState, if_pos hq, trimmedLen, if_pos ⟨hend.1, hwhole, hne⟩]
    rw [hlen, ← hbuf] at hload
    rw [hafter, if_pos (by simpa [EncThreadArgs.holding, hlast] using hend)]
    simp only [EncThreadArgs.holding, hload, Option.map_some, List.getD_cons_zero,
      numPadBytes]
  · have hlen : (if k + 1 = x.length / 16 then trimmedLen avars padded x
        else x.length) = x.length := by
      split
      · refine trimmedLen_of_not fun hpadded => hend ⟨hpadded.1, ?_⟩
        omega
      · rfl
    rw [hbefore, if_neg (by simpa [EncThreadArgs.holding, hlast] using hend),
      decryptState, hlen]

/-- The loop DD1 decrypts the whole blocks and sets the length. -/
theorem blockLoop_decryptAt (avars : EncAesVars) {x : Bytes} (f : FILE)
    (padded : Int) (hsize : x.length < 2 ^ 63)
    (hint : 16 * (x.length / 16) < 2 ^ 31) :
    blockLoop (16 * (x.length / 16))
        (decryptAt (.holding x f x.length (some padded) avars))
        (malloc x.length, x.length) =
      some (filled (decryptBlocks avars x) (x.length % 16),
        trimmedLen avars padded x) := by
  have hloop := @foldlM_range_eq_some _
    (fun s k => decryptAt (.holding x f x.length (some padded) avars) s (16 * k))
    (decryptState avars padded x) (x.length / 16)
    fun k hk => decryptAt_decryptState avars f padded hsize hk
  have hfree : x.length - 16 * (x.length / 16) = x.length % 16 := by omega
  rw [blockLoop, if_pos hint, Nat.mul_div_cancel_left _ (by decide),
    ← decryptState_zero avars padded x, hloop, decryptState, blocksDone_all,
    if_pos rfl, hfree]
  rfl

/-- The work on a chunk the block loop gets through: it is decrypted, or its
read failed. -/
theorem decryptChunk_outcome (avars : EncAesVars) {data : Bytes}
    {off len : Nat} (fails : Bool) (padded : Int)
    (hfit : off + len ≤ data.length) (hsize : len < 2 ^ 63)
    (hint : 16 * (len / 16) < 2 ^ 31) :
    ∃ t, decryptChunkOfFile fails
        (.fresh data off len len (some padded) avars) = some t ∧
      (t.returnVal = some 0 ∧ Decrypted avars padded (slice data off len) t ∨
        fails = true ∧ t.returnVal = some (-1)) := by
  have hlen := length_slice_of_le hfit
  rcases readThen_cases decryptData fails len (some padded) avars hfit with
    ⟨f, hdata⟩ | ⟨hfails, t, hval, hdata⟩
  · rw [decryptChunkOfFile, hdata]
    generalize slice data off len = x at hlen
    subst hlen
    have hloop := blockLoop_decryptAt avars f padded hsize hint
    have hmod : x.length - x.length % 16 = 16 * (x.length / 16) := by omega
    refine ⟨{ EncThreadArgs.holding x f x.length (some padded) avars with
      outbuf := filled (decryptBlocks avars x) (x.length % 16)
      outbufLen := trimmedLen avars padded x
      returnVal := some 0 }, ?_, .inl ⟨rfl, rfl, rfl⟩⟩
    simp only [EncThreadArgs.holding] at hloop
    simp only [decryptData, EncThreadArgs.holding, hmod, hloop,
      Option.bind_eq_bind, Option.bind_some]
    rfl
  · exact ⟨t, hdata, .inr ⟨hfails, hval⟩⟩

/-- On a chunk of `2 ^ 31` bytes or more the block loop overflows. -/
theorem decryptChunk_overflow (avars : EncAesVars) {data : Bytes}
    {off len : Nat} (alloc : Nat) (fails : Bool) (padded : Option Int)
    (hfit : off + len ≤ data.length) (hint : 2 ^ 31 ≤ 16 * (len / 16)) :
    decryptChunkOfFile fails (.fresh data off len alloc padded avars) = none ∨
      fails = true ∧ ∃ t, t.returnVal = some (-1) ∧ decryptChunkOfFile fails
        (.fresh data off len alloc padded avars) = some t := by
  have hlen := length_slice_of_le hfit
  rcases readThen_cases decryptData fails alloc padded avars hfit with
    ⟨f, hdata⟩ | hfailed
  · left
    have hmod : len - len % 16 = 16 * (len / 16) := by omega
    rw [decryptChunkOfFile, hdata]
    simp only [decryptData, EncThreadArgs.holding, hlen, hmod,
      blockLoop_overflow _ _ hint]
    rfl
  · exact .inr hfailed

end EcFtp
