/-
`comp_file` and `uncomp_file`: the EC header, the two workers, and the two file
functions.  Compression goes through the frame of batches; uncompression finds
its threads by reading headers until the end of the file.  What LZMA computes is
left to the library.
-/
import EcFtp.Batches

namespace EcFtp

open ByteStrings Exec

/-- What `LzmaCompress` and `LzmaUncompress` leave when they return `SZ_OK`:
props and data within the size of the output buffer, and bytes within theirs.
The range coder is always flushed, so compressed data is never empty. -/
structure Lzma where
  compress : Nat → Bytes → Option (Bytes × Bytes)
  uncompress : Nat → Bytes → Bytes → Option Bytes
  length_props : ∀ {destLen src props data},
    compress destLen src = some (props, data) → props.length = 5
  length_data : ∀ {destLen src props data},
    compress destLen src = some (props, data) → data.length ≤ destLen
  data_ne_nil : ∀ {destLen src props data},
    compress destLen src = some (props, data) → data ≠ []
  length_plain : ∀ {destLen src props plain},
    uncompress destLen src props = some plain → plain.length ≤ destLen

/-- `EC_HEADER_SIZE`. -/
def ecHeaderSize : Nat := 17

/-- `LZMA_PROPS_SIZE`. -/
def lzmaPropsSize : Nat := 5

/-- `struct ec_header`. -/
structure EcHeader where
  compressed : Int
  origSize : Nat
  procSize : Nat
deriving Repr, DecidableEq

namespace EcHeader

/-- The bytes `write_ec_header` writes. -/
def bytes (h : EcHeader) : Bytes :=
  le 1 (h.compressed % 256).toNat ++ le 8 h.origSize ++ le 8 h.procSize

/-- `compressed == EC_COMPRESSED`. -/
def isCompressed (h : EcHeader) : Bool := h.compressed == 1

/-- `num_props_bytes`. -/
def numPropsBytes (h : EcHeader) : Nat :=
  if h.isCompressed then lzmaPropsSize else 0

/-- The bytes of a record after its header. -/
def bodySize (h : EcHeader) : Nat := h.numPropsBytes + h.procSize

end EcHeader

/-- `fread(_, size, 1, f)`: the item, if all of it was there. -/
def readField (fails : Bool) (size : Nat) (f : FILE) : Option Bytes × FILE :=
  let (got, f) := if fails then ([], f) else f.read size
  (if got.length = size then some got else none, f)

def readEcHeader (fails : Nat → Bool) (f : FILE) : Except Int EcHeader × FILE :=
  match readField (fails 0) 1 f with
  | (none, f) => (.error (-1), f)
  | (some compressed, f) =>
      match readField (fails 1) 8 f with
      | (none, f) => (.error (-2), f)
      | (some origSize, f) =>
          match readField (fails 2) 8 f with
          | (none, f) => (.error (-3), f)
          | (some procSize, f) =>
              (.ok ⟨toChar (ofLe compressed), ofLe origSize, ofLe procSize⟩, f)

/-- `if (1 != fwrite(&field, sizeof field, 1, f)) return code;` -/
def fwriteField (fails : Bool) (field : Bytes) (code : Int) (next : Prog Int) :
    Prog Int := do
  let written ← fwrite fails (filled field 0) field.length
  if written ≠ 1 then pure code else next

def writeEcHeader (fails : Nat → Bool) (h : EcHeader) : Prog Int :=
  fwriteField (fails 0) (le 1 (h.compressed % 256).toNat) (-1) <|
    fwriteField (fails 1) (le 8 h.origSize) (-2) <|
      fwriteField (fails 2) (le 8 h.procSize) (-3) <| pure 0

/-- `struct comp_thread_args`; the header, the pointer `outbuf` and
`return_val` may hold nothing yet. -/
structure CompThreadArgs where
  inputReader : FILE
  inbuf : Buffer
  irReadlen : Nat
  props : Buffer
  propsLen : Nat
  outbuf : Option Buffer
  outbufLen : Nat
  echeader : Option EcHeader
  returnVal : Option Int

namespace CompThreadArgs

/-- Whether the compressed data and its props take up the space of the input or
more. -/
def storedRaw (t : CompThreadArgs) : Bool :=
  t.irReadlen ≤ toSizeT (t.propsLen + t.outbufLen : Nat)

/-- Step 3 of the compressing worker: the header. -/
def prepareHeader (t : CompThreadArgs) : EcHeader :=
  if t.storedRaw then ⟨0, t.irReadlen, t.irReadlen⟩
  else ⟨1, t.irReadlen, t.outbufLen⟩

end CompThreadArgs

/-- What follows the call of `LzmaCompress`. -/
def takeCompressed (t : CompThreadArgs) :
    Option (Bytes × Bytes) → Option CompThreadArgs
  | none => some { t with returnVal := some (-1) }
  | some (props, data) => do
      let propsBuf ← t.props.store 0 props
      let outbuf ← t.outbuf.bind fun outbuf => outbuf.store 0 data
      let t := { t with props := propsBuf, propsLen := props.length,
                        outbuf := some outbuf, outbufLen := data.length }
      return { t with echeader := some t.prepareHeader, returnVal := some 0 }

/-- Step 2 of the compressing worker. -/
def compressData (lzma : Lzma) (lzmaFails : Bool) (t : CompThreadArgs) :
    Option CompThreadArgs := do
  let src ← t.inbuf.load 0 t.irReadlen
  takeCompressed t (if lzmaFails then none else lzma.compress t.outbufLen src)

def compressChunkOfFile (lzma : Lzma) (readFails lzmaFails : Bool)
    (t : CompThreadArgs) : Option CompThreadArgs := do
  let (res, inbuf, inputReader) ←
    readBytes readFails t.inbuf t.irReadlen t.inputReader
  if res ≠ 0 then
    return { t with inbuf, inputReader, returnVal := some (-1) }
  else
    compressData lzma lzmaFails { t with inbuf, inputReader }

/-- What follows the call of `LzmaUncompress`. -/
def takeUncompressed (t : CompThreadArgs) : Option Bytes → Option CompThreadArgs
  | none => some { t with returnVal := some (-1) }
  | some plain => do
      let outbuf ← t.outbuf.bind fun outbuf => outbuf.store 0 plain
      return { t with outbuf := some outbuf, outbufLen := plain.length,
                      returnVal := some 0 }

/-- Step 3 of the uncompressing worker: raw data is not copied, `outbuf` is
redirected to `inbuf`. -/
def setupOutbuf (lzma : Lzma) (lzmaFails : Bool) (h : EcHeader)
    (t : CompThreadArgs) : Option CompThreadArgs :=
  if h.isCompressed then do
    let src ← t.inbuf.load 0 t.irReadlen
    let props ← t.props.load 0 t.propsLen
    takeUncompressed t
      (if lzmaFails then none else lzma.uncompress t.outbufLen src props)
  else
    some { t with outbuf := some t.inbuf, outbufLen := h.origSize,
                  returnVal := some 0 }

/-- Steps 2 and 3 of the uncompressing worker. -/
def uncompressData (lzma : Lzma) (readFails lzmaFails : Bool) (h : EcHeader)
    (t : CompThreadArgs) : Option CompThreadArgs := do
  let (res, inbuf, inputReader) ←
    readBytes readFails t.inbuf t.irReadlen t.inputReader
  if res ≠ 0 then
    return { t with inbuf, inputReader, returnVal := some (-1) }
  else
    setupOutbuf lzma lzmaFails h { t with inbuf, inputReader }

def uncompressChunkOfFile (lzma : Lzma) (propsFails readFails lzmaFails : Bool)
    (t : CompThreadArgs) : Option CompThreadArgs := do
  let h ← t.echeader
  if h.isCompressed then
    let (res, props, inputReader) ←
      readBytes propsFails t.props t.propsLen t.inputReader
    if res ≠ 0 then
      return { t with props, inputReader, returnVal := some (-1) }
    else
      uncompressData lzma readFails lzmaFails h { t with props, inputReader }
  else
    uncompressData lzma readFails lzmaFails h t

section CompFile

variable (p : ThreadPlan) (lzma : Lzma) (env : Env) (stSize : Int)
  (input : Option Bytes)

/-- The size of `outbuf`: a third more than the input, and 128 bytes. -/
def compCapacity (last : Bool) (irReadlen : Nat) : Nat :=
  if last then toSizeT (irReadlen + irReadlen / 3 + 128 : Nat)
  else p.threadMaxMem + p.threadMaxMem / 3 + 128

/-- STA1 to STA4 of `comp_file`. -/
def setCompArgs (batchIndex threadIndex : Nat) : Prog CompThreadArgs := do
  let inputReader ← openReader env input (p.seekOffset batchIndex threadIndex)
    batchIndex threadIndex
  returnIf (env.fails (.mallocProps batchIndex threadIndex))
  let irReadlen := p.irReadlen stSize batchIndex threadIndex
  returnIf (env.fails (.mallocInbuf batchIndex threadIndex irReadlen))
  let outbufLen := compCapacity p (p.isLast stSize batchIndex threadIndex) irReadlen
  returnIf (env.fails (.mallocOutbuf batchIndex threadIndex outbufLen))
  pure
    { inputReader
      inbuf := malloc irReadlen
      irReadlen
      props := malloc lzmaPropsSize
      propsLen := lzmaPropsSize
      outbuf := some (malloc outbufLen)
      outbufLen
      echeader := none
      returnVal := none }

/-- MUTW2 of `comp_file`: the raw data, or the props and the compressed data. -/
def writeChunk (batchIndex threadIndex : Nat) (t : CompThreadArgs)
    (outbuf : Buffer) : Prog PUnit :=
  if t.storedRaw then
    fwriteItem (env.fails (.fwriteData batchIndex threadIndex)) t.inbuf t.irReadlen
  else do
    fwriteItem (env.fails (.fwriteProps batchIndex threadIndex)) t.props t.propsLen
    fwriteItem (env.fails (.fwriteData batchIndex threadIndex)) outbuf t.outbufLen

/-- MUTW1 of `comp_file`, and what follows it. -/
def writeRecord (batchIndex threadIndex : Nat) (t : CompThreadArgs) (h : EcHeader)
    (outbuf : Buffer) : Prog PUnit := do
  let res ← writeEcHeader
    (fun field => env.fails (.fwriteHeader batchIndex threadIndex field)) h
  returnIf (res != 0)
  writeChunk env batchIndex threadIndex t outbuf
  emit (.closed (.reader batchIndex threadIndex))

/-- MUTW of `comp_file`. -/
def useCompWork (batchIndex threadIndex : Nat) (t : CompThreadArgs) :
    Prog PUnit :=
  match t.echeader, t.outbuf with
  | some h, some outbuf => writeRecord env batchIndex threadIndex t h outbuf
  | _, _ => throw .undefined

def compJob : FileJob CompThreadArgs where
  setArgs := setCompArgs p env stSize input
  work b t := compressChunkOfFile lzma (env.fails (.freadInput b t))
    (env.fails (.lzma b t))
  returnVal := CompThreadArgs.returnVal
  useWork := useCompWork env

def compFileWith : Prog PUnit := do
  returnIf (env.fails .fopenOut)
  emit (.opened .out)
  runBatches p env stSize (compJob p lzma env stSize input)
  emit (.closed .out)

end CompFile

/-- `comp_file` with the macros of `comp.h`. -/
def compFile (lzma : Lzma) (env : Env) (stSize : Int) (input : Option Bytes) :
    Prog PUnit :=
  compFileWith compPlan.toThreadPlan lzma env stSize input

/-- What the loop of `uncomp_file` carries: `in_file`, `bytes_left` and
`cur_pos`. -/
structure UncompState where
  inFile : FILE
  bytesLeft : Int
  curPos : Int
deriving Repr, DecidableEq

/-- `bytes_left` and `cur_pos` once `len` more bytes are accounted for. -/
def UncompState.advance (s : UncompState) (len : Nat) : UncompState :=
  { s with bytesLeft := toOffT (s.bytesLeft - len), curPos := toOffT (s.curPos + len) }

section UncompFile

variable (lzma : Lzma) (env : Env) (data : Bytes)

/-- STA5: room for the uncompressed data, if the data is compressed. -/
def mallocPlain (batchIndex threadIndex : Nat) (h : EcHeader) :
    Prog (Option Buffer) :=
  if h.isCompressed then do
    returnIf (env.fails (.mallocOutbuf batchIndex threadIndex h.origSize))
    pure (some (malloc h.origSize))
  else pure none

/-- What follows the `fseek` to the next header. -/
def afterSeek (batchIndex threadIndex : Nat) (h : EcHeader) (s : UncompState)
    (sought : Int × FILE) : Prog UncompState := do
  returnIf (sought.1 != 0 || env.fails (.fseekHeader batchIndex threadIndex))
  pure (UncompState.advance { s with inFile := sought.2 } h.procSize)

/-- STA6 and STA7: seek to the next header. -/
def seekNext (batchIndex threadIndex : Nat) (h : EcHeader) (s : UncompState) :
    Prog UncompState :=
  afterSeek env batchIndex threadIndex h (s.advance h.numPropsBytes)
    (s.inFile.seekCur (toOffT h.bodySize))

/-- STA2 to STA7 of `uncomp_file`, after the header is read. -/
def setUncompArgs (batchIndex threadIndex : Nat) (h : EcHeader)
    (s : UncompState) : Prog (CompThreadArgs × UncompState) := do
  let s := s.advance ecHeaderSize
  let inputReader ← openReader env (some data) s.curPos batchIndex threadIndex
  returnIf (env.fails (.mallocProps batchIndex threadIndex))
  returnIf (env.fails (.mallocInbuf batchIndex threadIndex h.procSize))
  let outbuf ← mallocPlain env batchIndex threadIndex h
  let s ← seekNext env batchIndex threadIndex h s
  pure
    ({ inputReader
       inbuf := malloc h.procSize
       irReadlen := h.procSize
       props := malloc lzmaPropsSize
       propsLen := lzmaPropsSize
       outbuf
       outbufLen := h.origSize
       echeader := some h
       returnVal := none }, s)

/-- The loop over the threads of one batch: it ends early when a header cannot
be read because the file is at its end. -/
def setUncompThreads (batchIndex : Nat) : Nat → Nat → UncompState →
    Prog (List CompThreadArgs × UncompState)
  | 0, _, s => pure ([], s)
  | k + 1, threadIndex, s =>
      match readEcHeader
        (fun field => env.fails (.freadHeader batchIndex threadIndex field))
        s.inFile with
      | (.error _, inFile) =>
          if inFile.eof then pure ([], { s with inFile }) else throw (.ret (-1))
      | (.ok h, inFile) => do
          let (arg, s) ← setUncompArgs env data batchIndex threadIndex h
            { s with inFile }
          let (args, s) ← setUncompThreads batchIndex k (threadIndex + 1) s
          pure (arg :: args, s)

/-- MUTW of `uncomp_file`. -/
def useUncompWork (batchIndex threadIndex : Nat) (t : CompThreadArgs) :
    Prog PUnit :=
  match t.outbuf with
  | none => throw .undefined
  | some outbuf => do
      fwriteItem (env.fails (.fwriteData batchIndex threadIndex)) outbuf t.outbufLen
      emit (.closed (.reader batchIndex threadIndex))

/-- RT and MUTW of one batch.  Without a thread there is no
`args[num_threads - 1]`. -/
def runUncompThreads (batchIndex : Nat) : List CompThreadArgs → Prog PUnit
  | [] => throw .undefined
  | args => do
      let ran ← runThreads env (fun t => uncompressChunkOfFile lzma
        (env.fails (.freadProps batchIndex t))
        (env.fails (.freadInput batchIndex t)) (env.fails (.lzma batchIndex t)))
        CompThreadArgs.returnVal batchIndex args
      useThreads (useUncompWork env batchIndex) args.length ran

/-- `while (bytes_left > 0)`, with a bound on the number of batches. -/
def uncompLoop : Nat → Nat → UncompState → Prog PUnit
  | 0, _, _ => throw .outOfFuel
  | fuel + 1, batchIndex, s =>
      if 0 < s.bytesLeft then do
        let (args, s) ← setUncompThreads env data batchIndex
          compPlan.maxThreads 0 s
        runUncompThreads lzma env batchIndex args
        uncompLoop fuel (batchIndex + 1) s
      else pure ⟨⟩

end UncompFile

/-- `uncomp_file`: `in_file` is left open. -/
def uncompFile (lzma : Lzma) (env : Env) (stSize : Int) :
    Option Bytes → Prog PUnit
  | none => throw (.ret (-1))
  | some data => do
      returnIf (env.fails .fopenIn)
      emit (.opened .header)
      returnIf (env.fails .fopenOut)
      emit (.opened .out)
      uncompLoop lzma env data (data.length + 1) 0 ⟨.ofData data, stSize, 0⟩
      emit (.closed .out)

end EcFtp
