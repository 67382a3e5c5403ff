/-
`enc_file` and `dec_file`: the thread arguments, the two workers, and the two
file functions over the frame of batches.  A file is given by the size `stat`
left and, when it exists, by its bytes.
-/
import EcFtp.Aes
import EcFtp.Batches

namespace EcFtp

open Exec

/-- `struct enc_thread_args`; `padded` and `return_val` may hold nothing yet. -/
structure EncThreadArgs where
  inputReader : FILE
  inbuf : Buffer
  irReadlen : Nat
  outbuf : Buffer
  outbufLen : Nat
  padded : Option Int
  aesVars : EncAesVars
  returnVal : Option Int

/-- The 16 bytes `memcpy` puts in `uint8_t text[16]`. -/
def toBlock (bs : Bytes) : Block := Vector.ofFn fun i : Fin 16 => bs.getD i.val 0

def loadBlock (buf : Buffer) (off : Nat) : Option Block :=
  (buf.load off 16).map toBlock

def storeBlock (buf : Buffer) (off : Nat) (text : Block) : Option Buffer :=
  buf.store off text.toList

/-- `for (int i = 0; (size_t) i < len; i += 16)` over whole blocks: the counter
overflows when it has to reach `2 ^ 31`. -/
def blockLoop {σ : Type} (len : Nat) (body : σ → Nat → Option σ) (init : σ) :
    Option σ :=
  if len < 2 ^ 31 then
    (List.range (len / 16)).foldlM (fun s k => body s (16 * k)) init
  else none

/-- `to_column_order(text); encrypt(text, ...)`. -/
def encryptText (avars : EncAesVars) (text : Block) : Block :=
  encrypt (toColumnOrder text) avars.rkeys avars.sbox

/-- `decrypt(text, ...); to_row_order(text)`. -/
def decryptText (avars : EncAesVars) (text : Block) : Block :=
  toRowOrder (decrypt text avars.rkeys avars.sboxinv)

/-- ED1: the block at `i`. -/
def encryptAt (avars : EncAesVars) (inbuf : Buffer) (outbuf : Buffer) (i : Nat) :
    Option Buffer := do
  let text ← loadBlock inbuf i
  storeBlock outbuf i (encryptText avars text)

/-- Step 2 of the worker: encrypt what is in `inbuf`. -/
def encryptData (t : EncThreadArgs) : Option EncThreadArgs := do
  let numStrandedBytes := t.irReadlen % 16
  let i := t.irReadlen - numStrandedBytes
  let outbuf ← blockLoop i (encryptAt t.aesVars t.inbuf) t.outbuf
  if numStrandedBytes ≠ 0 then
    let stranded ← t.inbuf.load i numStrandedBytes
    let padnum := 16 - numStrandedBytes
    let text := toBlock (stranded ++ List.replicate padnum (UInt8.ofNat padnum))
    let outbuf ← storeBlock outbuf i (encryptText t.aesVars text)
    return { t with outbuf, outbufLen := toSizeT (t.outbufLen + padnum : Nat),
                    padded := some 1, returnVal := some 0 }
  else
    return { t with outbuf, padded := some 0, returnVal := some 0 }

/-- Step 1 of a worker, then its step 2; `fails` is whether the read of this
thread fails. -/
def readThen (step : EncThreadArgs → Option EncThreadArgs) (fails : Bool)
    (t : EncThreadArgs) : Option EncThreadArgs := do
  let (res, inbuf, inputReader) ← readBytes fails t.inbuf t.irReadlen t.inputReader
  if res ≠ 0 then
    return { t with inbuf, inputReader, returnVal := some (-1) }
  else
    step { t with inbuf, inputReader }

def encryptChunkOfFile : Bool → EncThreadArgs → Option EncThreadArgs :=
  readThen encryptData

/-- DD1 and DD2: the block at `i`, and the length of the output when this is
the last block of padded data. -/
def decryptAt (t : EncThreadArgs) (s : Buffer × Nat) (i : Nat) :
    Option (Buffer × Nat) := do
  let text ← loadBlock t.inbuf i
  let outbuf ← storeBlock s.1 i (decryptText t.aesVars text)
  let padded ← t.padded
  if padded = 1 ∧ i = toSizeT (t.irReadlen - 16) then
    let last ← outbuf.load (t.irReadlen - 1) 1
    let numPadBytes := (last.getD 0 0).toNat
    return (outbuf, toSizeT (t.irReadlen - numPadBytes))
  else
    return (outbuf, s.2)

/-- Step 2 of the worker: decrypt what is in `inbuf`. -/
def decryptData (t : EncThreadArgs) : Option EncThreadArgs := do
  let numStrandedBytes := t.irReadlen % 16
  let (outbuf, outbufLen) ← blockLoop (t.irReadlen - numStrandedBytes)
    (decryptAt t) (t.outbuf, t.outbufLen)
  return { t with outbuf, outbufLen, returnVal := some 0 }

def decryptChunkOfFile : Bool → EncThreadArgs → Option EncThreadArgs :=
  readThen decryptData

section Files

variable (p : ThreadPlan) (env : Env) (stSize : Int) (input : Option Bytes)

/-- STA1 to STA4, with the size of `outbuf` and the initial `padded` as
functions of whether this is the last thread. -/
def setEncArgs (avars : EncAesVars) (allocLen : Bool → Nat → Nat)
    (padded : Bool → Option Int) (batchIndex threadIndex : Nat) :
    Prog EncThreadArgs := do
  let inputReader ← openReader env input (p.seekOffset batchIndex threadIndex)
    batchIndex threadIndex
  let last := p.isLast stSize batchIndex threadIndex
  let irReadlen := p.irReadlen stSize batchIndex threadIndex
  returnIf (env.fails (.mallocInbuf batchIndex threadIndex irReadlen))
  let outLen := allocLen last irReadlen
  returnIf (env.fails (.mallocOutbuf batchIndex threadIndex outLen))
  pure
    { inputReader
      inbuf := malloc irReadlen
      irReadlen
      outbuf := malloc outLen
      outbufLen := irReadlen
      padded := padded last
      aesVars := avars
      returnVal := none }

/-- `long alloc_len`, as `malloc` takes it. -/
def encAllocLen (last : Bool) (irReadlen : Nat) : Nat :=
  if last then
    let numStrandedBytes := irReadlen % 16
    toSizeT (irReadlen + if numStrandedBytes ≠ 0 then 16 - numStrandedBytes else 0 : Nat)
  else p.threadMaxMem

/-- MUTW2: the block of padding, which is not transposed. -/
def addPadding (batchIndex threadIndex : Nat) (t : EncThreadArgs) :
    Prog PUnit :=
  if p.isLast stSize batchIndex threadIndex then
    match t.padded with
    | none => throw .undefined
    | some padded =>
        if padded ≠ 1 then
          let text := encrypt (Vector.replicate 16 16) t.aesVars.rkeys t.aesVars.sbox
          fwriteItem (env.fails (.fwritePadding batchIndex threadIndex))
            (filled text.toList 0) 16
        else pure ⟨⟩
  else pure ⟨⟩

/-- MUTW of `enc_file`. -/
def useEncWork (batchIndex threadIndex : Nat) (t : EncThreadArgs) :
    Prog PUnit := do
  fwriteItem (env.fails (.fwriteData batchIndex threadIndex)) t.outbuf t.outbufLen
  addPadding p env stSize batchIndex threadIndex t
  emit (.closed (.reader batchIndex threadIndex))

def encJob (avars : EncAesVars) : FileJob EncThreadArgs where
  setArgs := setEncArgs p env stSize input avars (encAllocLen p) fun _ => none
  work b t := encryptChunkOfFile (env.fails (.freadInput b t))
  returnVal := EncThreadArgs.returnVal
  useWork := useEncWork p env stSize

/-- MUTW of `dec_file`. -/
def useDecWork (batchIndex threadIndex : Nat) (t : EncThreadArgs) :
    Prog PUnit := do
  fwriteItem (env.fails (.fwriteData batchIndex threadIndex)) t.outbuf t.outbufLen
  emit (.closed (.reader batchIndex threadIndex))

def decJob (avars : EncAesVars) : FileJob EncThreadArgs where
  setArgs := setEncArgs p env stSize input avars
    (fun last irReadlen => if last then irReadlen else p.threadMaxMem)
    fun last => some (if last then 1 else 0)
  work b t := decryptChunkOfFile (env.fails (.freadInput b t))
  returnVal := EncThreadArgs.returnVal
  useWork := useDecWork env

/-- The batches, once the tables of the cipher are built. -/
def runCrypt (job : EncAesVars → FileJob EncThreadArgs) :
    Option EncAesVars → Prog PUnit
  | none => throw .outOfFuel
  | some avars => runBatches p env stSize (job avars)

/-- What is around the batches: the output stream is opened before and closed
after them. -/
def cryptFile (key : Key) (job : EncAesVars → FileJob EncThreadArgs) :
    Prog PUnit := do
  returnIf (env.fails .fopenOut)
  emit (.opened .out)
  runCrypt p env stSize job (encAesVars key)
  emit (.closed .out)

def encFileWith (key : Key) : Prog PUnit :=
  cryptFile p env stSize key (encJob p env stSize input)

def decFileWith (key : Key) : Prog PUnit :=
  cryptFile p env stSize key (decJob p env stSize input)

end Files

/-- `enc_file` with the macros of `enc.h`. -/
def encFile (env : Env) (stSize : Int) (input : Option Bytes) (key : Key) :
    Prog PUnit :=
  encFileWith encPlan.toThreadPlan env stSize input key

/-- `dec_file` with the macros of `enc.h`. -/
def decFile (env : Env) (stSize : Int) (input : Option Bytes) (key : Key) :
    Prog PUnit :=
  decFileWith encPlan.toThreadPlan env stSize input key

end EcFtp
