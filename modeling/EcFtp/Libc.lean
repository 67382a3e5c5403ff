/-
What the file functions use of the C language and its library: memory blocks
with uninitialised cells, streams on regular files, integer conversions, and
programs that write one output file.  A program leaves with a return code, or
with `undefined` where C gives the access it makes no meaning.  Which of the library
calls whose results are checked fail, and in which order the threads of a batch
finish, is the environment's choice.
-/
import EcFtp.ByteStrings
import EcFtp.Exec
import EcFtp.WorkerOrder

namespace EcFtp

open ByteStrings Exec

abbrev Byte := UInt8

abbrev Bytes := List Byte

/-- A block of memory; a cell nothing was stored in yet is `none`. -/
abbrev Buffer := List (Option Byte)

def malloc (size : Nat) : Buffer := List.replicate size none

/-- Read `len` bytes at offset `off`; all of them must be allocated and
initialised. -/
def Buffer.load (buf : Buffer) (off len : Nat) : Option Bytes :=
  if off + len ≤ buf.length then (slice buf off len).mapM id else none

/-- Store `bs` at offset `off`; all of it must be allocated. -/
def Buffer.store (buf : Buffer) (off : Nat) (bs : Bytes) : Option Buffer :=
  if off + bs.length ≤ buf.length then
    some (buf.take off ++ bs.map some ++ buf.drop (off + bs.length))
  else none

/-- A block that holds `bs` followed by `free` uninitialised cells. -/
def filled (bs : Bytes) (free : Nat) : Buffer :=
  bs.map some ++ List.replicate free none

@[simp] theorem length_malloc (size : Nat) : (malloc size).length = size := by
  simp [malloc]

@[simp] theorem length_filled (bs : Bytes) (free : Nat) :
    (filled bs free).length = bs.length + free := by
  simp [filled]

theorem malloc_eq_filled (size : Nat) : malloc size = filled [] size := rfl

theorem mapM_id_eq_some_iff {buf : Buffer} {bs : Bytes} :
    buf.mapM id = some bs ↔ buf = bs.map some := by
  induction buf generalizing bs with
  | nil => cases bs <;> simp
  | cons cell buf ih =>
      rw [List.mapM_cons]
      cases cell with
      | none => cases bs <;> simp
      | some b =>
          cases hrest : buf.mapM id with
          | none =>
              cases bs with
              | nil => simp
              | cons b' bs =>
                  have hne : buf ≠ bs.map some :=
                    mt ih.mpr (by simp [hrest])
                  simp [hne]
          | some rest =>
              have hbuf : buf = rest.map some := ih.mp hrest
              cases bs with
              | nil => simp
              | cons b' bs =>
                  have hinj : List.map some rest = List.map some bs ↔
                      rest = bs := List.map_inj_right (fun _ _ => Option.some.inj)
                  simp [hbuf, hinj]

theorem load_filled {bs : Bytes} {free off len : Nat}
    (h : off + len ≤ bs.length) :
    Buffer.load (filled bs free) off len = some (slice bs off len) := by
  have hfit : off + len ≤ (filled bs free).length := by
    rw [length_filled]
    omega
  have hslice : slice (filled bs free) off len = (slice bs off len).map some := by
    rw [filled, slice_append_left (by simpa using h)]
    simp [slice]
  rw [Buffer.load, if_pos hfit, hslice, mapM_id_eq_some_iff.mpr rfl]

theorem load_filled_all (bs : Bytes) (free : Nat) :
    Buffer.load (filled bs free) 0 bs.length = some bs := by
  rw [load_filled (by omega), slice_zero_eq_take, List.take_length]

theorem store_filled {done bs : Bytes} {free : Nat} (h : bs.length ≤ free) :
    Buffer.store (filled done free) done.length bs =
      some (filled (done ++ bs) (free - bs.length)) := by
  have hfit : done.length + bs.length ≤ (filled done free).length := by
    rw [length_filled]
    omega
  rw [Buffer.store, if_pos hfit]
  simp [filled, List.drop_append]

theorem store_malloc (bs : Bytes) :
    Buffer.store (malloc bs.length) 0 bs = some (filled bs 0) := by
  have hstore := @store_filled [] bs bs.length (Nat.le_refl bs.length)
  simpa [malloc_eq_filled] using hstore

theorem load_eq_some {buf : Buffer} {off len : Nat} {bs : Bytes}
    (h : buf.load off len = some bs) :
    off + len ≤ buf.length ∧ slice buf off len = bs.map some := by
  unfold Buffer.load at h
  split at h
  · rename_i hfit
    exact ⟨hfit, mapM_id_eq_some_iff.mp h⟩
  · cases h

/-- Reading past the initialised part of a block has no meaning. -/
theorem load_filled_eq_none {bs : Bytes} {free len : Nat}
    (h : bs.length < len) : Buffer.load (filled bs free) 0 len = none := by
  cases hload : Buffer.load (filled bs free) 0 len with
  | none => rfl
  | some read =>
      obtain ⟨hfit, hslice⟩ := load_eq_some hload
      rw [length_filled] at hfit
      have hcell : (slice (filled bs free) 0 len)[bs.length]? = some none := by
        rw [slice_zero_eq_take, List.getElem?_take_of_lt h, filled,
          List.getElem?_append_right (by simp), List.length_map, Nat.sub_self,
          List.getElem?_replicate, if_pos (by omega)]
      rw [hslice, List.getElem?_map] at hcell
      cases hread : read[bs.length]? <;> simp [hread] at hcell

/-- A `FILE` on a regular file: its bytes, the position, the end-of-file
indicator. -/
structure FILE where
  data : Bytes
  pos : Nat
  eof : Bool
deriving Repr, DecidableEq

/-- The bytes of a regular file: `off_t` holds their number. -/
@[ext] structure FileData where
  bytes : Bytes
  length_lt : bytes.length < 2 ^ 63

abbrev FileData.size (x : FileData) : Nat := x.bytes.length

/-- A file of zeros. -/
def FileData.zeros (n : Nat) (h : n < 2 ^ 63) : FileData where
  bytes := List.replicate n 0
  length_lt := by
    rw [List.length_replicate]
    exact h

@[simp] theorem FileData.length_zeros (n : Nat) (h : n < 2 ^ 63) :
    (FileData.zeros n h).bytes.length = n := List.length_replicate

def FILE.ofData (data : Bytes) : FILE := ⟨data, 0, false⟩

/-- `fseek(f, off, SEEK_SET)`; a negative position is refused. -/
def FILE.seekSet (f : FILE) (off : Int) : FILE :=
  if off < 0 then f else { f with pos := off.toNat, eof := false }

/-- `fseek(f, off, SEEK_CUR)`, with its return value; a position `off_t` does
not hold is refused. -/
def FILE.seekCur (f : FILE) (off : Int) : Int × FILE :=
  if f.pos + off < 0 ∨ 2 ^ 63 ≤ f.pos + off then (-1, f)
  else (0, { f with pos := (f.pos + off).toNat, eof := false })

/-- `fread(_, 1, len, f)`: the bytes that were there to read. -/
def FILE.read (f : FILE) (len : Nat) : Bytes × FILE :=
  let got := slice f.data f.pos len
  (got, { f with pos := f.pos + got.length,
                 eof := f.eof || decide (got.length < len) })

/-- A size converted to `unsigned int`. -/
def toUInt32 (z : Int) : Nat := (z % 2 ^ 32).toNat

/-- A size converted to `size_t` or `uint64_t`. -/
def toSizeT (z : Int) : Nat := (z % 2 ^ 64).toNat

/-- A number converted to `off_t` or `long`. -/
def toOffT (z : Int) : Int := z.bmod (2 ^ 64)

/-- A number converted to `char`. -/
def toChar (z : Int) : Int := z.bmod 256

theorem toSizeT_of_nat {n : Nat} (h : n < 2 ^ 64) : toSizeT n = n := by
  unfold toSizeT
  omega

theorem toUInt32_of_nat (n : Nat) : toUInt32 n = n % 2 ^ 32 := by
  unfold toUInt32
  omega

theorem toChar_add_mul {n : Nat} (h : n < 128) (k : Nat) :
    toChar ((256 * k + n : Nat) : Int) = n := by
  have hmod : ((256 * k + n : Nat) : Int) % (256 : Nat) = n := by omega
  rw [toChar, Int.bmod_def, hmod, if_pos (by omega)]

theorem toChar_of_nat {n : Nat} (h : n < 128) : toChar n = n := by
  simpa using toChar_add_mul h 0

/-- A library call whose result one of the file functions checks, named by the
batch and the thread it is made for.  The calls whose results are ignored are
not among them: `stat`, `fclose` and the `fseek` of a reader do not fail. -/
inductive CallSite where
  | fopenOut
  | fopenIn
  | fopenReader (batch thread : Nat)
  | mallocProps (batch thread : Nat)
  | mallocInbuf (batch thread size : Nat)
  | mallocOutbuf (batch thread size : Nat)
  | freadHeader (batch thread field : Nat)
  | freadProps (batch thread : Nat)
  | freadInput (batch thread : Nat)
  | fseekHeader (batch thread : Nat)
  | pthreadCreate (batch thread : Nat)
  | lzma (batch thread : Nat)
  | fwriteHeader (batch thread field : Nat)
  | fwriteProps (batch thread : Nat)
  | fwriteData (batch thread : Nat)
  | fwritePadding (batch thread : Nat)
deriving DecidableEq

/-- The environment of one call of a file function: the checked library calls
that fail, and the order in which the threads of each batch finish. -/
structure Env where
  fails : CallSite → Bool
  order : Nat → Nat → List Nat
  order_perm : ∀ batch threads,
    (order batch threads).Perm (List.range threads)

/-- Some checked library call fails. -/
def Env.Faulty (env : Env) : Prop := ∃ site, env.fails site = true

/-- An environment in which every library call succeeds. -/
structure ReliableEnv extends Env where
  fails_eq_false : ∀ site, fails site = false

theorem ReliableEnv.not_faulty (env : ReliableEnv) : ¬ env.Faulty := by
  rintro ⟨site, hsite⟩
  rw [env.fails_eq_false site] at hsite
  cases hsite

/-- Nothing fails and the threads finish in the order of their indexes. -/
def inOrderEnv : ReliableEnv where
  fails _ := false
  order _ threads := List.range threads
  order_perm _ _ := List.Perm.refl _
  fails_eq_false _ := rfl

/-- Why a file function stops: it returns a code, it does something C gives no
meaning, or a bound on its iterations is used up. -/
inductive Exit where
  | ret (code : Int)
  | undefined
  | outOfFuel
deriving Repr, DecidableEq

inductive Stream where
  | out
  | header
  | reader (batch thread : Nat)
deriving Repr, DecidableEq

/-- What a file function does to its streams and threads. -/
inductive Event where
  | opened (stream : Stream)
  | closed (stream : Stream)
  | created (batch thread : Nat)
  | ran (batch thread : Nat)
  | joined (batch thread : Nat)
deriving Repr, DecidableEq

/-- The state of a file function: the bytes of its output file, every block
and length it handed to `fwrite`, and its stream and thread events. -/
structure IoState where
  out : Bytes
  writes : List (Buffer × Nat)
  log : List Event
deriving Repr, DecidableEq

abbrev Prog (α : Type) := EStateM Exit IoState α

/-- All bytes that `fwrite` was given, those of a call that failed included. -/
def IoState.handed (s : IoState) : Bytes :=
  s.writes.flatMap fun block => (block.1.load 0 block.2).getD []

/-- What can have come into the output file: a beginning of what was written, where a
call of `fwrite` that failed may still have written some of its bytes. -/
def IoState.MayHold (s : IoState) (bs : Bytes) : Prop := bs <+: s.out ∨ bs <+: s.handed

/-- The state in which `fopen(output_fp, "wb")` leaves the output file. -/
def IoState.empty : IoState := ⟨[], [], []⟩

/-- The value an `int` function returns, if it returns. -/
def exitCode : EStateM.Result Exit IoState PUnit → Option Int
  | .ok _ _ => some 0
  | .error (.ret code) _ => some code
  | .error _ _ => none

/-- The state in which a run ends. -/
def finalState {α : Type} : EStateM.Result Exit IoState α → IoState
  | .ok _ s => s
  | .error _ s => s

def emit (event : Event) : Prog PUnit :=
  modify fun s => { s with log := s.log ++ [event] }

/-- `if (c) return -1;` -/
def returnIf (c : Bool) : Prog PUnit := exitIf c (.ret (-1))

/-- `fwrite(buf, len, 1, out)`: no item when the length is zero, one item when
the write succeeds. -/
def fwrite (fails : Bool) (buf : Buffer) (len : Nat) : Prog Nat := do
  modify fun s => { s with writes := s.writes ++ [(buf, len)] }
  if len = 0 then
    pure 0
  else
    match buf.load 0 len with
    | none => throw .undefined
    | some bs =>
        if fails then
          pure 0
        else do
          modify fun s => { s with out := s.out ++ bs }
          pure 1

/-- `if (1 != fwrite(buf, len, 1, out)) return -1;` -/
def fwriteItem (fails : Bool) (buf : Buffer) (len : Nat) : Prog PUnit := do
  let written ← fwrite fails buf len
  returnIf (written != 1)

/-- An assertion about the output file and the calls of `fwrite`; the event
log is left open. -/
def OutIs (o : Bytes) (W : List (Buffer × Nat) → Prop) (s : IoState) : Prop :=
  s.out = o ∧ W s.writes

/-- An assertion about the output file alone. -/
abbrev Written (o : Bytes) : IoState → Prop := OutIs o fun _ => True

/-- An assertion that leaves the event log open. -/
def LogFree (P : IoState → Prop) : Prop :=
  ∀ s log, P s → P { s with log := log }

section Rules

variable {o : Bytes} {W W' : List (Buffer × Nat) → Prop}
  {P : IoState → Prop} {E : Exit → IoState → Prop}

theorem logFree_outIs : LogFree (OutIs o W) := fun _ _ hs => hs

theorem logFree_const (p : Prop) : LogFree fun _ => p := fun _ _ hp => hp

theorem triple_emit (hP : LogFree P) (event : Event) :
    Triple P (emit event) (fun _ => P) E :=
  Triple.modify fun s hs => hP s _ hs

/-- A check that makes the function return `-1`. -/
theorem triple_returnIf {c : Bool} (hret : c = true → ∀ s, E (.ret (-1)) s) :
    Triple P (returnIf c) (fun _ s => c = false ∧ P s) E := by
  apply Triple.exitIf
  · intro hc s _
    exact hret hc s
  · intro hfalls s hs
    exact ⟨hfalls, hs⟩

/-- A library call whose failure makes the function return `-1`. -/
theorem triple_call {env : Env} (hfault : env.Faulty → ∀ s, E (.ret (-1)) s)
    (site : CallSite) :
    Triple P (returnIf (env.fails site)) (fun _ => P) E :=
  (triple_returnIf fun hfails => hfault ⟨site, hfails⟩).post fun _ _ hs => hs.2

/-- `fwrite` of an initialised block: one item, or none when it fails. -/
theorem fwrite_run {fails : Bool} {buf : Buffer} {len : Nat} {bs : Bytes}
    (hlen : len ≠ 0) (hload : buf.load 0 len = some bs) (s : IoState) :
    fwrite fails buf len s = .ok (if fails then 0 else 1)
      { s with writes := s.writes ++ [(buf, len)],
               out := s.out ++ if fails then [] else bs } := by
  unfold fwrite
  simp only [hlen, ↓reduceIte, hload]
  cases fails with
  | true => simp [bind, EStateM.bind, modify, modifyGet, MonadStateOf.modifyGet,
      EStateM.modifyGet, pure, EStateM.pure]
  | false => rfl

/-- The three ways `fwrite` of one item goes. -/
theorem fwriteItem_run (fails : Bool) (buf : Buffer) (len : Nat) (s : IoState) :
    fwriteItem fails buf len s =
      let s' := { s with writes := s.writes ++ [(buf, len)] }
      if len = 0 then .error (.ret (-1)) s'
      else
        match buf.load 0 len with
        | none => .error .undefined s'
        | some bs =>
            if fails then .error (.ret (-1)) s'
            else .ok ⟨⟩ { s' with out := s'.out ++ bs } := by
  unfold fwriteItem
  by_cases hlen : len = 0
  · subst hlen
    rfl
  · simp only [hlen, ↓reduceIte]
    cases hload : buf.load 0 len with
    | none =>
        apply bind_of_error
        simp only [fwrite, hlen, ↓reduceIte, hload]
        rfl
    | some bs =>
        rw [bind_of_ok (fwrite_run hlen hload s)]
        cases fails with
        | true =>
            simp only [↓reduceIte, List.append_nil]
            rfl
        | false => rfl

/-- A call of `fwrite` whose result is looked at later. -/
theorem triple_fwrite {fails : Bool} {buf : Buffer} {len : Nat} {bs : Bytes}
    (hlen : 0 < len) (hload : buf.load 0 len = some bs) :
    Triple (Written o) (fwrite fails buf len)
      (fun n s => n = 1 ∧ Written (o ++ bs) s ∨ n ≠ 1 ∧ fails = true) E := by
  constructor
  intro s hs
  rw [fwrite_run (Nat.ne_of_gt hlen) hload]
  cases fails with
  | true => exact .inr ⟨by decide, rfl⟩
  | false => exact .inl ⟨rfl, congrArg (· ++ bs) hs.1, trivial⟩

/-- A nonempty initialised block is appended, unless the write fails. -/
theorem triple_fwriteItem {fails : Bool} {buf : Buffer} {len : Nat} {bs : Bytes}
    (hlen : 0 < len) (hload : buf.load 0 len = some bs)
    (hwrite : ∀ ws, W ws → W' (ws ++ [(buf, len)]))
    (hexit : fails = true → ∀ s, OutIs o W' s → E (.ret (-1)) s) :
    Triple (OutIs o W) (fwriteItem fails buf len)
      (fun _ => OutIs (o ++ bs) W') E := by
  constructor
  intro s hs
  rw [fwriteItem_run]
  simp only [Nat.ne_of_gt hlen, ↓reduceIte, hload]
  cases fails with
  | true => exact hexit rfl _ ⟨hs.1, hwrite _ hs.2⟩
  | false => exact ⟨congrArg (· ++ bs) hs.1, hwrite _ hs.2⟩

theorem triple_write {fails : Bool} {buf : Buffer} {len : Nat} {bs : Bytes}
    (hlen : 0 < len) (hload : buf.load 0 len = some bs)
    (hexit : fails = true → ∀ s, E (.ret (-1)) s) :
    Triple (Written o) (fwriteItem fails buf len)
      (fun _ => Written (o ++ bs)) E :=
  triple_fwriteItem hlen hload (fun _ _ => trivial) fun hfails s _ =>
    hexit hfails s

/-- Writing an item of length zero is taken for a failed write. -/
theorem triple_fwriteItem_empty {fails : Bool} {buf : Buffer}
    (hexit : ∀ s, E (.ret (-1)) s) {Q : PUnit → IoState → Prop} :
    Triple P (fwriteItem fails buf 0) Q E := by
  constructor
  intro s _
  rw [fwriteItem_run]
  exact hexit _

/-- Writing bytes that were never stored has no meaning. -/
theorem triple_fwriteItem_undefined {fails : Bool} {buf : Buffer} {len : Nat}
    (hlen : 0 < len) (hload : buf.load 0 len = none)
    (hundef : ∀ s, E .undefined s) {Q : PUnit → IoState → Prop} :
    Triple P (fwriteItem fails buf len) Q E := by
  constructor
  intro s _
  rw [fwriteItem_run]
  simp only [Nat.ne_of_gt hlen, ↓reduceIte, hload]
  exact hundef _

variable {x : Prog PUnit} {Q : PUnit → IoState → Prop} {s : IoState}

/-- What holds when a program falls through holds when it returns zero. -/
theorem exitCode_zero_imp (h : Triple P x Q E) (hs : P s)
    (hE : ∀ s, ¬ E (.ret 0) s) (hcode : exitCode (x s) = some 0) :
    Q ⟨⟩ (finalState (x s)) := by
  have hx := h.run s hs
  cases hrun : x s with
  | ok a s' =>
      rw [hrun] at hx
      exact hx
  | error e s' =>
      rw [hrun] at hx hcode
      cases e with
      | ret code =>
          obtain rfl : code = 0 := Option.some.inj hcode
          exact absurd hx (hE s')
      | undefined => cases hcode
      | outOfFuel => cases hcode

/-- A program that cannot leave early returns zero. -/
theorem exitCode_zero (h : Triple P x Q E) (hs : P s) (hE : ∀ e s, ¬ E e s) :
    exitCode (x s) = some 0 ∧ Q ⟨⟩ (finalState (x s)) := by
  have hx := h.run s hs
  cases hrun : x s with
  | ok a s' =>
      rw [hrun] at hx
      exact ⟨rfl, hx⟩
  | error e s' =>
      rw [hrun] at hx
      exact absurd hx (hE e s')

/-- A program that only leaves through what C gives no meaning returns
nothing. -/
theorem exitCode_none
    (h : Triple P x (fun _ _ => False) fun e _ => e = .undefined) (hs : P s) :
    exitCode (x s) = none := by
  have hx := h.run s hs
  cases hrun : x s with
  | ok a s' =>
      rw [hrun] at hx
      exact hx.elim
  | error e s' =>
      rw [hrun] at hx
      rw [hx]
      rfl

end Rules

/-- Leaving early is explained by a failed library call. -/
def FaultOnly (env : Env) : Exit → IoState → Prop :=
  fun e _ => e = .ret (-1) ∧ env.Faulty

theorem faultOnly_ret {env : Env} (h : env.Faulty) (s : IoState) :
    FaultOnly env (.ret (-1)) s := ⟨rfl, h⟩

/-- Leaving early is not returning zero. -/
def NonZero : Exit → IoState → Prop := fun e _ => e ≠ .ret 0

theorem nonZero_ret (s : IoState) : NonZero (.ret (-1)) s := by
  simp [NonZero]

theorem nonZero_undefined (s : IoState) : NonZero .undefined s := by
  simp [NonZero]

theorem written_empty : Written [] IoState.empty := ⟨rfl, trivial⟩

end EcFtp
