/-
The streams the four file functions have open when they return.  The three that run over
batches close all of them just if nothing fails; `uncomp_file` never closes the stream it
reads its headers from.
-/
import EcFtp.StreamBalance

namespace EcFtp

open ByteStrings Exec WorkerOrder

section Stages

variable {p : ThreadPlan} {env : Env} {stSize : Int} {input : Option Bytes} {b t : Nat}

/-- The reader of one thread can be opened. -/
def CanOpen (env : Env) (input : Option Bytes) (b t : Nat) : Prop :=
  input.isSome = true ∧ env.fails (.fopenReader b t) = false

/-- The reader of a thread that starts to read at `pos`. -/
def readerAt (input : Option Bytes) (pos : Int) : FILE :=
  (FILE.ofData (input.getD [])).seekSet pos

theorem decided_openReader (pos : Int) (b t : Nat) :
    Decided (openReader env input pos b t) (CanOpen env input b t) (readerAt input pos)
      [.opened (.reader b t)] := by
  cases input with
  | none => exact (Decided.throw _ _ _).congr (by simp [CanOpen])
  | some data =>
      refine Decided.congr ((Decided.returnIf _).bind fun _ =>
        (Decided.emit _).bind fun _ => Decided.pure _) ?_
      simp [CanOpen]

/-- Nothing that STA1 to STA4 of `comp_file` call fails. -/
def CanSetComp (p : ThreadPlan) (env : Env) (stSize : Int) (input : Option Bytes)
    (b t : Nat) : Prop :=
  CanOpen env input b t ∧ env.fails (.mallocProps b t) = false ∧
    env.fails (.mallocInbuf b t (p.irReadlen stSize b t)) = false ∧
    env.fails (.mallocOutbuf b t
      (compCapacity p (p.isLast stSize b t) (p.irReadlen stSize b t))) = false

/-- The slot STA1 to STA4 of `comp_file` leave. -/
def compArgs (p : ThreadPlan) (stSize : Int) (input : Option Bytes) (b t : Nat) :
    CompThreadArgs where
  inputReader := readerAt input (p.seekOffset b t)
  inbuf := malloc (p.irReadlen stSize b t)
  irReadlen := p.irReadlen stSize b t
  props := malloc lzmaPropsSize
  propsLen := lzmaPropsSize
  outbuf := some (malloc (compCapacity p (p.isLast stSize b t) (p.irReadlen stSize b t)))
  outbufLen := compCapacity p (p.isLast stSize b t) (p.irReadlen stSize b t)
  echeader := none
  returnVal := none

theorem decided_setCompArgs (b t : Nat) :
    Decided (setCompArgs p env stSize input b t) (CanSetComp p env stSize input b t)
      (compArgs p stSize input b t) [.opened (.reader b t)] := by
  refine Decided.congr ((decided_openReader _ b t).bind fun _ =>
    (Decided.returnIf _).bind fun _ => (Decided.returnIf _).bind fun _ =>
      (Decided.returnIf _).bind fun _ => Decided.pure _) ?_
  simp [CanSetComp]

/-- Nothing that STA1 to STA4 of `enc_file` and `dec_file` call fails. -/
def CanSetCrypt (p : ThreadPlan) (env : Env) (stSize : Int) (input : Option Bytes)
    (allocLen : Bool → Nat → Nat) (b t : Nat) : Prop :=
  CanOpen env input b t ∧
    env.fails (.mallocInbuf b t (p.irReadlen stSize b t)) = false ∧
    env.fails (.mallocOutbuf b t
      (allocLen (p.isLast stSize b t) (p.irReadlen stSize b t))) = false

/-- The slot STA1 to STA4 of `enc_file` and `dec_file` leave. -/
def cryptArgs (p : ThreadPlan) (stSize : Int) (input : Option Bytes) (avars : EncAesVars)
    (allocLen : Bool → Nat → Nat) (padded : Bool → Option Int) (b t : Nat) :
    EncThreadArgs where
  inputReader := readerAt input (p.seekOffset b t)
  inbuf := malloc (p.irReadlen stSize b t)
  irReadlen := p.irReadlen stSize b t
  outbuf := malloc (allocLen (p.isLast stSize b t) (p.irReadlen stSize b t))
  outbufLen := p.irReadlen stSize b t
  padded := padded (p.isLast stSize b t)
  aesVars := avars
  returnVal := none

theorem decided_setEncArgs {avars : EncAesVars} {allocLen : Bool → Nat → Nat}
    {padded : Bool → Option Int} (b t : Nat) :
    Decided (setEncArgs p env stSize input avars allocLen padded b t)
      (CanSetCrypt p env stSize input allocLen b t)
      (cryptArgs p stSize input avars allocLen padded b t) [.opened (.reader b t)] := by
  refine Decided.congr ((decided_openReader _ b t).bind fun _ =>
    (Decided.returnIf _).bind fun _ => (Decided.returnIf _).bind fun _ => Decided.pure _)
      ?_
  simp [CanSetCrypt]

/-- The field of a header is written, or the code is not zero. -/
theorem decided_fwriteField {fails : Bool} {field : Bytes} {code : Int} {next : Prog Int}
    {q : Prop} (hfield : field ≠ []) (hcode : code ≠ 0)
    (hnext : Decided (next >>= fun res => returnIf (res != 0)) q ⟨⟩ []) :
    Decided (fwriteField fails field code next >>= fun res => returnIf (res != 0))
      (fails = false ∧ q) ⟨⟩ [] := by
  have hlen : field.length ≠ 0 := fun h => hfield (List.length_eq_zero_iff.mp h)
  have hrun : ∀ s, ∃ s', fwrite fails (filled field 0) field.length s =
      .ok (if fails then 0 else 1) s' ∧ s'.log = s.log :=
    fun s => ⟨_, fwrite_run hlen (load_filled_all field 0) s, rfl⟩
  constructor
  · rintro ⟨rfl, hq⟩ s
    obtain ⟨s₁, hwrite, hlog₁⟩ := hrun s
    obtain ⟨s₂, hrest, hlog₂⟩ := hnext.falls hq s₁
    refine ⟨s₂, ?_, by rw [hlog₂, hlog₁]⟩
    rw [fwriteField, bind_assoc, bind_of_ok hwrite]
    exact hrest
  · intro hnot s
    obtain ⟨s₁, hwrite, _⟩ := hrun s
    rw [fwriteField, bind_assoc, bind_of_ok hwrite]
    cases fails with
    | true =>
        have hexit : returnIf (code != 0) s₁ = .error (.ret (-1)) s₁ := by
          have hc : (code != 0) = true := by simpa using hcode
          rw [hc]
          rfl
        exact ⟨_, s₁, hexit⟩
    | false => exact hnext.stops (fun hq => hnot ⟨rfl, hq⟩) s₁

theorem decided_writeEcHeader (fails : Nat → Bool) (h : EcHeader) :
    Decided (writeEcHeader fails h >>= fun res => returnIf (res != 0))
      (∀ field < 3, fails field = false) ⟨⟩ [] := by
  have hend :
      Decided ((pure 0 : Prog Int) >>= fun res => returnIf (res != 0)) True ⟨⟩ [] :=
    Decided.pure PUnit.unit
  refine Decided.congr (decided_fwriteField (by simp [le]) (by decide)
    (decided_fwriteField (by simp [le]) (by decide)
      (decided_fwriteField (by simp [le]) (by decide) hend))) ?_
  constructor
  · rintro ⟨h0, h1, h2, _⟩ field hfield
    interval_cases field
    · exact h0
    · exact h1
    · exact h2
  · intro hall
    exact ⟨hall 0 (by decide), hall 1 (by decide), hall 2 (by decide), trivial⟩

/-- Nothing that MUTW of `comp_file` calls for the slot `a` fails. -/
def CanUseComp (env : Env) (b t : Nat) (a : CompThreadArgs) : Prop :=
  a.echeader.isSome = true ∧
    (∀ field < 3, env.fails (.fwriteHeader b t field) = false) ∧
    ∃ outbuf, a.outbuf = some outbuf ∧
      if a.storedRaw then Writes (env.fails (.fwriteData b t)) a.inbuf a.irReadlen
      else Writes (env.fails (.fwriteProps b t)) a.props a.propsLen ∧
        Writes (env.fails (.fwriteData b t)) outbuf a.outbufLen

theorem decided_writeChunk (b t : Nat) (a : CompThreadArgs) (outbuf : Buffer) :
    Decided (writeChunk env b t a outbuf)
      (if a.storedRaw then Writes (env.fails (.fwriteData b t)) a.inbuf a.irReadlen
      else Writes (env.fails (.fwriteProps b t)) a.props a.propsLen ∧
        Writes (env.fails (.fwriteData b t)) outbuf a.outbufLen) ⟨⟩ [] := by
  unfold writeChunk
  split
  · exact Decided.fwriteItem _ _ _
  · exact (Decided.fwriteItem _ _ _).bind fun _ => Decided.fwriteItem _ _ _

theorem decided_useCompWork (b t : Nat) (a : CompThreadArgs) :
    Decided (useCompWork env b t a) (CanUseComp env b t a) ⟨⟩
      [.closed (.reader b t)] := by
  unfold useCompWork CanUseComp
  cases a.echeader with
  | none => exact (Decided.throw _ _ _).congr (by simp)
  | some h =>
      cases a.outbuf with
      | none => exact (Decided.throw _ _ _).congr (by simp)
      | some outbuf =>
          have hwrites :
              Decided ((writeEcHeader (fun field => env.fails (.fwriteHeader b t field))
                h >>= fun res => returnIf (res != 0)) >>= fun _ =>
              writeChunk env b t a outbuf >>=
                fun _ => emit (.closed (.reader b t))) _ ⟨⟩ _ :=
            (decided_writeEcHeader _ h).bind fun _ =>
              (decided_writeChunk b t a outbuf).bind fun _ => Decided.emit _
          rw [bind_assoc] at hwrites
          refine hwrites.congr ?_
          simp

/-- The padding of `enc_file` is written, where there is one to write. -/
def CanPad (p : ThreadPlan) (env : Env) (stSize : Int) (b t : Nat) (a : EncThreadArgs) :
    Prop :=
  p.isLast stSize b t = true → ∃ padded, a.padded = some padded ∧
    (padded ≠ 1 → env.fails (.fwritePadding b t) = false)

theorem decided_addPadding (b t : Nat) (a : EncThreadArgs) :
    Decided (addPadding p env stSize b t a) (CanPad p env stSize b t a) ⟨⟩ [] := by
  unfold addPadding CanPad
  by_cases hlast : p.isLast stSize b t = true
  · rw [if_pos hlast]
    cases a.padded with
    | none => exact (Decided.throw _ _ _).congr (by simp [hlast])
    | some padded =>
        by_cases hone : padded = 1
        · subst hone
          exact (Decided.pure _).congr (by simp)
        · have hload := load_filled_all
            (encrypt (Vector.replicate 16 16) a.aesVars.rkeys a.aesVars.sbox).toList 0
          rw [Vector.length_toList] at hload
          simp only [ne_eq, hone, not_false_eq_true, ↓reduceIte]
          refine (Decided.fwriteItem _ _ _).congr ?_
          simp [Writes, hlast, hone, hload]
  · rw [if_neg hlast]
    exact (Decided.pure _).congr (by simp [hlast])

/-- Nothing that MUTW of `enc_file` calls for the slot `a` fails. -/
def CanUseEnc (p : ThreadPlan) (env : Env) (stSize : Int) (b t : Nat)
    (a : EncThreadArgs) :
    Prop :=
  Writes (env.fails (.fwriteData b t)) a.outbuf a.outbufLen ∧ CanPad p env stSize b t a

theorem decided_useEncWork (b t : Nat) (a : EncThreadArgs) :
    Decided (useEncWork p env stSize b t a) (CanUseEnc p env stSize b t a) ⟨⟩
      [.closed (.reader b t)] := by
  refine Decided.congr ((Decided.fwriteItem _ _ _).bind fun _ =>
    (decided_addPadding b t a).bind fun _ => Decided.emit _) ?_
  rw [and_true]
  rfl

/-- Nothing that MUTW of `dec_file` calls for the slot `a` fails. -/
def CanUseDec (env : Env) (b t : Nat) (a : EncThreadArgs) : Prop :=
  Writes (env.fails (.fwriteData b t)) a.outbuf a.outbufLen

theorem decided_useDecWork (b t : Nat) (a : EncThreadArgs) :
    Decided (useDecWork env b t a) (CanUseDec env b t a) ⟨⟩ [.closed (.reader b t)] := by
  refine Decided.congr ((Decided.fwriteItem _ _ _).bind fun _ => Decided.emit _) ?_
  rw [and_true]
  rfl

end Stages

section Files

variable {p : ThreadPlan} {lzma : Lzma} {env : Env} {stSize : Int} {input : Option Bytes}
  {avars : EncAesVars}

theorem jobSteps_comp :
    JobSteps (compJob p lzma env stSize input) (compArgs p stSize input)
      (CanSetComp p env stSize input) (CanUseComp env) :=
  ⟨decided_setCompArgs, decided_useCompWork⟩

/-- The slot of `enc_file`. -/
def encArgs (p : ThreadPlan) (stSize : Int) (input : Option Bytes) (avars : EncAesVars) :
    Nat → Nat → EncThreadArgs :=
  cryptArgs p stSize input avars (encAllocLen p) fun _ => none

theorem jobSteps_enc :
    JobSteps (encJob p env stSize input avars) (encArgs p stSize input avars)
      (CanSetCrypt p env stSize input (encAllocLen p)) (CanUseEnc p env stSize) :=
  ⟨@decided_setEncArgs p env stSize input avars (encAllocLen p) fun _ => none,
    decided_useEncWork⟩

/-- The size of `outbuf` in `dec_file`. -/
def decAllocLen (p : ThreadPlan) (last : Bool) (irReadlen : Nat) : Nat :=
  if last then irReadlen else p.threadMaxMem

/-- The slot of `dec_file`. -/
def decArgs (p : ThreadPlan) (stSize : Int) (input : Option Bytes) (avars : EncAesVars) :
    Nat → Nat → EncThreadArgs :=
  cryptArgs p stSize input avars (decAllocLen p) fun last => some (if last then 1 else 0)

theorem jobSteps_dec :
    JobSteps (decJob p env stSize input avars) (decArgs p stSize input avars)
      (CanSetCrypt p env stSize input (decAllocLen p)) (CanUseDec env) :=
  ⟨@decided_setEncArgs p env stSize input avars (decAllocLen p)
    fun last => some (if last then 1 else 0), decided_useDecWork⟩

/-- Nothing in the batches of `comp_file` fails. -/
def CompSucceeds (lzma : Lzma) (env : Env) (stSize : Int) (input : Option Bytes) : Prop :=
  let p := compPlan.toThreadPlan
  ∀ b < p.numBatches stSize, BatchSucceeds p env stSize (compJob p lzma env stSize input)
    (compArgs p stSize input) (CanSetComp p env stSize input) (CanUseComp env) b

/-- Nothing in the batches of `enc_file` fails. -/
def EncSucceeds (env : Env) (stSize : Int) (input : Option Bytes) (key : Key) : Prop :=
  let p := encPlan.toThreadPlan
  ∀ avars, encAesVars key = some avars → ∀ b < p.numBatches stSize,
    BatchSucceeds p env stSize (encJob p env stSize input avars)
      (encArgs p stSize input avars)
      (CanSetCrypt p env stSize input (encAllocLen p)) (CanUseEnc p env stSize) b

/-- Nothing in the batches of `dec_file` fails. -/
def DecSucceeds (env : Env) (stSize : Int) (input : Option Bytes) (key : Key) : Prop :=
  let p := encPlan.toThreadPlan
  ∀ avars, encAesVars key = some avars → ∀ b < p.numBatches stSize,
    BatchSucceeds p env stSize (decJob p env stSize input avars)
      (decArgs p stSize input avars)
      (CanSetCrypt p env stSize input (decAllocLen p)) (CanUseDec env) b

theorem compFile_balancedIff :
    ReturnsBalancedIff (compFile lzma env stSize input)
      (env.fails .fopenOut = true ∨ CompSucceeds lzma env stSize input) :=
  aroundBatches_balancedIff jobSteps_comp readersOnly_comp

theorem encFile_balancedIff (key : Key) :
    ReturnsBalancedIff (encFile env stSize input key)
      (env.fails .fopenOut = true ∨ EncSucceeds env stSize input key) := by
  obtain ⟨avars, havars, _⟩ := encAesVars_inverse key
  simp only [encFile, encFileWith, cryptFile, EncSucceeds, havars,
    Option.some.injEq, forall_eq']
  exact aroundBatches_balancedIff jobSteps_enc (readersOnly_enc avars)

theorem decFile_balancedIff (key : Key) :
    ReturnsBalancedIff (decFile env stSize input key)
      (env.fails .fopenOut = true ∨ DecSucceeds env stSize input key) := by
  obtain ⟨avars, havars, _⟩ := encAesVars_inverse key
  simp only [decFile, decFileWith, cryptFile, DecSucceeds, havars,
    Option.some.injEq, forall_eq']
  exact aroundBatches_balancedIff jobSteps_dec (readersOnly_dec avars)

/-- The stream of `uncomp_file` that reads the headers is opened first, and what follows
does not close it. -/
theorem uncompFile_balancedIff :
    ReturnsBalancedIff (uncompFile lzma env stSize input)
      (input = none ∨ env.fails .fopenIn = true) := by
  intro code _
  cases input with
  | none => exact iff_of_true balanced_nil (.inl rfl)
  | some data =>
      unfold uncompFile
      cases hopen : env.fails .fopenIn with
      | true => exact iff_of_true balanced_nil (.inr rfl)
      | false =>
          have hrest : Adds (· ≠ .closed .header) (do
              returnIf (env.fails .fopenOut)
              emit (.opened .out)
              uncompLoop lzma env data (data.length + 1) 0 ⟨.ofData data, stSize, 0⟩
              emit (.closed .out)) := by
            refine (Adds.returnIf _).bind fun _ => (Adds.emit (by simp)).bind fun _ => ?_
            refine ((adds_uncompLoop _ _ _).mono
              fun e he => (batchEvent_ne_out he).2).bind
              fun _ => Adds.emit (by simp)
          obtain ⟨es, hlog, hes⟩ := hrest ⟨[], [], [.opened .header]⟩
          have hclosed : .closed .header ∉ es := fun hmem => hes _ hmem rfl
          refine iff_of_false (@not_balanced_of_open _ .header ?_ ?_) (by simp)
          · exact hlog ▸ List.mem_append_left _ (List.mem_singleton.mpr rfl)
          · exact hlog ▸ by simpa using hclosed

end Files

/-- The functions over batches close what they open just if nothing fails once their
output is open; `uncomp_file` does so just if it cannot open its input. -/
theorem streams_balancedIff (lzma : Lzma) (env : Env) (stSize : Int)
    (input : Option Bytes)
    (key : Key) :
    ReturnsBalancedIff (compFile lzma env stSize input)
        (env.fails .fopenOut = true ∨ CompSucceeds lzma env stSize input) ∧
      ReturnsBalancedIff (uncompFile lzma env stSize input)
        (input = none ∨ env.fails .fopenIn = true) ∧
      ReturnsBalancedIff (encFile env stSize input key)
        (env.fails .fopenOut = true ∨ EncSucceeds env stSize input key) ∧
      ReturnsBalancedIff (decFile env stSize input key)
        (env.fails .fopenOut = true ∨ DecSucceeds env stSize input key) :=
  ⟨compFile_balancedIff, uncompFile_balancedIff, encFile_balancedIff key,
    decFile_balancedIff key⟩

/-- A record of the byte `a`, which is stored as it is. -/
def recordOfA : Bytes := [0, 1, 0, 0, 0, 0, 0, 0, 0, 1, 0, 0, 0, 0, 0, 0, 0, 97]

/-- The first reader of a file cannot be opened. -/
def noReaderEnv : Env := { inOrderEnv.toEnv with fails := (· == .fopenReader 0 0) }

/-- `uncomp_file` writes out a record and returns zero with its input open; `comp_file`
without a reader returns with its output open. -/
theorem streams_notBalanced :
    (exitCode (uncompFile .storing inOrderEnv.toEnv 18 (some recordOfA) .empty) = some 0 ∧
        (finalState
          (uncompFile .storing inOrderEnv.toEnv 18 (some recordOfA) .empty)).log =
          [.opened .header, .opened .out, .opened (.reader 0 0), .ran 0 0,
            .closed (.reader 0 0), .closed .out] ∧
        ¬ Balanced (finalState
          (uncompFile .storing inOrderEnv.toEnv 18 (some recordOfA) .empty)).log) ∧
      exitCode (compFile .storing noReaderEnv 1 (some [97]) .empty) = some (-1) ∧
        (finalState (compFile .storing noReaderEnv 1 (some [97]) .empty)).log =
          [.opened .out] ∧
        ¬ Balanced
          (finalState (compFile .storing noReaderEnv 1 (some [97]) .empty)).log := by
  have huncomp : (finalState
      (uncompFile .storing inOrderEnv.toEnv 18 (some recordOfA) .empty)).log =
        [.opened .header, .opened .out, .opened (.reader 0 0), .ran 0 0,
          .closed (.reader 0 0), .closed .out] := by
    decide +kernel
  have hcomp : (finalState (compFile .storing noReaderEnv 1 (some [97]) .empty)).log =
      [.opened .out] := by
    decide +kernel
  refine ⟨⟨by decide +kernel, huncomp, ?_⟩, by decide +kernel, hcomp, ?_⟩
  · rw [huncomp]
    exact @not_balanced_of_open _ .header (by decide) (by decide)
  · rw [hcomp]
    exact @not_balanced_of_open _ .out (by decide) (by decide)

end EcFtp
