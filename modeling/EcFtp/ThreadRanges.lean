/-
The ranges of a file the threads are to read, batch after batch: they lie end to
end, and only the last one is not a whole chunk.
-/
import EcFtp.CompFile
import EcFtp.EncFile
import EcFtp.Tiling

namespace EcFtp

open Tiling Exec

namespace ThreadPlan

variable (p : ThreadPlan) (stSize : Int)

/-- Where a thread starts to read, and how much it is to read. -/
def threadRange (batchIndex threadIndex : Nat) : Int × Nat :=
  (p.seekOffset batchIndex threadIndex, p.irReadlen stSize batchIndex threadIndex)

end ThreadPlan

section Ranges

variable {p : ValidPlan} {n b t : Nat}

end Ranges

section Readers

variable {p : ValidPlan} {env : Env} {stSize : Int} {data : Bytes} {b t : Nat}

theorem triple_openReader_range :
    Triple (fun _ => True) (openReader env (some data) (p.seekOffset b t) b t)
      (fun f _ => f.pos = p.seekOffset b t) fun _ _ => True := by
  refine (triple_openReader (logFree_const True) (fun _ _ => trivial) _).post ?_
  rintro f s ⟨rfl, _⟩
  rw [p.seekOffset_eq, seekSet_of_nat]

/-- `comp_file` puts the reader of a thread where its range starts, and has it read
what the range holds. -/
theorem triple_setCompArgs_range :
    Triple (fun _ => True) (setCompArgs p.toThreadPlan env stSize (some data) b t)
      (fun a _ => ((a.inputReader.pos : Int), a.irReadlen) = p.threadRange stSize b t)
      fun _ _ => True := by
  refine Triple.bind triple_openReader_range fun f => ?_
  refine Triple.bind (triple_returnIf fun _ _ => trivial)
    fun _ => Triple.assume fun _ => ?_
  refine Triple.bind (triple_returnIf fun _ _ => trivial)
    fun _ => Triple.assume fun _ => ?_
  refine Triple.bind (triple_returnIf fun _ _ => trivial)
    fun _ => Triple.assume fun _ => ?_
  exact Triple.pure fun s hs => Prod.ext hs rfl

/-- So do `enc_file` and `dec_file`. -/
theorem triple_setEncArgs_range {avars : EncAesVars} {allocLen : Bool → Nat → Nat}
    {padded : Bool → Option Int} :
    Triple (fun _ => True)
      (setEncArgs p.toThreadPlan env stSize (some data) avars allocLen padded b t)
      (fun a _ => ((a.inputReader.pos : Int), a.irReadlen) = p.threadRange stSize b t)
      fun _ _ => True := by
  refine Triple.bind triple_openReader_range fun f => ?_
  refine Triple.bind (triple_returnIf fun _ _ => trivial)
    fun _ => Triple.assume fun _ => ?_
  refine Triple.bind (triple_returnIf fun _ _ => trivial)
    fun _ => Triple.assume fun _ => ?_
  exact Triple.pure fun s hs => Prod.ext hs rfl

end Readers

end EcFtp
