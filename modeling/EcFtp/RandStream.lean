/-
Programs that draw numbers from a seeded stream.  A program may look at the clock and
give the stream another seed; what it draws is the stream of the seed given last, from
its beginning.
-/
import Mathlib

namespace RandStream

variable {τ σ ν α β : Type}

/-- What a program asks for: the time, another seed, the next number. -/
inductive Rand (τ σ ν α : Type) where
  | done (a : α)
  | time (next : τ → Rand τ σ ν α)
  | srand (seed : σ) (next : Rand τ σ ν α)
  | rand (next : ν → Rand τ σ ν α)

def Rand.bind : Rand τ σ ν α → (α → Rand τ σ ν β) → Rand τ σ ν β
  | .done a, f => f a
  | .time next, f => .time fun t => (next t).bind f
  | .srand seed next, f => .srand seed (next.bind f)
  | .rand next, f => .rand fun v => (next v).bind f

instance : Monad (Rand τ σ ν) where
  pure := .done
  bind := Rand.bind

/-- The seed given last, and how many numbers have been drawn since. -/
@[ext] structure Position (σ : Type) where
  seed : σ
  drawn : Nat
deriving Repr, DecidableEq

/-- A run of a program that is started at `now`. -/
def Rand.run (stream : σ → Nat → ν) (now : τ) : Rand τ σ ν α → Position σ → α × Position σ
  | .done a, s => (a, s)
  | .time next, s => (next now).run stream now s
  | .srand seed next, _ => next.run stream now ⟨seed, 0⟩
  | .rand next, s =>
      (next (stream s.seed s.drawn)).run stream now { s with drawn := s.drawn + 1 }

/-- A sequence goes on where its first part has left the stream. -/
theorem run_bind {stream : σ → Nat → ν} {now : τ} (p : Rand τ σ ν α)
    (f : α → Rand τ σ ν β) (s : Position σ) :
    (p >>= f).run stream now s =
      (f (p.run stream now s).1).run stream now (p.run stream now s).2 := by
  induction p generalizing s with
  | done a => rfl
  | time next ih => exact ih now s
  | srand seed next ih => exact ih ⟨seed, 0⟩
  | rand next ih => exact ih (stream s.seed s.drawn) { s with drawn := s.drawn + 1 }

end RandStream
