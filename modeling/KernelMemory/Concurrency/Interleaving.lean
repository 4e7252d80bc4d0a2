/-!
# Interleaved contexts

Contexts act on something that they share, each in steps that happen as one. A schedule says
which context takes the next step; where it names none, nothing happens. Every step sees what
all the steps before it have done.

Two things are left out. One is what a processor has to do so that single accesses to memory
are seen in one order by everybody. The other is who makes the schedule: nothing keeps it from
passing over a context for ever, so whether a context that waits gets anywhere cannot be said
here.
-/

namespace KernelMemory

/-- What contexts share, and the contexts. -/
structure Interleaving (σ κ : Type) where
  shared : σ
  contexts : List κ
  deriving DecidableEq

namespace Interleaving

variable {σ κ : Type}

/-- Lets a context take its next step. -/
def step (move : κ → σ → κ × σ) (s : Interleaving σ κ) (i : Nat) : Interleaving σ κ :=
  match s.contexts[i]? with
  | none => s
  | some c =>
    let (c', shared) := move c s.shared
    ⟨shared, s.contexts.set i c'⟩

def run (move : κ → σ → κ × σ) (s : Interleaving σ κ) (schedule : List Nat) :
    Interleaving σ κ :=
  schedule.foldl (step move) s

end Interleaving

end KernelMemory
