/-!
# Masking interrupts

A context masks interrupts around a lock that an interrupt handler takes as well, and
restores them afterwards. Restoring needs to know whether they were enabled before, so
nested masks compose.
-/

namespace KernelMemory

/-- Whether a processor takes interrupts. -/
structure Interrupts where
  enabled : Bool
  deriving DecidableEq, Inhabited

namespace Interrupts

/-- A program without privileges has nothing to mask. -/
def hosted : Interrupts :=
  ⟨false⟩

/-- Disables interrupts and answers whether they were enabled. -/
def mask (i : Interrupts) : Bool × Interrupts :=
  (i.enabled, ⟨false⟩)

/-- Enables interrupts again if they were enabled before. -/
def restore (i : Interrupts) (wereEnabled : Bool) : Interrupts :=
  ⟨i.enabled || wereEnabled⟩

/-- What the outer and the inner of two nested masks find. -/
def nested (i : Interrupts) : Bool × Bool :=
  (i.mask.1, i.mask.2.mask.1)

end Interrupts

end KernelMemory
