import KernelMemory.Pool.Allocation

/-!
# Requests by layout

A layout is a size with an alignment, which is how a language runtime asks for memory.
Such a request has no error to report: an allocation that fails answers no address,
and the release of an address that is not live does nothing.
-/

namespace KernelMemory

/-- A size and an alignment that together stay in the signed 64-bit range. -/
structure Layout where
  size : Nat
  alignment : Nat
  isPowerOfTwo_alignment : Word.isPowerOfTwo alignment = true
  size_add_le : size + alignment ≤ 1 <<< 63

namespace Layout

/-- The layout of a size and an alignment, if there is one. -/
def ofSize? (size alignment : Nat) : Option Layout :=
  if h : Word.isPowerOfTwo alignment = true ∧ size + alignment ≤ 1 <<< 63 then
    some ⟨size, alignment, h.1, h.2⟩
  else
    none

/-- The bytes to ask for: even an empty layout gets an address of its own. -/
def request (l : Layout) : Nat :=
  max l.size 1

end Layout

namespace Pool

variable {ε : Type}

def allocateLayout (p : Pool) (l : Layout) : Operation Memory ε (Option Nat) :=
  return (← (p.allocate l.request l.alignment .byLayout).attempt).toOption

def allocateLayoutZeroed (p : Pool) (l : Layout) : Operation Memory ε (Option Nat) :=
  return (← (p.allocateZeroed l.request l.alignment .byLayout).attempt).toOption

/-- Releases what was allocated for a layout; nothing happens without an address, and
zero is none. -/
def releaseLayout (p : Pool) : Option Nat → Operation Memory ε Unit
  | none | some 0 => return ()
  | some payload => do
    let _ ← (p.free payload).attempt

end Pool

end KernelMemory
