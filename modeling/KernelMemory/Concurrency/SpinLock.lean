import KernelMemory.Operation
import KernelMemory.Text.Printable

/-!
# Spin locks

A spin lock guards a value with a flag that a context sets by an exchange and clears
when it is done. This module has the steps on the lock that happen as one, and the
calls of a context that has the lock to itself. How the steps of several contexts
interleave is the subject of `KernelMemory.Concurrency.Contention`.
-/

namespace KernelMemory

open Text

/-- A value behind a flag, with a name and a count for diagnostics. -/
structure SpinLock (α : Type) where
  name : String
  locked : Bool
  /-- Number of acquisitions that found the lock taken, modulo the 64-bit range. -/
  contended : Nat
  value : α
  deriving DecidableEq

namespace SpinLock

variable {α β ε : Type}

def named (name : String) (value : α) : SpinLock α :=
  ⟨name, false, 0, value⟩

/-- A lock that nobody cared to name. -/
def anonymous (value : α) : SpinLock α :=
  named "anonymous" value

def description (l : SpinLock α) : String :=
  "SpinLock \x7b name: " ++ quoted l.name ++ ", locked: " ++ toString l.locked
    ++ ", contended: " ++ toString l.contended ++ ", .. \x7d"

/-! ## Steps -/

/-- Sets the flag and answers whether it was clear. -/
def exchange (l : SpinLock α) : Bool × SpinLock α :=
  (!l.locked, { l with locked := true })

def countContention (l : SpinLock α) : SpinLock α :=
  { l with contended := (l.contended + 1) % Word.bound }

def put (l : SpinLock α) (value : α) : SpinLock α :=
  { l with value := value }

def release (l : SpinLock α) : SpinLock α :=
  { l with locked := false }

/-! ## Calls without competition -/

def tryAcquire : Operation (SpinLock α) ε Bool := do
  let (won, l) := (← Operation.get).exchange
  Operation.set l
  return won

def tryAcquireFor : Nat → Operation (SpinLock α) ε Bool
  | 0 => tryAcquire
  | spins + 1 => do
    if ← tryAcquire then
      return true
    else
      tryAcquireFor spins

/-- Takes the lock. Without competition nobody would clear a flag that is set. -/
def acquire : Operation (SpinLock α) ε Unit := do
  if ← tryAcquire then
    return ()
  else
    Operation.modify countContention
    Operation.stop (.endlessWait (← Operation.get).name)

/-- Runs an operation on the value under the lock, which is released however it ends. -/
def withLock (work : Operation α ε β) : Operation (SpinLock α) ε β := do
  acquire
  (work.within SpinLock.value put).ensuring release

end SpinLock

end KernelMemory
