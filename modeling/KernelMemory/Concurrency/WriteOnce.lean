import KernelMemory.Operation

/-!
# Write-once cells

A write-once cell is empty until one context claims it, is being filled until that
context publishes a value, and never changes again. This module has the steps on the
cell that happen as one, and the calls of a context that has the cell to itself. How
the steps of several contexts interleave is the subject of
`KernelMemory.Concurrency.Initialization`.
-/

namespace KernelMemory

inductive Fill
  | empty
  | filling
  | ready
  deriving DecidableEq, Inhabited

/-- A place for one value. -/
structure WriteOnce (α : Type) where
  fill : Fill
  /-- What has been written to the place, whether it may be read yet or not. -/
  content : Option α
  deriving DecidableEq, Inhabited

namespace WriteOnce

variable {α ε : Type}

def empty : WriteOnce α :=
  ⟨.empty, none⟩

def isReady (c : WriteOnce α) : Bool :=
  c.fill == .ready

/-- The value, once it is published. -/
def get? (c : WriteOnce α) : Option α :=
  if c.isReady then c.content else none

/-! ## Steps -/

/-- Claims the cell if it is empty, and answers whether it was. -/
def claim (c : WriteOnce α) : Bool × WriteOnce α :=
  match c.fill with
  | .empty => (true, { c with fill := .filling })
  | _ => (false, c)

def write (c : WriteOnce α) (value : α) : WriteOnce α :=
  { c with content := some value }

/-- Lets everybody read the value. -/
def publish (c : WriteOnce α) : WriteOnce α :=
  { c with fill := .ready }

/-! ## Calls without competition -/

/-- Claims the cell if it is empty. -/
def tryClaim : Operation (WriteOnce α) ε Bool := do
  let (won, c) := (← Operation.get).claim
  Operation.set c
  return won

/-- Fills an empty cell; any other cell hands the value back. -/
def set (value : α) : Operation (WriteOnce α) α Unit := do
  if ← tryClaim then
    Operation.modify (·.write value)
    Operation.modify publish
  else
    Operation.refuse value

/-- The value of the cell, which is filled first if it is empty, and whether it was. If
`init` fails, the cell stays claimed. Without competition nobody would fill a cell that
somebody has claimed. -/
def getOrInit (init : Verdict ε α) : Operation (WriteOnce α) ε (α × Bool) := do
  match (← Operation.get).get? with
  | some value => return (value, false)
  | none =>
    if ← tryClaim then
      let value ← Operation.ofVerdict init
      Operation.modify (·.write value)
      Operation.modify publish
      return (value, true)
    else
      Operation.stop (.endlessWait "a claimed cell")

end WriteOnce

end KernelMemory
