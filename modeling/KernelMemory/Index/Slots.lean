import KernelMemory.Index.Error
import KernelMemory.Operation

/-!
# Slots

The supply of slot numbers for handles. A freed slot goes to its next 32-bit
generation and is the first to be used again; a new slot is opened only when no freed
one is left, and there are `2 ^ 32` of them at most. The list of freed slots is not taken
at its word: a slot on it that was never opened, or that holds a value, is a fault.
-/

namespace KernelMemory

/-- The generation of a slot and whether a value occupies it. -/
structure Slot where
  generation : Nat
  occupied : Bool
  deriving DecidableEq, Inhabited

namespace Slot

/-- Number of generations before they repeat. -/
def generations : Nat := 1 <<< 32

/-- Bytes that a slot takes besides those of its value: the generation, a height, three
handles that may be missing, and what aligns them to eight bytes. -/
def overhead : Nat := 64

def freed (s : Slot) : Slot :=
  ⟨(s.generation + 1) % generations, false⟩

end Slot

/-- All slots opened so far, and the free ones among them, last freed first. -/
structure Slots where
  cells : Array Slot
  vacant : List Nat
  deriving Inhabited

namespace Slots

/-- Number of slots an index can open. -/
def capacity : Nat := 1 <<< 32

def empty : Slots :=
  ⟨#[], []⟩

/-- Occupies a slot and names it. -/
def take (owner : Nat) : Operation Slots IndexError Handle := do
  let s ← Operation.get
  match s.vacant with
  | slot :: vacant =>
    Operation.set { s with vacant := vacant }
    match s.cells[slot]? with
    | none => Operation.stop (.indexOutOfBounds s.cells.size slot)
    | some c =>
      if c.occupied then
        Operation.stop .occupiedSlot
      else
        Operation.set ⟨s.cells.setIfInBounds slot ⟨c.generation, true⟩, vacant⟩
        return ⟨owner, slot, c.generation⟩
  | [] =>
    if s.cells.size < capacity then
      Operation.set ⟨s.cells.push ⟨0, true⟩, []⟩
      return ⟨owner, s.cells.size, 0⟩
    else
      Operation.note .error "avl: node arena exhausted"
      Operation.stop (.slotsExhausted s.cells.size)

def release (s : Slots) (slot : Nat) : Slots :=
  ⟨s.cells.modify slot Slot.freed, slot :: s.vacant⟩

/-- Frees every occupied slot in ascending order. -/
def clear (s : Slots) : Slots :=
  (List.range s.cells.size).foldl
    (fun slots slot =>
      if (slots.cells.getD slot default).occupied then slots.release slot else slots) s

end Slots

end KernelMemory
