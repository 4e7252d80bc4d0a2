import KernelMemory.Pool.Basic

/-!
# Accounting and listing of a pool

A tally adds up the blocks of a pool. Together its four sums of bytes make up the
arena, and the largest unused tail bounds the next allocation. A listing shows the blocks
one by one.
-/

namespace KernelMemory

open Text

/-- The blocks of a pool, added up. -/
structure Tally where
  blocks : Nat
  allocations : Nat
  used : Nat
  reserved : Nat
  unused : Nat
  headers : Nat
  largestUnused : Nat
  deriving DecidableEq, Inhabited

namespace Tally

def empty : Tally :=
  ⟨0, 0, 0, 0, 0, 0, 0⟩

def total (t : Tally) : Nat :=
  t.used + t.reserved + t.unused + t.headers

def add (t : Tally) (h : Header) : Tally where
  blocks := t.blocks + 1
  allocations := if h.isHead then t.allocations else t.allocations + 1
  used := t.used + h.used
  reserved := t.reserved + h.reserved
  unused := t.unused + h.unused
  headers := t.headers + Header.size
  largestUnused := max t.largestUnused h.unused

/-- The largest of the sums that have to stay in the 64-bit range. -/
def peak (t : Tally) : Nat :=
  max (max t.used t.reserved) (max t.unused t.headers)

end Tally

namespace Block

/-- One-line text: where the block lies, its tag, its sizes and its alignment. -/
def text (b : Block) : String :=
  "  " ++ hex b.address ++ ": tag " ++ b.header.tag.text ++ " used " ++ hex b.header.used
    ++ " reserved " ++ hex b.header.reserved ++ " unused " ++ hex b.header.unused
    ++ " align " ++ hex b.header.marks.alignment
    ++ (if b.header.isHead then " (head)" else "")

end Block

namespace Pool

variable {ε : Type}

/-- Adds up all blocks, each with its checksum checked. -/
def tally (p : Pool) : Operation Memory ε Tally :=
  Chain.fold
    (fun t b => do
      let t := t.add b.header
      let _ ← Operation.sum t.peak
      return t)
    Chain.longest p.start .empty

/-- The lines of a listing: the arena, then every block in the order of the chain. -/
def outline (p : Pool) : Operation Memory ε (List String) := do
  let lines ← Chain.fold (fun lines b => return lines ++ [b.text]) Chain.longest p.start []
  return (label p.kind ++ p.arena.text) :: lines

end Pool

end KernelMemory
