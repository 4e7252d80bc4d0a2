import KernelMemory.Pool.Audit

/-!
# Allocating from a pool

An allocation is carved out of the first unused tail that can hold it: the header goes
as low as the alignment of the payload allows, what lies in front of it stays with the
donor, and what lies behind it becomes the tail of the new block. A release gives the
block and its tail to the nearest earlier allocation and clears them.
-/

namespace KernelMemory

open Text

namespace Block

/-- Where a payload of `padded` bytes goes in the unused tail of a block, if it fits. -/
def placement? (b : Block) (padded alignment : Nat) : Option Nat := do
  let start ← (Word.add? b.tail Header.size).bind (Word.roundUp? alignment)
  let stop ← Word.add? start padded
  if stop ≤ b.stop then some start else none

end Block

namespace Pool

variable {ε : Type}

/-- The alignment of a payload, which is never below that of a header. -/
def effectiveAlignment (alignment : Nat) : Except PoolError Nat :=
  if alignment = 0 then .ok Header.alignment
  else if Word.isPowerOfTwo alignment then .ok (max alignment Header.alignment)
  else .error (.invalidAlignment alignment)

/-- Links a new block behind its donor. -/
def carve (donor : Block) (start size padded alignment : Nat) (tag : Tag) :
    Operation Memory ε Unit := do
  let address := start - Header.size
  let h : Header :=
    { tag
      checksum := 0
      marks := .ofAlignment alignment
      prev := donor.address
      next := donor.header.next
      used := size
      reserved := padded - size
      unused := donor.stop - (start + padded) }
  Operation.modify (h.stamped.store address)
  Block.reseal donor.address fun d =>
    { d with next := address, unused := address - donor.tail }
  if donor.header.next ≠ 0 then
    let next ← Block.verified donor.header.next
    Block.reseal next.address fun n => { n with prev := address }

/-- Places a payload in the first block that has room for it. -/
def place (p : Pool) (size alignment : Nat) (tag : Tag) :
    Operation Memory ε (Option Nat) := do
  match Word.roundUp? Header.alignment size with
  | none => return none
  | some padded =>
    let room : Block → Operation Memory ε (Option (Block × Nat)) := fun b => do
      let _ ← Operation.sum b.stop
      return (b.placement? padded alignment).map fun start => (b, start)
    match ← Chain.search Header.next room Chain.longest p.start with
    | none => return none
    | some (donor, start) =>
      carve donor start size padded alignment tag
      Operation.note .debug
        ("pool: allocated " ++ hex size ++ " bytes at " ++ hex start ++ " (align "
          ++ hex alignment ++ ", donor " ++ hex donor.address ++ ")")
      return some start

/-- Allocates `size` bytes. An alignment of 0 asks for the least there is. -/
def allocate (p : Pool) (size alignment : Nat) (tag : Tag) : PoolOperation Nat := do
  if size = 0 then
    Operation.refuse .emptyRequest
  else
    let alignment ← Operation.ofExcept (effectiveAlignment alignment)
    let placed ← p.place size alignment tag
    p.selfCheck
    match placed with
    | some start => return start
    | none =>
      p.note .debug ("out of memory for " ++ hex size ++ "/" ++ hex alignment)
      Operation.refuse (.outOfMemory size alignment)

def allocateZeroed (p : Pool) (size alignment : Nat) (tag : Tag) : PoolOperation Nat := do
  let start ← p.allocate size alignment tag
  Operation.modify fun m => m.clear start (start + size)
  return start

/-- The nearest allocation in front of a block, or else the permanent first block. -/
def survivorBefore (b : Block) : Operation Memory ε Block := do
  match ← Chain.find Header.prev (fun h => h.isHead || !h.isFree) b.header.prev with
  | some first => return first
  | none => Operation.stop (.unreadableHeader 0)

/-- The nearest allocation behind a block. -/
def survivorAfter (b : Block) : Operation Memory ε (Option Block) :=
  Chain.find Header.next (fun h => !h.isFree) b.header.next

/-- Takes a block out of the chain and answers the size of its payload. -/
def unlink (p : Pool) (b : Block) : Operation Memory ε Nat := do
  let first ← survivorBefore b
  let after ← survivorAfter b
  let tail ← Operation.sum first.tail
  let stop := (after.map Block.address).getD p.stop
  let unused ← Operation.difference stop tail
  Operation.modify fun m => m.clear tail stop
  Block.reseal first.address fun h =>
    { h with unused := unused, next := (after.map Block.address).getD 0 }
  match after with
  | some after => Block.reseal after.address fun h => { h with prev := first.address }
  | none => pure ()
  Operation.note .debug
    ("pool: freed " ++ hex b.header.used ++ " bytes at " ++ hex b.payload ++ ", "
      ++ hex unused ++ " bytes now follow " ++ hex first.address)
  return b.header.used

/-- Releases the allocation whose payload starts at an address and answers its size. -/
def free (p : Pool) (payload : Nat) : PoolOperation Nat := do
  let freed ←
    match ← p.find? payload with
    | some b => some <$> p.unlink b
    | none => pure none
  p.selfCheck
  match freed with
  | some size => return size
  | none =>
    p.note .warn ("free of unknown pointer " ++ hex payload)
    Operation.refuse (.invalidPointer payload)

end Pool

end KernelMemory
