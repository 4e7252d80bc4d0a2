import KernelMemory.Pool.Basic

/-!
# Auditing a pool

An audit follows the chain from the start of the arena. Every header has to lie inside
the arena, to have the checksum it stores, to be linked back to the one before it and
to start where that one ends; the last block has to end with the arena. Since each
block starts behind the one before it, the audit comes to an end whatever the memory
holds.
-/

namespace KernelMemory

namespace Pool

/-- Audits the chain from the block at `address` on, whose predecessor lies at `prev`
and ends at `expected`. -/
def auditFrom (p : Pool) (m : Memory) (prev address expected : Nat) :
    Verdict PoolViolation Unit :=
  if address = 0 then
    if expected = p.stop then .ok ()
    else .error (.conservation p.arena.size (expected - p.start))
  else if address < p.start then
    .error (.outOfBounds address)
  else if Word.bound ≤ address + Header.size then
    .fault .addOverflow
  else if p.stop < address + Header.size then
    .error (.outOfBounds address)
  else if !Block.canLieAt address then
    .fault (.unreadableHeader address)
  else
    let b : Block := ⟨address, Header.load m address⟩
    if !b.header.isIntact then
      .error (.checksumMismatch address b.header.checksum b.header.computed)
    else if b.header.prev ≠ prev then
      .error (.brokenLink prev)
    else if address ≠ expected then
      .error (.notContiguous prev expected address)
    else if Word.bound ≤ b.stop then
      .fault .addOverflow
    else if p.stop < b.stop then
      .error (.outOfBounds address)
    else
      p.auditFrom m address b.header.next b.stop
termination_by p.stop - expected
decreasing_by
  simp only [Block.stop, Block.tail, Block.payload, Header.size] at *
  omega

/-- The first defect of a pool, if it has one. -/
def audit (p : Pool) (m : Memory) : Verdict PoolViolation Unit :=
  p.auditFrom m 0 p.start p.start

/-- Audits the pool if its policy asks for it; a defect ends the operation. -/
def selfCheck {ε : Type} (p : Pool) : Operation Memory ε Unit := do
  match p.policy with
  | .touched => return ()
  | .full =>
    match ← (Operation.ofVerdict (p.audit (← Operation.get))).attempt with
    | .ok () => return ()
    | .error violation =>
      p.note .error violation.message
      Operation.stop (.damagedPool p.kind violation)

end Pool

end KernelMemory
