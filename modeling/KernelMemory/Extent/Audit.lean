import KernelMemory.Extent.Map
import KernelMemory.Extent.Violation
import KernelMemory.Index.Audit

/-!
# Auditing an extent map

An audit checks the index, then the tiling of the region in address order, then the
size classes: free extents and no others are listed, each in the class of its length,
and the classes hold as many members as there are free extents.
-/

namespace KernelMemory

namespace ExtentMap

/-- The first defect between neighbours in address order, or the end that the extents
reach from `previous` on. -/
def auditTiling : Extent → List Extent → Except ExtentViolation Nat
  | previous, [] => .ok previous.stop
  | previous, e :: rest =>
    if previous.stop ≠ e.start then
      .error (.notContiguous previous.range e.range)
    else if previous.usage = e.usage then
      .error (.unmerged previous.range e.range e.usage)
    else
      auditTiling e rest

/-- Whether the extents tile the region without equal neighbours. -/
def auditPartition (region : Range) : List Extent → Except ExtentViolation Unit
  | [] => .error .empty
  | first :: rest => do
    if first.start ≠ region.start then
      .error (.badStart region.start first.start)
    else
      let stop ← auditTiling first rest
      if stop ≠ region.stop then .error (.badStop region.stop stop) else .ok ()

/-- Whether an extent is listed exactly if it is free. -/
def auditMembership (e : Extent) : Except ExtentViolation Unit :=
  if e.listedIn.isSome = e.usage.isFree then .ok ()
  else .error (.bucketMembership e.range e.usage e.listedIn.isSome)

/-- Whether every member of a class belongs there. Answers the number of members. -/
def auditClass (m : ExtentMap) (index : Nat) : Except ExtentViolation Nat := do
  let members := m.members index
  members.forM fun found =>
    let expected := sizeClass found.2.length
    if found.2.listedIn = some index ∧ expected = index then .ok ()
    else .error (.wrongBucket found.2.range expected index)
  if members.length ≠ m.memberCount index then
    .error (.bucketCount members.length (m.memberCount index))
  else
    .ok members.length

def audit (m : ExtentMap) : Except ExtentViolation Unit := do
  match m.index.audit Extent.keying with
  | .error violation => .error (.index violation)
  | .ok () =>
    auditPartition m.region m.extents
    m.extents.forM auditMembership
    let counts ← (List.range SizeClasses.count).mapM m.auditClass
    let tracked := (m.extents.filter fun e => e.listedIn.isSome).length
    let listed := Word.total counts
    if listed ≠ tracked then .error (.bucketCount listed tracked) else .ok ()

end ExtentMap

end KernelMemory
