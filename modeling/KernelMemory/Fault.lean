import KernelMemory.RequestError
import KernelMemory.Extent.Violation

/-!
# Faults

A fault ends an operation at the point it has reached: memory safety is already lost,
or an internal assumption does not hold. It is not an answer to the caller, so it is
kept apart from the errors of the instances, and what was changed before it stays.
-/

namespace KernelMemory

open Text

/-- The step of an extent map that found its own index broken. The audit after a change, which
is off by default, is not among them. -/
inductive Breakage
  | seeding (error : IndexError)
  | splitting (error : IndexError)
  | removing (error : IndexError)
  | resolving (handle : Handle)
  deriving DecidableEq

namespace Breakage

def message : Breakage → String
  | seeding error => "seeding an empty tree: " ++ error.message
  | splitting error => "inserting a split piece: " ++ error.message
  | removing error => "removing an extent: " ++ error.message
  | resolving handle => "resolving an extent: " ++ handle.text

end Breakage

/-- Why an operation stopped without an answer. -/
inductive Fault
  /-- Every slot number of an index is taken. -/
  | slotsExhausted (slots : Nat)
  /-- A slot that was to take a value holds one. -/
  | occupiedSlot
  /-- More room was asked for than a signed 64-bit number of bytes. -/
  | roomOverflow
  /-- A link between the nodes of an index leads to none. -/
  | danglingLink (node : Handle)
  /-- A node is too high on a side where it has no child. -/
  | missingChild (node : Handle)
  /-- The right link of a node was to lead to a child of it, and does not. -/
  | strayChild (link : Option Handle) (child : Handle)
  /-- The links of an index lead round in a circle. -/
  | endlessWalk (node : Handle)
  /-- An extent map found its index broken. -/
  | brokenMap (name : String) (cause : Breakage)
  /-- A piece chosen for a gather allocation could not be taken any more. -/
  | pieceVanished (kind : ArenaKind) (piece : Range) (error : ExtentError)
  /-- A block header does not have the checksum it stores. -/
  | damagedBlock (header : Nat)
  /-- A link of a pool leads to an address where no header can lie. -/
  | unreadableHeader (header : Nat)
  /-- A pool that checks itself after every call found a defect. -/
  | damagedPool (kind : ArenaKind) (violation : PoolViolation)
  /-- An audit of the whole manager found a defect in an attached pool. -/
  | damagedAttachment (kind : ArenaKind) (violation : PoolViolation)
  /-- A sum left the 64-bit range. -/
  | addOverflow
  /-- A difference would be negative. -/
  | subOverflow
  | indexOutOfBounds (length index : Nat)
  /-- The links of a pool lead round in a circle. -/
  | endlessChain (header : Nat)
  /-- A context waits for what only itself could bring about. -/
  | endlessWait (name : String)
  /-- Code supplied by the caller stopped with this text. -/
  | raised (text : String)
  deriving DecidableEq

namespace Fault

def message : Fault → String
  | slotsExhausted slots => "avl: node arena exhausted (" ++ toString slots ++ " slots)"
  | occupiedSlot => "assertion failed: slot.node.is_none()"
  | roomOverflow => "capacity overflow"
  | danglingLink node => "avl: dangling link to node " ++ node.text
  | missingChild node => "avl: node " ++ node.text ++ " is unbalanced towards a missing child"
  | strayChild link child =>
    "assertion `left == right` failed\n  left: " ++ Handle.linkText link
      ++ "\n right: " ++ Handle.linkText (some child)
  | endlessWalk node => "avl: endless walk from node " ++ node.text
  | brokenMap name cause => "xad[" ++ name ++ "]: corrupted while " ++ cause.message
  | pieceVanished kind piece error =>
    "mm: " ++ kind.name ++ " gather piece " ++ piece.text ++ " vanished: " ++ error.message
  | damagedBlock header => "pool: checksum mismatch in block header at " ++ hex header
  | unreadableHeader header =>
    if header = 0 then
      "null pointer dereference occurred"
    else
      "misaligned pointer dereference: address must be a multiple of 0x10 but is "
        ++ hex header
  | damagedPool kind violation =>
    "pool[" ++ kind.name ++ "]: corrupted: " ++ violation.message
  | damagedAttachment kind violation =>
    "mm: " ++ kind.name ++ " pool corrupted: " ++ violation.message
  | addOverflow => "attempt to add with overflow"
  | subOverflow => "attempt to subtract with overflow"
  | indexOutOfBounds length index =>
    "index out of bounds: the len is " ++ toString length
      ++ " but the index is " ++ toString index
  | endlessChain header => "pool: endless chain of blocks from " ++ hex header
  | endlessWait name => "endless wait for " ++ name
  | raised text => text

end Fault

end KernelMemory
