import KernelMemory.Text.Hex

/-!
# Refusals and defects of a pool
-/

namespace KernelMemory

open Text

/-- A request that a pool refuses. A damaged block header is never reported here. -/
inductive PoolError
  /-- A request for no bytes. -/
  | emptyRequest
  /-- An alignment with more than one bit set. -/
  | invalidAlignment (alignment : Nat)
  /-- No block has a large enough unused tail. -/
  | outOfMemory (size alignment : Nat)
  /-- The pointer is not the payload of a live allocation. -/
  | invalidPointer (address : Nat)
  /-- The arena is misaligned, wraps, or is too small for a header and a payload. -/
  | invalidRegion (start size : Nat)
  deriving DecidableEq

namespace PoolError

def message : PoolError → String
  | emptyRequest => "invalid argument: zero-sized allocation"
  | invalidAlignment alignment => "invalid alignment " ++ hex alignment
  | outOfMemory size alignment =>
    "no block can hold " ++ hex size ++ " bytes aligned to " ++ hex alignment
  | invalidPointer address => hex address ++ " is not an allocation of this pool"
  | invalidRegion start size =>
    "unusable arena at " ++ hex start ++ " with " ++ hex size ++ " bytes"

end PoolError

/-- A structural defect of a pool. -/
inductive PoolViolation
  | checksumMismatch (header stored computed : Nat)
  | brokenLink (header : Nat)
  | notContiguous (header stop next : Nat)
  | outOfBounds (header : Nat)
  | conservation (expected found : Nat)
  deriving DecidableEq

namespace PoolViolation

def message : PoolViolation → String
  | checksumMismatch header stored computed =>
    "header at " ++ hex header ++ ": checksum " ++ hexPadded 4 stored
      ++ ", computed " ++ hexPadded 4 computed
  | brokenLink header =>
    "header at " ++ hex header ++ " is not linked back by its successor"
  | notContiguous header stop next =>
    "block at " ++ hex header ++ " ends at " ++ hex stop
      ++ " but the next block starts at " ++ hex next
  | outOfBounds header => "block at " ++ hex header ++ " leaves the arena"
  | conservation expected found =>
    "blocks account for " ++ hex found ++ " bytes, arena holds " ++ hex expected

end PoolViolation

end KernelMemory
