import KernelMemory.Index.Error
import KernelMemory.Extent.Usage
import KernelMemory.Text.Hex

/-!
# Refusals of an extent map
-/

namespace KernelMemory

open Text

/-- A request that an extent map refuses. -/
inductive ExtentError
  /-- Empty, inverted, or outside the tracked region or the target extent. -/
  | invalidRange (start stop : Nat)
  | notFound
  /-- The handle does not name a tracked extent. -/
  | stale (handle : Handle)
  /-- The target extent does not have the usage the caller relied on. -/
  | usageMismatch (expected found : Usage)
  | overlap
  deriving DecidableEq

namespace ExtentError

def message : ExtentError → String
  | invalidRange start stop => "invalid range [" ++ hex start ++ ", " ++ hex stop ++ ")"
  | notFound => "no matching extent"
  | stale handle => "extent handle " ++ handle.text ++ " is stale"
  | usageMismatch expected found =>
    "extent has type " ++ found.text ++ ", expected " ++ expected.text
  | overlap => "range overlaps an existing extent"

/-- In an index of ranges a collision of keys is an overlap. -/
def ofIndexError : IndexError → ExtentError
  | .collision _ => overlap
  | .stale handle => stale handle

end ExtentError

end KernelMemory
