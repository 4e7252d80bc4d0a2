import KernelMemory.Arena
import KernelMemory.Extent.Error
import KernelMemory.Pool.Error

/-!
# Refusals of a memory request

The errors a client of the memory manager sees. Errors of the extent maps and of the
pools are carried over; those that lack of memory alone explains are told apart from
bad arguments by `isExhaustion`.
-/

namespace KernelMemory

open Text

/-- A memory request that was refused. -/
inductive RequestError
  /-- No bytes, a request to allocate as free, or a size that overflows. -/
  | invalidArgument
  /-- Empty, inverted, or not inside the owning extent. -/
  | invalidRange (start stop : Nat)
  /-- A configured arena does not fit the instance it is meant for. -/
  | invalidConfig (kind : ArenaKind)
  /-- Nothing is tracked at the address, or no single free extent is large enough. -/
  | notFound
  /-- The address lies in a free extent. -/
  | notAllocated (address : Nat)
  | usageMismatch (expected found : Usage)
  /-- The whole region holds less free memory than requested. -/
  | insufficientMemory (requested available : Nat)
  /-- The caller's list of pieces filled up before the request was covered. -/
  | bufferTooSmall (capacity : Nat)
  /-- No pool of this kind is attached. -/
  | noPool (kind : ArenaKind)
  | poolExists (kind : ArenaKind)
  | alreadyInstalled
  | pool (error : PoolError)
  | extent (error : ExtentError)
  deriving DecidableEq

namespace RequestError

def message : RequestError → String
  | invalidArgument => "invalid argument"
  | invalidRange start stop => "invalid range [" ++ hex start ++ ", " ++ hex stop ++ ")"
  | invalidConfig kind => "invalid " ++ kind.name ++ " region configuration"
  | notFound => "no matching range"
  | notAllocated address => hex address ++ " is not allocated"
  | usageMismatch expected found =>
    "range has type " ++ found.text ++ ", expected " ++ expected.text
  | insufficientMemory requested available =>
    "insufficient memory: " ++ hex requested ++ " bytes requested, "
      ++ hex available ++ " free"
  | bufferTooSmall capacity =>
    "buffer of " ++ toString capacity ++ " piece(s) is too small"
  | noPool kind => "no " ++ kind.name ++ " pool"
  | poolExists kind => "a " ++ kind.name ++ " pool is already attached"
  | alreadyInstalled => "a memory manager is already installed"
  | pool error => "pool: " ++ error.message
  | extent error => "extent tree: " ++ error.message

/-- Whether lack of memory, or of room to describe it, refused the request. -/
def isExhaustion : RequestError → Bool
  | insufficientMemory .. | bufferTooSmall _ | pool (.outOfMemory ..) => true
  | _ => false

/-- Errors of an extent map that mean something to a client keep their meaning. -/
def ofExtentError : ExtentError → RequestError
  | .invalidRange start stop => invalidRange start stop
  | .notFound => notFound
  | .usageMismatch expected found => usageMismatch expected found
  | error => extent error

end RequestError

end KernelMemory
