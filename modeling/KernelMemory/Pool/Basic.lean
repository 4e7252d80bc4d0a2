import KernelMemory.Pool.Chain

/-!
# Pools

A pool serves small objects from one arena. The arena is filled by a chain of blocks
without gaps, in the order of their addresses. The first block is permanent and holds
nothing; every other block is an allocation. Room is kept as the unused tail of the
block in front of it, and everything that is not a header or a live payload is zero.

The bytes lie in a memory that is shared with everyone else, so an operation on a pool
is an operation on memory, and a pool itself never changes.
-/

namespace KernelMemory

open Text

/-- How much of a pool an operation verifies. -/
inductive Policy
  /-- The headers that it reads. -/
  | touched
  /-- The whole pool as well, after every allocation and release. -/
  | full
  deriving DecidableEq, Inhabited

namespace Policy

def title : Policy → String
  | touched => "Touched"
  | full => "Full"

end Policy

/-- A heap of blocks over one arena. -/
structure Pool where
  policy : Policy
  arena : Arena
  deriving DecidableEq, Inhabited

abbrev PoolOperation (α : Type) : Type :=
  Operation Memory PoolError α

namespace Pool

variable {σ ε : Type}

def kind (p : Pool) : ArenaKind :=
  p.arena.kind

def start (p : Pool) : Nat :=
  p.arena.start

def stop (p : Pool) : Nat :=
  p.arena.start + p.arena.size

def contains (p : Pool) (address : Nat) : Bool :=
  p.arena.contains address

def description (p : Pool) : String :=
  "Pool \x7b kind: " ++ p.kind.title ++ ", policy: " ++ p.policy.title ++ ", region: "
    ++ p.arena.description ++ ", .. \x7d"

/-- The start of every line about a pool of this kind. -/
def label (kind : ArenaKind) : String :=
  "pool[" ++ kind.name ++ "]: "

def note (p : Pool) (level : Level) (text : String) : Operation σ ε Unit :=
  Operation.note level (label p.kind ++ text)

/-! ## Creation -/

/-- The arena without the bytes at its end that are too few for a header's alignment. -/
def trimmed (a : Arena) : Arena :=
  { a with size := Word.roundDown Header.alignment a.size }

/-- Whether a trimmed arena starts where a header can lie, has room for one and for the
smallest payload, and does not wrap. -/
def isUsable (a : Arena) : Bool :=
  Block.canLieAt a.start && Header.size + Header.alignment ≤ a.size && a.stop?.isSome

/-- The first block of a fresh arena. -/
def firstHeader (a : Arena) : Header where
  tag := .head
  checksum := 0
  marks := .ofHead
  prev := 0
  next := 0
  used := 0
  reserved := 0
  unused := a.size - Header.size

/-- Clears an arena and seeds it with a block that has all of it as its tail. -/
def format (a : Arena) (m : Memory) : Memory :=
  (firstHeader a).stamped.store a.start (m.clear a.start (a.start + a.size))

/-- Takes over an arena. -/
def create (arena : Arena) (policy : Policy) : PoolOperation Pool := do
  if arena.start = 0 then
    Operation.refuse (.invalidRegion 0 arena.size)
  else
    let a := trimmed arena
    if isUsable a then
      Operation.modify (format a)
      Operation.note .info
        (label a.kind ++ hex a.size ++ " bytes at " ++ hex a.start ++ ", " ++ policy.title
          ++ " verification")
      return ⟨policy, a⟩
    else
      Operation.refuse (.invalidRegion a.start a.size)

/-! ## Looking up an allocation -/

/-- The live allocation whose payload starts at an address. -/
def find? (p : Pool) (payload : Nat) : Operation Memory ε (Option Block) := do
  if payload < p.start + Header.size ∨ p.stop ≤ payload then
    return none
  else
    let wanted := payload - Header.size
    let met ← Chain.search Header.next
      (fun b => return if wanted ≤ b.address then some b else none) Chain.longest p.start
    return met.filter fun b => b.address == wanted && b.header.isLive

def owns (p : Pool) (payload : Nat) : Operation Memory ε Bool :=
  return (← p.find? payload).isSome

/-- The size that the live allocation at an address was requested with. -/
def sizeOf? (p : Pool) (payload : Nat) : Operation Memory ε (Option Nat) :=
  return (← p.find? payload).map fun b => b.header.used

end Pool

end KernelMemory
