import KernelMemory.Operation
import KernelMemory.Pool.Header

/-!
# Chains of blocks

The blocks of a pool are linked both ways through addresses in their headers. A header
is trusted only after its checksum has been checked: a walk along the links stops with
a fault at the first header that fails. Memory outside of the headers is not looked
at.
-/

namespace KernelMemory

open Text

/-- A header and where it lies. -/
structure Block where
  address : Nat
  header : Header
  deriving DecidableEq, Inhabited

namespace Block

def payload (b : Block) : Nat :=
  b.address + Header.size

def tail (b : Block) : Nat :=
  b.payload + b.header.used + b.header.reserved

def stop (b : Block) : Nat :=
  b.tail + b.header.unused

theorem tail_le_stop (b : Block) : b.tail ≤ b.stop :=
  Nat.le_add_right _ _

/-- Whether a header can lie at an address. -/
def canLieAt (a : Nat) : Bool :=
  a != 0 && a % Header.alignment == 0

variable {ε : Type}

/-- The block whose header lies at an address, with its checksum checked. -/
def verified (a : Nat) : Operation Memory ε Block := do
  if canLieAt a then
    let h := Header.load (← Operation.get) a
    if h.isIntact then
      return ⟨a, h⟩
    else
      Operation.note .error
        ("pool: block header at " ++ hex a ++ " failed its checksum ("
          ++ hexPadded 4 h.checksum ++ " stored, " ++ hexPadded 4 h.computed ++ " computed)")
      Operation.stop (.damagedBlock a)
  else
    Operation.stop (.unreadableHeader a)

/-- Changes the header at an address and seals it with the checksum that belongs to it. -/
def reseal (a : Nat) (f : Header → Header) : Operation Memory ε Unit :=
  Operation.modify fun m => (f (Header.load m a)).stamped.store a m

end Block

namespace Chain

variable {ε α β : Type}

/-- Number of places for a header; a longer walk has come back to one of them. -/
def longest : Nat :=
  Word.bound / Header.alignment

/-- What the first block with an answer answers, on a walk from an address along one of
the two links. -/
def search (link : Header → Nat) (answer : Block → Operation Memory ε (Option α)) :
    Nat → Nat → Operation Memory ε (Option α)
  | steps, a =>
    if a = 0 then
      return none
    else
      match steps with
      | 0 => Operation.stop (.endlessChain a)
      | steps + 1 => do
        let b ← Block.verified a
        match ← answer b with
        | some found => return some found
        | none => search link answer steps (link b.header)

/-- The first block with a property, on a walk from an address along one of the two
links. -/
def find (link : Header → Nat) (p : Header → Bool) (a : Nat) :
    Operation Memory ε (Option Block) :=
  search link (fun b => return if p b.header then some b else none) longest a

/-- Folds over the blocks from an address on, in the order of their links. -/
def fold (step : β → Block → Operation Memory ε β) : Nat → Nat → β → Operation Memory ε β
  | steps, a, acc =>
    if a = 0 then
      return acc
    else
      match steps with
      | 0 => Operation.stop (.endlessChain a)
      | steps + 1 => do
        let b ← Block.verified a
        fold step steps b.header.next (← step acc b)

end Chain

end KernelMemory
