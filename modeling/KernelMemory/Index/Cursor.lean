import KernelMemory.Index.Linked

/-!
# Walking an index

A cursor stands before a node of an index and moves from one node to the next along the links.
It also counts down from the size of the index, which is how many nodes it has left to show as
long as the links are sound. A walk keeps no count: it starts at the outermost node of one side
and asks each node for the next one on the other side.
-/

namespace KernelMemory

/-- A place in the order of an index. -/
structure Cursor where
  next : Option Handle
  remaining : Nat
  deriving DecidableEq

namespace Cursor

variable {α ε : Type}

def start : LinkedOperation ε α Cursor := do
  let x ← Operation.get
  return ⟨← Linked.last? .left, x.size⟩

/-- Shows the next node and moves behind it. A cursor at the end shows nothing and stays. -/
def advance (c : Cursor) : LinkedOperation ε α (Option (Handle × α) × Cursor) := do
  match c.next with
  | none => return (none, c)
  | some id =>
    let next ← Linked.next? .right id
    let n ← Linked.resolve id
    return (some (id, n.value), ⟨next, c.remaining - 1⟩)

/-- Shows some nodes, or all that are left if they are fewer. -/
def take : Nat → Cursor → LinkedOperation ε α (List (Handle × α) × Cursor)
  | 0, c => return ([], c)
  | n + 1, c => do
    let (shown, c) ← c.advance
    match shown with
    | none => return ([], c)
    | some item =>
      let (items, c) ← take n c
      return (item :: items, c)

end Cursor

namespace Linked

variable {α ε : Type}

/-- The nodes from a link on, each found from the one before it as the next on one side. -/
def walkFrom (side : Side) : Nat → Option Handle → LinkedOperation ε α (List (Handle × α))
  | _, none => return []
  | 0, some id => Operation.stop (.endlessWalk id)
  | steps + 1, some id => do
    let n ← resolve id
    let next ← next? side id
    return (id, n.value) :: (← walkFrom side steps next)

/-- All nodes on the way to one side, from the outermost node of the other. -/
def walk (side : Side) : LinkedOperation ε α (List (Handle × α)) := do
  let x ← Operation.get
  walkFrom side x.cells.size (← last? side.other)

end Linked

end KernelMemory
