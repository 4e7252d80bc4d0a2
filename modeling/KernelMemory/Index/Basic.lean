import KernelMemory.Index.Keying
import KernelMemory.Index.Slots
import KernelMemory.Index.Tree

/-!
# Ordered indexes

An index keeps values in the order of a keying and names each by a handle that stays
good until the value is removed, whatever is inserted or removed around it. It refuses
a value that compares equal to a stored one, and a handle that does not name a stored
value: one of a removed value, or one that another index issued.
-/

namespace KernelMemory

/-- Values in key order, named by handles. -/
structure Index (α : Type) where
  /-- Tells the handles of this index from those of every other one. -/
  owner : Nat
  slots : Slots
  tree : Tree α
  size : Nat
  deriving Inhabited

namespace Index

variable {α κ : Type}

def empty (owner : Nat) : Index α :=
  ⟨owner, .empty, .nil, 0⟩

/-- An empty index with room set aside for `count` values of `bytes` bytes each. The room
has to be countable in a signed 64-bit number of bytes. -/
def withRoom {σ ε : Type} (owner count bytes : Nat) : Operation σ ε (Index α) :=
  if count * (Slot.overhead + bytes) < 1 <<< 63 then return empty owner
  else Operation.stop .roomOverflow

/-! ## Reading -/

def toList (ix : Index α) : List (Handle × α) :=
  ix.tree.toList

def isEmpty (ix : Index α) : Bool :=
  ix.size == 0

def height (ix : Index α) : Nat :=
  ix.tree.height

def get? (ix : Index α) (id : Handle) : Option α :=
  ix.tree.find? id

def successor? (ix : Index α) (id : Handle) : Option Handle :=
  ix.tree.successor? id

def predecessor? (ix : Index α) (id : Handle) : Option Handle :=
  ix.tree.predecessor? id

/-- The value that a probe equals, or its neighbour on the side the mode names. -/
def search (ix : Index α) (keying : Keying α κ) (probe : κ) (mode : SearchMode) :
    Option (Handle × α) :=
  ix.tree.search (keying.locate probe) mode

/-! ## Changing -/

/-- The records of a walk towards the root. -/
def noteRotations (rotations : List Rotation) : Operation (Index α) IndexError Unit :=
  rotations.forM fun r =>
    Operation.note .trace ("avl: " ++ r.case.name ++ " case at " ++ r.pivot.text)

def insert (keying : Keying α κ) (value : α) : Operation (Index α) IndexError Handle := do
  let ix ← Operation.get
  let probe := keying.locate (keying.key value)
  match ix.tree.search probe .exact with
  | some (existing, _) => Operation.refuse (.collision existing)
  | none =>
    let id ← Operation.within Index.slots (fun ix slots => { ix with slots := slots })
      (Slots.take ix.owner)
    let change := ix.tree.insert probe id value
    Operation.modify fun ix => { ix with tree := change.tree, size := ix.size + 1 }
    noteRotations change.rotations
    return id

def remove (id : Handle) : Operation (Index α) IndexError α := do
  let ix ← Operation.get
  match ix.tree.remove? id with
  | none => Operation.refuse (.stale id)
  | some (value, change) =>
    Operation.set
      { ix with
        slots := ix.slots.release id.slot, tree := change.tree, size := ix.size - 1 }
    noteRotations change.rotations
    return value

/-- Overwrites a value without moving it. A new value whose key does not fit between
its neighbours breaks the order. -/
def set (ix : Index α) (id : Handle) (value : α) : Index α :=
  { ix with tree := ix.tree.set id value }

def modify (ix : Index α) (id : Handle) (f : α → α) : Index α :=
  match ix.get? id with
  | some value => ix.set id (f value)
  | none => ix

/-- Forgets every value; all handles become stale. -/
def clear (ix : Index α) : Index α :=
  { ix with slots := ix.slots.clear, tree := .nil, size := 0 }

end Index

end KernelMemory
