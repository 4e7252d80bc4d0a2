import KernelMemory.Index.Basic

/-!
# Linked indexes

An index as it lies in memory. Every slot has a cell, and an occupied cell holds a node: a
value, the height of the subtree under it, and links to its two children and its parent. A
link is a handle, so following one can fail, and an update has to keep up to three links for
every edge it moves. Nothing here takes for granted that the links form a tree; an update
that follows a link to no node, misses a child that the heights promise, or finds a node in a
vacant cell ends with a fault.

Both sides of a node are treated alike, so what is done to a side takes it as a parameter.
Walks along links count down from the number of cells, which no walk in a tree can reach.
-/

namespace KernelMemory

/-- The two sides of a node. -/
inductive Side
  | left
  | right
  deriving DecidableEq

namespace Side

def other : Side → Side
  | left => right
  | right => left

/-- How much higher this side of a node is than the other one, by the balance. -/
def lean (balance : Int) : Side → Int
  | left => -balance
  | right => balance

/-- The case of a rotation, by the side that is too high and the higher side of that child. -/
def rotationCase : Side → Side → RotationCase
  | right, left => .rightLeft
  | right, right => .rightRight
  | left, right => .leftRight
  | left, left => .leftLeft

end Side

/-- A value in a tree of links. -/
structure LinkedNode (α : Type) where
  parent : Option Handle
  left : Option Handle
  right : Option Handle
  height : Nat
  value : α

namespace LinkedNode

variable {α : Type}

def leaf (parent : Option Handle) (value : α) : LinkedNode α :=
  ⟨parent, none, none, 1, value⟩

def child (n : LinkedNode α) : Side → Option Handle
  | .left => n.left
  | .right => n.right

def withChild (n : LinkedNode α) (side : Side) (link : Option Handle) : LinkedNode α :=
  match side with
  | .left => { n with left := link }
  | .right => { n with right := link }

end LinkedNode

/-- The place of a node, in the generation that it has come to. -/
structure Cell (α : Type) where
  generation : Nat
  node : Option (LinkedNode α)
  deriving Inhabited

namespace Cell

variable {α : Type}

def slot (c : Cell α) : Slot :=
  ⟨c.generation, c.node.isSome⟩

def freed (c : Cell α) : Cell α :=
  ⟨(c.generation + 1) % Slot.generations, none⟩

end Cell

/-- Nodes in cells, with a link to the one on top. -/
structure Linked (α : Type) where
  owner : Nat
  cells : Array (Cell α)
  /-- The cells without a node, last freed first. -/
  vacant : List Nat
  root : Option Handle
  size : Nat
  deriving Inhabited

abbrev LinkedOperation (ε α β : Type) : Type :=
  Operation (Linked α) ε β

namespace Linked

variable {α κ ε : Type}

def empty (owner : Nat) : Linked α :=
  ⟨owner, #[], [], none, 0⟩

/-- Number of cells that hold a node. -/
def occupied (x : Linked α) : Nat :=
  x.cells.countP fun c => c.node.isSome

/-! ## Cells -/

/-- The node with a handle, if this index issued it and the cell is still in its generation. -/
def node? (x : Linked α) (id : Handle) : Option (LinkedNode α) :=
  if id.owner = x.owner then
    match x.cells[id.slot]? with
    | some c => if c.generation = id.generation then c.node else none
    | none => none
  else
    none

/-- Writes a node to the cell of a handle. -/
def put (x : Linked α) (id : Handle) (n : LinkedNode α) : Linked α :=
  { x with cells := x.cells.modify id.slot fun c => { c with node := some n } }

/-- Empties a cell. -/
def release (x : Linked α) (slot : Nat) : Linked α :=
  { x with cells := x.cells.modify slot Cell.freed, vacant := slot :: x.vacant }

/-- The node that a link leads to. -/
def resolve (id : Handle) : LinkedOperation ε α (LinkedNode α) := do
  match (← Operation.get).node? id with
  | some n => return n
  | none => Operation.crash (.danglingLink id)

def alter (id : Handle) (f : LinkedNode α → LinkedNode α) : LinkedOperation ε α Unit := do
  let n ← resolve id
  Operation.modify fun x => x.put id (f n)

/-- Finds a cell for a new node and names it. -/
def occupy (n : LinkedNode α) : LinkedOperation ε α Handle := do
  let x ← Operation.get
  match x.vacant with
  | slot :: vacant =>
    Operation.set { x with vacant := vacant }
    match x.cells[slot]? with
    | none => Operation.stop (.indexOutOfBounds x.cells.size slot)
    | some c =>
      if c.node.isSome then
        Operation.stop .occupiedSlot
      else
        let id : Handle := ⟨x.owner, slot, c.generation⟩
        Operation.modify fun x => x.put id n
        return id
  | [] =>
    if x.cells.size < Slots.capacity then
      Operation.set { x with cells := x.cells.push ⟨0, some n⟩ }
      return ⟨x.owner, x.cells.size, 0⟩
    else
      Operation.note .error "avl: node arena exhausted"
      Operation.stop (.slotsExhausted x.cells.size)

/-- Takes a node out of its cell. -/
def vacate (id : Handle) : LinkedOperation ε α α := do
  let n ← resolve id
  Operation.modify fun x => x.release id.slot
  return n.value

/-! ## Heights -/

def heightOf : Option Handle → LinkedOperation ε α Nat
  | none => return 0
  | some id => do
    let n ← resolve id
    return n.height

def balance (id : Handle) : LinkedOperation ε α Int := do
  let n ← resolve id
  let right ← heightOf n.right
  let left ← heightOf n.left
  return right - left

def updateHeight (id : Handle) : LinkedOperation ε α Unit := do
  let n ← resolve id
  let left ← heightOf n.left
  let right ← heightOf n.right
  alter id fun n => { n with height := 1 + max left right }

/-! ## Links -/

def setChild (parent : Handle) (side : Side) (link : Option Handle) : LinkedOperation ε α Unit :=
  alter parent fun n => n.withChild side link

/-- Tells a child, if there is one, who its parent is. -/
def adopt (child parent : Option Handle) : LinkedOperation ε α Unit :=
  match child with
  | none => return ()
  | some child => alter child fun n => { n with parent := parent }

/-- Makes the link to `old`, from its parent or from outside, a link to `new`. -/
def replaceChild (parent : Option Handle) (old : Handle) (new : Option Handle) :
    LinkedOperation ε α Unit :=
  match parent with
  | none => Operation.modify fun x => { x with root := new }
  | some p => do
    let n ← resolve p
    if n.left = some old then
      setChild p .left new
    else if n.right = some old then
      setChild p .right new
    else
      Operation.stop (.strayChild n.right old)

/-- A child that the heights say is there. -/
def childOf (id : Handle) (side : Side) : LinkedOperation ε α Handle := do
  let n ← resolve id
  match n.child side with
  | some c => return c
  | none => Operation.crash (.missingChild id)

/-! ## Walking -/

/-- The outermost node on one side of a subtree. -/
def extreme (side : Side) : Nat → Handle → LinkedOperation ε α Handle
  | 0, id => Operation.stop (.endlessWalk id)
  | steps + 1, id => do
    let n ← resolve id
    match n.child side with
    | some c => extreme side steps c
    | none => return id

/-- The first node above `child` that lies to the given side of it. -/
def ascend (side : Side) : Nat → Handle → Option Handle → LinkedOperation ε α (Option Handle)
  | _, _, none => return none
  | 0, _, some id => Operation.stop (.endlessWalk id)
  | steps + 1, child, some id => do
    let n ← resolve id
    if n.child side.other = some child then
      return some id
    else
      ascend side steps id n.parent

/-- The outermost node on one side of the whole index. -/
def last? (side : Side) : LinkedOperation ε α (Option Handle) := do
  let x ← Operation.get
  match x.root with
  | none => return none
  | some id => some <$> extreme side x.cells.size id

/-- The next node on one side, in the order of the index. -/
def next? (side : Side) (id : Handle) : LinkedOperation ε α (Option Handle) := do
  let x ← Operation.get
  match x.node? id with
  | none => return none
  | some n =>
    match n.child side with
    | some c => some <$> extreme side.other x.cells.size c
    | none => ascend side x.cells.size id n.parent

/-- Descends by a probe to the node whose value it equals, and without one to the last node
that was left behind on the side of the mode. -/
def seek (probe : α → Ordering) (mode : SearchMode) :
    Nat → Option Handle → Option Handle → LinkedOperation ε α (Option Handle)
  | _, best, none => return best
  | 0, _, some id => Operation.stop (.endlessWalk id)
  | steps + 1, best, some id => do
    let n ← resolve id
    match probe n.value with
    | .eq => return some id
    | .lt => seek probe mode steps (if mode = .above then some id else best) n.left
    | .gt => seek probe mode steps (if mode = .below then some id else best) n.right

/-- The value that a probe equals, or its neighbour on the side the mode names. -/
def search? (probe : α → Ordering) (mode : SearchMode) : LinkedOperation ε α (Option Handle) := do
  let x ← Operation.get
  seek probe mode x.cells.size none x.root

/-- The nodes from a link on, each found from the one before it. -/
def iterateFrom : Nat → Option Handle → LinkedOperation ε α (List (Handle × α))
  | _, none => return []
  | 0, some id => Operation.stop (.endlessWalk id)
  | steps + 1, some id => do
    let next ← next? .right id
    let n ← resolve id
    return (id, n.value) :: (← iterateFrom steps next)

def iterate : LinkedOperation ε α (List (Handle × α)) := do
  let x ← Operation.get
  iterateFrom x.cells.size (← last? .left)

/-- The handles and values under a link in order, as deep as `steps` lets it look. -/
def listing (x : Linked α) : Nat → Option Handle → List (Handle × α)
  | steps + 1, some id =>
    match x.node? id with
    | some n => x.listing steps n.left ++ (id, n.value) :: x.listing steps n.right
    | none => []
  | _, _ => []

def toList (x : Linked α) : List (Handle × α) :=
  x.listing x.cells.size x.root

/-- The value that a handle names. -/
def get? (x : Linked α) (id : Handle) : Option α :=
  (x.node? id).map LinkedNode.value

def contains (x : Linked α) (id : Handle) : Bool :=
  (x.node? id).isSome

/-- The height stored behind a link; zero behind none. -/
def heightAt (x : Linked α) (link : Option Handle) : Nat :=
  ((link.bind x.node?).map LinkedNode.height).getD 0

def height (x : Linked α) : Nat :=
  x.heightAt x.root

def parent? (x : Linked α) (id : Handle) : Option Handle :=
  (x.node? id).bind LinkedNode.parent

/-- How much higher the right side of a node is than the left one. -/
def balance? (x : Linked α) (id : Handle) : Option Int :=
  (x.node? id).map fun n => (x.heightAt n.right : Int) - x.heightAt n.left

/-! ## Balancing -/

/-- Lowers a node to one side; its child on the other side takes its place. -/
def rotate (side : Side) (id : Handle) : LinkedOperation ε α Handle := do
  let raised ← childOf id side.other
  let between := (← resolve raised).child side
  let parent := (← resolve id).parent
  alter id fun n => n.withChild side.other between
  adopt between (some id)
  alter raised fun n => n.withChild side (some id)
  alter id fun n => { n with parent := some raised }
  alter raised fun n => { n with parent := parent }
  replaceChild parent id (some raised)
  updateHeight id
  updateHeight raised
  return raised

/-- Lowers a node that is too high on one side, by one rotation, or by two if the child on
that side is higher on its inner side. -/
def lower (side : Side) (id : Handle) : LinkedOperation ε α Handle := do
  let heavy ← childOf id side
  let balance ← balance heavy
  let inner := side.lean balance < 0
  let case := side.rotationCase (if inner then side.other else side)
  Operation.note .trace ("avl: " ++ case.name ++ " case at " ++ id.text)
  if inner then
    let _ ← rotate side heavy
  rotate side.other id

/-- Brings a node into balance whose subtrees are, and answers which node is on top then. -/
def settle (id : Handle) : LinkedOperation ε α Handle := do
  updateHeight id
  let balance ← balance id
  if 1 < balance then lower .right id
  else if balance < -1 then lower .left id
  else return id

/-- Settles the nodes from one up to the root, or to the first that comes out as high as it
was: nothing above it can have changed. -/
def rebalance : Nat → Option Handle → LinkedOperation ε α Unit
  | _, none => return ()
  | 0, some id => Operation.stop (.endlessWalk id)
  | steps + 1, some id => do
    let before := (← resolve id).height
    let top ← settle id
    let n ← resolve top
    if n.height = before then return () else rebalance steps n.parent

def rebalanceFrom (start : Option Handle) : LinkedOperation ε α Unit := do
  let x ← Operation.get
  rebalance x.cells.size start

/-! ## Changing -/

/-- The place of a new leaf: the node it goes under, and on which side of it. -/
def descend (probe : α → Ordering) :
    Nat → Option (Handle × Side) → Option Handle →
      LinkedOperation IndexError α (Option (Handle × Side))
  | _, place, none => return place
  | 0, _, some id => Operation.stop (.endlessWalk id)
  | steps + 1, _, some id => do
    let n ← resolve id
    match probe n.value with
    | .lt => descend probe steps (some (id, .left)) n.left
    | .gt => descend probe steps (some (id, .right)) n.right
    | .eq => Operation.refuse (.collision id)

/-- Makes a leaf the child at its place; without a node above, it is the root. -/
def attach (place : Option (Handle × Side)) (leaf : Handle) : LinkedOperation ε α Unit :=
  match place with
  | none => Operation.modify fun x => { x with root := some leaf }
  | some (parent, side) => setChild parent side (some leaf)

def insert (keying : Keying α κ) (value : α) : LinkedOperation IndexError α Handle := do
  let x ← Operation.get
  let place ← descend (keying.locate (keying.key value)) x.cells.size none x.root
  let id ← occupy (.leaf (place.map Prod.fst) value)
  attach place id
  Operation.modify fun x => { x with size := x.size + 1 }
  rebalanceFrom (place.map Prod.fst)
  return id

/-- Takes the successor of a node out of the right side of it, unless it is the child there,
and answers from where on the heights have to be looked at. -/
def detachSuccessor (successor right : Handle) : LinkedOperation ε α (Option Handle) := do
  if successor = right then
    return some successor
  else
    let s ← resolve successor
    match s.parent with
    | some parent => setChild parent .left s.right
    | none => pure ()
    adopt s.right s.parent
    setChild successor .right (some right)
    adopt (some right) (some successor)
    return s.parent

/-- Takes a node out of the links. With one child at most, the child moves up; with two, the
successor takes the place of the node. Answers from where on the heights have to be looked
at. -/
def unlink (id : Handle) (n : LinkedNode α) : LinkedOperation ε α (Option Handle) := do
  match n.left, n.right with
  | some left, some right =>
    let x ← Operation.get
    let successor ← extreme .left x.cells.size right
    let start ← detachSuccessor successor right
    setChild successor .left (some left)
    adopt (some left) (some successor)
    alter successor fun s => { s with parent := n.parent, height := n.height }
    replaceChild n.parent id (some successor)
    return start
  | left, right =>
    let child := left.or right
    adopt child n.parent
    replaceChild n.parent id child
    return n.parent

def remove (id : Handle) : LinkedOperation IndexError α α := do
  let x ← Operation.get
  match x.node? id with
  | none => Operation.refuse (.stale id)
  | some n =>
    let start ← unlink id n
    let value ← vacate id
    Operation.modify fun x => { x with size := x.size - 1 }
    rebalanceFrom start
    return value

/-- Overwrites a value without moving its node. -/
def set (x : Linked α) (id : Handle) (value : α) : Linked α :=
  match x.node? id with
  | some n => x.put id { n with value := value }
  | none => x

/-- Empties every cell in ascending order. -/
def clear (x : Linked α) : Linked α :=
  let emptied := (List.range x.cells.size).foldl
    (fun x slot => if (x.cells.getD slot default).node.isSome then x.release slot else x) x
  { emptied with root := none, size := 0 }

/-! ## Auditing -/

/-- Refuses a link to no node or to one that does not link back. -/
def auditChild (id : Handle) : Option Handle → LinkedOperation IndexViolation α Unit
  | none => return ()
  | some child => do
    match (← Operation.get).node? child with
    | none => Operation.refuse (.dangling child)
    | some n => if n.parent = some id then return () else Operation.refuse (.brokenParentLink child)

/-- The height and the number of nodes of a subtree, if its links go both ways, every stored
height is right and every node balanced. -/
def auditFrom : Nat → Option Handle → LinkedOperation IndexViolation α (Nat × Nat)
  | _, none => return (0, 0)
  | 0, some id => Operation.stop (.endlessWalk id)
  | steps + 1, some id => do
    match (← Operation.get).node? id with
    | none => Operation.refuse (.dangling id)
    | some n =>
      auditChild id n.right
      auditChild id n.left
      let (left, lefts) ← auditFrom steps n.left
      let (right, rights) ← auditFrom steps n.right
      let height := 1 + max left right
      let balance : Int := right - left
      if n.height ≠ height then
        Operation.refuse (.heightMismatch id n.height height)
      else if balance < -1 ∨ 1 < balance then
        Operation.refuse (.unbalanced id balance)
      else
        return (height, lefts + 1 + rights)

/-- Compares the keys of nodes that follow one another. -/
def auditOrder (keying : Keying α κ) :
    Nat → Option Handle → Option Handle → LinkedOperation IndexViolation α Unit
  | _, _, none => return ()
  | 0, _, some id => Operation.stop (.endlessWalk id)
  | steps + 1, previous, some id => do
    let next ← next? .right id
    let n ← resolve id
    match previous with
    | none => pure ()
    | some p =>
      let before ← resolve p
      if keying.compare (keying.key before.value) (keying.key n.value) ≠ .lt then
        Operation.refuse (.outOfOrder id p)
    auditOrder keying steps (some id) next

def audit (keying : Keying α κ) : LinkedOperation IndexViolation α Unit := do
  let x ← Operation.get
  match x.root with
  | none =>
    if x.size = 0 then return () else Operation.refuse (.countMismatch x.size 0)
  | some root =>
    match x.node? root with
    | none => Operation.refuse (.dangling root)
    | some n =>
      if n.parent.isSome then
        Operation.refuse (.brokenParentLink root)
      let (_, reachable) ← auditFrom x.cells.size (some root)
      if reachable ≠ x.size then
        Operation.refuse (.countMismatch x.size reachable)
      auditOrder keying (x.cells.size + 1) none (← last? .left)

end Linked

end KernelMemory
