import KernelMemory.Handle

/-!
# Height-balanced trees

The shape of an index: a binary tree whose nodes carry a handle, a value and the
height of their subtree. Values are found by handle or by a probe that tells each
value whether to look left, right or stop. Inserting and removing rotate where the
two sides of a node have come to differ by more than one.

An update walks from the place of change towards the root. It refreshes heights,
rotates where needed, and ends at the first subtree whose height comes out as it was
before, since nothing above it can have changed. `Change` carries what the walk needs:
the new subtree, the rotations so far, and whether the walk goes on.

The in-order view is `toList`; every other function of this module can be said in
terms of it.
-/

namespace KernelMemory

/-- A binary tree of named values with the height stored at each node. -/
inductive Tree (α : Type) where
  | nil
  | node (left : Tree α) (handle : Handle) (value : α) (height : Nat) (right : Tree α)
  deriving Inhabited

inductive SearchMode
  | exact
  /-- At the nearest value above the probe. -/
  | above
  /-- At the nearest value below the probe. -/
  | below
  deriving DecidableEq, Inhabited

/-- The four ways to rotate, named by the side that is too high and the side of that
child that is higher. -/
inductive RotationCase
  | rightLeft
  | rightRight
  | leftRight
  | leftLeft
  deriving DecidableEq

namespace RotationCase

def name : RotationCase → String
  | rightLeft => "right-left"
  | rightRight => "right-right"
  | leftRight => "left-right"
  | leftLeft => "left-left"

end RotationCase

structure Rotation where
  case : RotationCase
  pivot : Handle
  deriving DecidableEq

namespace Tree

variable {α : Type}

/-! ## Views -/

/-- The stored height, zero for no tree. -/
def height : Tree α → Nat
  | nil => 0
  | node _ _ _ height _ => height

def size : Tree α → Nat
  | nil => 0
  | node left _ _ _ right => left.size + 1 + right.size

def toList : Tree α → List (Handle × α)
  | nil => []
  | node left handle value _ right => left.toList ++ (handle, value) :: right.toList

def handles (t : Tree α) : List Handle :=
  t.toList.map Prod.fst

/-- Height of the right side less height of the left side. -/
def balance : Tree α → Int
  | nil => 0
  | node left _ _ _ right => right.height - left.height

@[simp] theorem toList_nil : (nil : Tree α).toList = [] := rfl

@[simp] theorem toList_node (left : Tree α) (handle : Handle) (value : α) (height : Nat)
    (right : Tree α) :
    (node left handle value height right).toList =
      left.toList ++ (handle, value) :: right.toList := rfl

theorem length_toList (t : Tree α) : t.toList.length = t.size := by
  induction t with
  | nil => rfl
  | node left _ _ _ right ihl ihr => simp [size, ihl, ihr]; omega

/-! ## Reading -/

def root? : Tree α → Option Handle
  | nil => none
  | node _ handle _ _ _ => some handle

def find? (id : Handle) : Tree α → Option α
  | nil => none
  | node left handle value _ right =>
    if handle = id then some value else (left.find? id).or (right.find? id)

def first? : Tree α → Option Handle
  | nil => none
  | node left handle _ _ _ => left.first?.or (some handle)

def last? : Tree α → Option Handle
  | nil => none
  | node _ handle _ _ right => right.last?.or (some handle)

/-- The handle after `id` in a subtree that `bound` follows: the first of its right
side, or else the nearest node above that it lies to the left of. The outer option
tells whether `id` is in the subtree. -/
def after (id : Handle) : Tree α → Option Handle → Option (Option Handle)
  | nil, _ => none
  | node left handle _ _ right, bound =>
    if handle = id then some (right.first?.or bound)
    else (left.after id (some handle)).or (right.after id bound)

/-- The handle before `id` in a subtree that `bound` precedes. -/
def before (id : Handle) : Tree α → Option Handle → Option (Option Handle)
  | nil, _ => none
  | node left handle _ _ right, bound =>
    if handle = id then some (left.last?.or bound)
    else (left.before id bound).or (right.before id (some handle))

def successor? (t : Tree α) (id : Handle) : Option Handle :=
  (t.after id none).join

def predecessor? (t : Tree α) (id : Handle) : Option Handle :=
  (t.before id none).join

/-- Descends by a probe. A value that the probe equals is the answer; otherwise the
mode decides whether the last value left behind on that side is. -/
def search (probe : α → Ordering) (mode : SearchMode) : Tree α → Option (Handle × α)
  | nil => none
  | node left handle value _ right =>
    match probe value with
    | .eq => some (handle, value)
    | .lt =>
      (left.search probe mode).or (if mode = .above then some (handle, value) else none)
    | .gt =>
      (right.search probe mode).or (if mode = .below then some (handle, value) else none)

/-! ## Changing -/

def set (id : Handle) (new : α) : Tree α → Tree α
  | nil => nil
  | node left handle value height right =>
    if handle = id then node left handle new height right
    else node (left.set id new) handle value height (right.set id new)

/-- A node over two subtrees, with the height that they give it. -/
def join (left : Tree α) (handle : Handle) (value : α) (right : Tree α) : Tree α :=
  node left handle value (1 + max left.height right.height) right

/-- Lifts the right child above the root; a root without one stays. -/
def rotateLeft : Tree α → Tree α
  | node a x v _ (node b y w _ c) => join (join a x v b) y w c
  | t => t

/-- Lifts the left child above the root; a root without one stays. -/
def rotateRight : Tree α → Tree α
  | node (node a x v _ b) y w _ c => join a x v (join b y w c)
  | t => t

end Tree

/-- A subtree after an update: what it has become, the rotations from the bottom up,
and whether its height changed, so that the node above has to be looked at. -/
structure Change (α : Type) where
  tree : Tree α
  rotations : List Rotation
  climbs : Bool

namespace Tree

variable {α : Type}

/-- A node whose subtrees were updated, brought back into balance. `was` is the height
it had before. -/
def restore (left : Tree α) (handle : Handle) (value : α) (was : Nat) (right : Tree α) :
    Change α :=
  let fresh := join left handle value right
  if left.height + 1 < right.height then
    if right.balance < 0 then
      let tree := (join left handle value right.rotateRight).rotateLeft
      ⟨tree, [⟨.rightLeft, handle⟩], tree.height != was⟩
    else
      let tree := fresh.rotateLeft
      ⟨tree, [⟨.rightRight, handle⟩], tree.height != was⟩
  else if right.height + 1 < left.height then
    if 0 < left.balance then
      let tree := (join left.rotateLeft handle value right).rotateRight
      ⟨tree, [⟨.leftRight, handle⟩], tree.height != was⟩
    else
      let tree := fresh.rotateRight
      ⟨tree, [⟨.leftLeft, handle⟩], tree.height != was⟩
  else
    ⟨fresh, [], fresh.height != was⟩

end Tree

namespace Change

variable {α : Type}

/-- Continues the walk at the node whose left side was changed. -/
def ontoLeft (c : Change α) (handle : Handle) (value : α) (was : Nat) (right : Tree α) :
    Change α :=
  if c.climbs then
    let d := Tree.restore c.tree handle value was right
    { d with rotations := c.rotations ++ d.rotations }
  else
    { c with tree := .node c.tree handle value was right }

/-- Continues the walk at the node whose right side was changed. -/
def ontoRight (left : Tree α) (handle : Handle) (value : α) (was : Nat) (c : Change α) :
    Change α :=
  if c.climbs then
    let d := Tree.restore left handle value was c.tree
    { d with rotations := c.rotations ++ d.rotations }
  else
    { c with tree := .node left handle value was c.tree }

end Change

/-- The first node of a tree, taken out. -/
structure Detached (α : Type) where
  handle : Handle
  value : α
  rest : Change α

namespace Tree

variable {α : Type}

/-- Adds a leaf where the probe leads to. A value that the probe equals sends it to
the right; callers search for such a value first. -/
def insert (probe : α → Ordering) (id : Handle) (new : α) : Tree α → Change α
  | nil => ⟨join nil id new nil, [], true⟩
  | node left handle value height right =>
    match probe value with
    | .lt => (left.insert probe id new).ontoLeft handle value height right
    | _ => Change.ontoRight left handle value height (right.insert probe id new)

/-- Takes out the first node; its right side moves up into its place. -/
def popFirst? : Tree α → Option (Detached α)
  | nil => none
  | node left handle value height right =>
    match left.popFirst? with
    | none => some ⟨handle, value, ⟨right, [], true⟩⟩
    | some first =>
      some { first with rest := first.rest.ontoLeft handle value height right }

/-- What is left of a node that loses its root. A single side moves up; of two sides,
the first node of the right one takes the place of the root. -/
def unroot (left : Tree α) (height : Nat) (right : Tree α) : Change α :=
  match left, right.popFirst? with
  | nil, _ => ⟨right, [], true⟩
  | left, none => ⟨left, [], true⟩
  | left, some next => Change.ontoRight left next.handle next.value height next.rest

def remove? (id : Handle) : Tree α → Option (α × Change α)
  | nil => none
  | node left handle value height right =>
    if handle = id then
      some (value, left.unroot height right)
    else
      match left.remove? id with
      | some (old, c) => some (old, c.ontoLeft handle value height right)
      | none =>
        match right.remove? id with
        | some (old, c) => some (old, Change.ontoRight left handle value height c)
        | none => none

end Tree

end KernelMemory
