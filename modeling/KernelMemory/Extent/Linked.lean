import KernelMemory.Extent.Audit
import KernelMemory.Extent.Reclaim

/-!
# Extent maps with linked size classes

An extent map as it lies in memory. The members of a size class form a doubly linked list
that runs through the extents themselves: an extent knows its neighbours there by their
handles, and the class knows its first member and how many there are. An extent is unlinked
before its range or its usage changes, and linked again afterwards, in front of its class.

Nothing here takes for granted that the links are right. A link that leads to no extent is
passed over where links are updated, and ends an iteration; a counter that leaves its range
is a fault.
-/

namespace KernelMemory

/-- An extent with its neighbours in the list of its size class. -/
structure LinkedExtent where
  extent : Extent
  before : Option Handle
  after : Option Handle
  deriving DecidableEq, Inhabited

namespace LinkedExtent

/-- An extent in no size class. -/
def unlisted (range : Range) (usage previous : Usage) : LinkedExtent :=
  ⟨.unlisted range usage previous, none, none⟩

def keying : Keying LinkedExtent Range where
  key e := e.extent.range
  compare := Range.compare
  describe e := e.extent.text

end LinkedExtent

/-- The list of a size class: its first member and the number of its members. -/
structure LinkedClass where
  head : Option Handle
  size : Nat
  deriving DecidableEq, Inhabited

/-- The extents of one region, with the lists of the size classes threaded through them. -/
structure LinkedMap where
  name : String
  region : Range
  index : Index LinkedExtent
  classes : Vector LinkedClass 64
  deriving Inhabited

abbrev LinkedMapOperation (α : Type) : Type :=
  Operation LinkedMap ExtentError α

namespace LinkedMap

/-! ## Views -/

def toList (x : LinkedMap) : List (Handle × LinkedExtent) :=
  x.index.toList

def size (x : LinkedMap) : Nat :=
  x.index.size

def get? (x : LinkedMap) (id : Handle) : Option LinkedExtent :=
  x.index.get? id

def extent? (x : LinkedMap) (id : Handle) : Option Extent :=
  (x.get? id).map LinkedExtent.extent

/-- The extent that contains an address, and its handle. -/
def find? (x : LinkedMap) (address : Nat) : Option (Handle × LinkedExtent) :=
  x.index.tree.search (fun e => Range.locate address e.extent.range) .exact

/-- The list of a size class. -/
def classOf (x : LinkedMap) (index : Nat) : LinkedClass :=
  x.classes.toArray.getD index default

/-- The number of members that a size class has counted. -/
def memberCount (x : LinkedMap) (index : Nat) : Nat :=
  (x.classOf index).size

def withClass (x : LinkedMap) (index : Nat) (c : LinkedClass) : LinkedMap :=
  { x with classes := x.classes.setIfInBounds index c }

def withIndex (x : LinkedMap) (ix : Index LinkedExtent) : LinkedMap :=
  { x with index := ix }

/-! ## Size classes -/

def empty : Vector LinkedClass 64 :=
  .replicate 64 ⟨none, 0⟩

/-- The list of a size class, which has to be one of those there are. -/
def classAt (index : Nat) : LinkedMapOperation LinkedClass := do
  let x ← Operation.get
  if index < SizeClasses.count then
    return x.classOf index
  else
    Operation.stop (.indexOutOfBounds SizeClasses.count index)

def setClass (index : Nat) (c : LinkedClass) : LinkedMapOperation Unit :=
  Operation.modify fun x => x.withClass index c

def alter (id : Handle) (f : LinkedExtent → LinkedExtent) : LinkedMapOperation Unit :=
  Operation.modify fun x => x.withIndex (x.index.modify id f)

/-- Changes the extent that a link leads to, if there is one. -/
def alterBehind (link : Option Handle) (f : LinkedExtent → LinkedExtent) :
    LinkedMapOperation Unit :=
  match link with
  | none => return ()
  | some id => alter id f

/-- Links a free extent in front of the size class of its length; any other extent is in
none. -/
def list (id : Handle) : LinkedMapOperation Unit := do
  let x ← Operation.get
  match x.extent? id with
  | none => return ()
  | some e =>
    alter id fun e => { e with before := none }
    if e.usage.isFree then
      let index := sizeClass e.length
      let c ← classAt index
      alter id fun e =>
        { e with extent := { e.extent with listedIn := some index }, after := c.head }
      alterBehind c.head fun e => { e with before := some id }
      setClass index { c with head := some id }
      let size ← Operation.sum (c.size + 1)
      setClass index ⟨some id, size⟩
    else
      alter id fun e => { e with extent := { e.extent with listedIn := none }, after := none }

/-- Makes the link that leads to a member lead to the one behind it. -/
def bridge (index : Nat) (before after : Option Handle) : LinkedMapOperation Unit :=
  match before with
  | some id => alter id fun e => { e with after := after }
  | none => do
    let c ← classAt index
    setClass index { c with head := after }

/-- Unlinks an extent from the size class it is listed in, if any. -/
def delist (id : Handle) : LinkedMapOperation Unit := do
  let x ← Operation.get
  match x.get? id with
  | none => return ()
  | some e =>
    match e.extent.listedIn with
    | none => return ()
    | some index =>
      alter id fun e => ⟨{ e.extent with listedIn := none }, none, none⟩
      bridge index e.before e.after
      alterBehind e.after fun next => { next with before := e.before }
      let c ← classAt index
      let size ← Operation.difference c.size 1
      setClass index { c with size := size }

/-- Changes an extent while it is in no size class. -/
def relist (id : Handle) (f : Extent → Extent) : LinkedMapOperation Unit := do
  delist id
  alter id fun e => { e with extent := f e.extent }
  list id

/-- The members of a size class from a link on, at most `steps` of them. The list ends at a
link that leads to no extent. -/
def walk : Nat → Option Handle → LinkedMapOperation (List (Handle × LinkedExtent))
  | _, none => return []
  | 0, some id => do
    let x ← Operation.get
    match x.get? id with
    | none => return []
    | some _ => Operation.stop (.endlessWalk id)
  | steps + 1, some id => do
    let x ← Operation.get
    match x.get? id with
    | none => return []
    | some e => return (id, e) :: (← walk steps e.after)

/-- The members of a size class. There are no more of them than extents. -/
def listing (index : Nat) : LinkedMapOperation (List (Handle × LinkedExtent)) := do
  let c ← classAt index
  let x ← Operation.get
  walk x.size c.head

/-! ## Steps -/

def onIndex {ε α : Type} (op : Operation (Index LinkedExtent) ε α) : Operation LinkedMap ε α :=
  op.within LinkedMap.index withIndex

def note (level : Level) (text : String) : LinkedMapOperation Unit := do
  let x ← Operation.get
  Operation.note level ("xad[" ++ x.name ++ "]: " ++ text)

/-- Ends because the index does not hold what the map relies on. -/
def broken {α : Type} (cause : Breakage) : LinkedMapOperation α := do
  let x ← Operation.get
  Operation.crash (.brokenMap x.name cause)

/-- The extent with a handle that the map itself keeps. -/
def resolve (id : Handle) : LinkedMapOperation Extent := do
  let x ← Operation.get
  match x.extent? id with
  | some e => return e
  | none => broken (.resolving id)

/-- Adds an extent that overlaps no other and lists it. -/
def place (e : LinkedExtent) (cause : IndexError → Breakage) : LinkedMapOperation Handle := do
  match ← (onIndex (Index.insert LinkedExtent.keying e)).attempt with
  | .ok id =>
    list id
    return id
  | .error error => broken (cause error)

def displace (id : Handle) : LinkedMapOperation Extent := do
  delist id
  match ← (onIndex (Index.remove id)).attempt with
  | .ok e => return e.extent
  | .error error => broken (.removing error)

/-! ## Creation -/

/-- Forgets every extent and starts over with a single free one. -/
def reset : LinkedMapOperation Unit := do
  Operation.modify fun x => { x with index := x.index.clear, classes := empty }
  let x ← Operation.get
  let _ ← place (.unlisted x.region .free .free) .seeding

/-- A map of a region that is free as a whole. -/
def create {σ : Type} (owner : Nat) (name : String) (region : Range) :
    Operation σ ExtentError LinkedMap := do
  let (_, x) ← Operation.build ⟨name, region, .empty owner, empty⟩ do
    reset
    note .info ("tracking " ++ region.text)
  return x

/-! ## Single extents -/

/-- Tracks a new extent without merging it with its neighbours. -/
def insert (range : Range) (usage : Usage) : LinkedMapOperation Handle := do
  let x ← Operation.get
  if x.region.encloses range then
    let id ← (onIndex (Index.insert LinkedExtent.keying
      (.unlisted range usage usage))).mapError ExtentError.ofIndexError
    list id
    note .debug ("insert " ++ range.text ++ " " ++ usage.text)
    return id
  else
    Operation.refuse (.invalidRange range.start range.stop)

/-- Stops tracking the extent that has exactly this range. -/
def delete (range : Range) : LinkedMapOperation Extent := do
  let x ← Operation.get
  match x.index.search LinkedExtent.keying range .exact with
  | none => Operation.refuse .notFound
  | some (id, found) =>
    if found.extent.range = range then
      let e ← displace id
      note .debug ("delete " ++ e.text)
      return e
    else
      Operation.refuse .notFound

/-! ## Merging -/

/-- The extent just before `e` with the same usage, and the range the two cover. -/
def leftTwin? (x : LinkedMap) (id : Handle) (e : Extent) : Option (Handle × Range) := do
  let other ← x.index.predecessor? id
  let l ← x.extent? other
  if meets : l.range.stop = e.range.start then
    if l.usage = e.usage then some (other, l.range.join e.range meets) else none
  else
    none

/-- The extent just after `e` with the same usage, and the range the two cover. -/
def rightTwin? (x : LinkedMap) (id : Handle) (e : Extent) : Option (Handle × Range) := do
  let other ← x.index.successor? id
  let r ← x.extent? other
  if meets : e.range.stop = r.range.start then
    if r.usage = e.usage then some (other, e.range.join r.range meets) else none
  else
    none

/-- Removes `other` and lets `id`, so far `range`, cover `joined`. -/
def absorb (other id : Handle) (range joined : Range) : LinkedMapOperation Unit := do
  let absorbed ← displace other
  relist id fun e => { e with range := joined }
  note .debug ("merged " ++ absorbed.range.text ++ " into " ++ range.text)

/-- Absorbs neighbours of the same usage, at most `fuel` of them. -/
def mergeUpTo : Nat → Handle → LinkedMapOperation Handle
  | 0, id => return id
  | fuel + 1, id => do
    let e ← resolve id
    let x ← Operation.get
    match (x.leftTwin? id e).or (x.rightTwin? id e) with
    | none => return id
    | some (other, joined) =>
      absorb other id e.range joined
      mergeUpTo fuel id

/-- Absorbs neighbours of the same usage until none is left. Each step removes an
extent, so as many steps as there are extents are enough. -/
def mergeAround (id : Handle) : LinkedMapOperation Handle := do
  let x ← Operation.get
  mergeUpTo x.size id

/-- Merges the extent that contains an address with its equal neighbours. -/
def merge (address : Nat) : LinkedMapOperation Handle := do
  let x ← Operation.get
  match x.find? address with
  | none => Operation.refuse .notFound
  | some (id, _) => mergeAround id

/-! ## Cutting -/

theorem start_le_stop_of_encloses {whole : Extent} {range : Range}
    (inside : whole.range.encloses range = true) : range.start ≤ whole.range.stop := by
  have hlt := range.start_lt_stop
  simp only [Range.encloses, Bool.and_eq_true, decide_eq_true_eq] at inside
  omega

/-- Shrinks `target` to what lies before `range`, or gives it the range and the new
usage if nothing does. -/
def shrink (target : Handle) (whole : Extent) (range : Range) (usage : Usage)
    (inside : whole.range.encloses range = true) : LinkedMapOperation Unit :=
  relist target fun e =>
    if h : whole.range.start < range.start then
      { e with range := whole.range.takeTo range.start h (start_le_stop_of_encloses inside) }
    else
      { e with range := range, usage := usage, previous := whole.usage }

/-- Cuts `range` out of the extent `target`, which is `whole`, and merges the piece
with its neighbours. -/
def carve (target : Handle) (whole : Extent) (range : Range) (usage : Usage)
    (inside : whole.range.encloses range = true) : LinkedMapOperation Handle := do
  shrink target whole range usage inside
  let middle ←
    if whole.range.start < range.start then
      place (.unlisted range usage whole.usage) .splitting
    else
      pure target
  if h : range.stop < whole.range.stop then
    let _ ← place (.unlisted (whole.range.dropTo range.stop h) whole.usage whole.previous)
      .splitting
  note .debug
    ("reclaim " ++ range.text ++ " " ++ whole.usage.text ++ " -> " ++ usage.text)
  mergeAround middle

/-- Gives `range`, inside the extent `target`, a new usage. Returns the extent that
covers the range afterwards. -/
def reclaim (target : Handle) (range : Range) (usage : Usage) (expected : Option Usage) :
    LinkedMapOperation Handle := do
  let x ← Operation.get
  match x.extent? target with
  | none => Operation.refuse (.stale target)
  | some whole =>
    if inside : whole.range.encloses range = true then
      match expected.filter (· ≠ whole.usage) with
      | some other => Operation.refuse (.usageMismatch other whole.usage)
      | none =>
        if whole.usage = usage then
          return target
        else
          carve target whole range usage inside
    else
      note .warn
        ("reclaim of " ++ range.text ++ " outside target " ++ whole.range.text)
      Operation.refuse (.invalidRange range.start range.stop)

/-- Like `reclaim`, on the extent that contains the start of the range. -/
def reclaimAt (range : Range) (usage : Usage) (expected : Option Usage) :
    LinkedMapOperation Handle := do
  let x ← Operation.get
  match x.find? range.start with
  | none => Operation.refuse .notFound
  | some (target, _) => reclaim target range usage expected

/-! ## Auditing -/

def extents (x : LinkedMap) : List Extent :=
  x.toList.map fun p => p.2.extent

/-- The number of members of a size class from a link on, if each of them links back to the
one before it and belongs to the class. More than `room` of them go round in a circle. -/
def auditMembers (x : LinkedMap) (index : Nat) :
    Nat → Option Handle → Option Handle → Except ExtentViolation Nat
  | room, before, link =>
    match link.bind fun id => (x.get? id).map fun e => (id, e) with
    | none => .ok 0
    | some (id, e) =>
      let expected := sizeClass e.extent.length
      if e.before ≠ before then
        .error (.brokenBucketLink index id)
      else if ¬ (e.extent.listedIn = some index ∧ expected = index) then
        .error (.wrongBucket e.extent.range expected index)
      else
        match room with
        | 0 => .error (.brokenBucketLink index id)
        | room + 1 => do
          let behind ← x.auditMembers index room (some id) e.after
          .ok (behind + 1)

/-- Whether the list of a class is in order. Answers the number of its members. -/
def auditClass (x : LinkedMap) (index : Nat) : Except ExtentViolation Nat := do
  let members ← x.auditMembers index x.size none (x.classOf index).head
  if members ≠ x.memberCount index then
    .error (.bucketCount members (x.memberCount index))
  else
    .ok members

def audit (x : LinkedMap) : Except ExtentViolation Unit := do
  match x.index.audit LinkedExtent.keying with
  | .error violation => .error (.index violation)
  | .ok () =>
    ExtentMap.auditPartition x.region x.extents
    x.extents.forM ExtentMap.auditMembership
    let counts ← (List.range SizeClasses.count).mapM x.auditClass
    let tracked := (x.extents.filter fun e => e.listedIn.isSome).length
    let listed := Word.total counts
    if listed ≠ tracked then .error (.bucketCount listed tracked) else .ok ()

end LinkedMap

end KernelMemory
