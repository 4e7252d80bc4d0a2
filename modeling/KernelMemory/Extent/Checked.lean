import KernelMemory.Extent.Linked
import KernelMemory.Extent.Search

/-!
# Checked operations on linked maps

The operations of an extent map with every check that goes along with them in memory. The
ends of a range are moved one at a time and may not pass each other. An extent that the
index names is resolved before it is read or changed, and merging counts the extents that it
may still absorb. Searches iterate the size classes along their links, and lengths are added
up in 64 bits.

A check that fails is a fault: an extent that is not there, a size class that there is not, a
walk without an end, a sum that leaves its range, two ends of a range out of order.

A build may have `reclaim` and `merge` audit the whole map when they are done, and stop with a
fault at the first defect. The default build does not, and it is the one meant here and in
`Extent/Reclaim`. On a map that nothing but reclaiming and merging has changed, such an audit
would find nothing, since the map is a partition after every call (`Proofs/Extent/Partition`).
-/

namespace KernelMemory

namespace Range

variable {σ ε : Type}

/-- The range with another start, which has to lie before its end. -/
def moveStart (r : Range) (start : Nat) : Operation σ ε Range :=
  if h : start < r.stop then
    return ⟨start, r.stop, h, r.stop_lt_bound⟩
  else
    Operation.stop (.raised "assertion failed: start < self.end")

/-- The range with another end, which has to lie behind its start. -/
def moveStop (r : Range) (stop : Nat) : Operation σ ε Range :=
  if h : r.start < stop ∧ stop < Word.bound then
    return ⟨r.start, stop, h.1, h.2⟩
  else
    Operation.stop (.raised "assertion failed: self.start < end")

end Range

namespace LinkedMap.Checked

/-! ## Changing one extent -/

/-- Changes an extent, which has to be there, while it is in no size class. -/
def relist (id : Handle) (change : Extent → LinkedMapOperation Extent) :
    LinkedMapOperation Unit := do
  delist id
  let e ← resolve id
  let changed ← change e
  alter id fun linked => { linked with extent := changed }
  list id

/-- Stops tracking the extent that has exactly this range. -/
def delete (range : Range) : LinkedMapOperation Extent := do
  let x ← Operation.get
  match x.index.search LinkedExtent.keying range .exact with
  | none => Operation.refuse .notFound
  | some (id, _) =>
    let found ← resolve id
    if found.range = range then
      let e ← displace id
      note .debug ("delete " ++ e.text)
      return e
    else
      Operation.refuse .notFound

/-! ## Merging -/

/-- A neighbour that the index names, which has to be there, if it is a twin. -/
def twin? (link : Option Handle) (isTwin : Extent → Bool) :
    LinkedMapOperation (Option Handle) :=
  match link with
  | none => return none
  | some other => do
    let e ← resolve other
    return if isTwin e then some other else none

/-- Removes `other` and moves an end of `id`, so far `range`, to where `other` reached. -/
def absorb (other id : Handle) (range : Range)
    (move : Range → Range → LinkedMapOperation Range) : LinkedMapOperation Unit := do
  let absorbed ← displace other
  relist id fun e => do
    let moved ← move absorbed.range e.range
    return { e with range := moved }
  note .debug ("merged " ++ absorbed.range.text ++ " into " ++ range.text)

/-- Absorbs neighbours of the same usage until none is left, which has to be the case before
`fuel` runs out. -/
def mergeUpTo : Nat → Handle → LinkedMapOperation Handle
  | 0, id => Operation.stop (.endlessWalk id)
  | fuel + 1, id => do
    let e ← resolve id
    let x ← Operation.get
    match ← twin? (x.index.predecessor? id) fun l => l.stop = e.start && l.usage = e.usage with
    | some other =>
      absorb other id e.range fun absorbed range => range.moveStart absorbed.start
      mergeUpTo fuel id
    | none =>
      match ← twin? (x.index.successor? id) fun r => e.stop = r.start && e.usage = r.usage with
      | some other =>
        absorb other id e.range fun absorbed range => range.moveStop absorbed.stop
        mergeUpTo fuel id
      | none => return id

def mergeAround (id : Handle) : LinkedMapOperation Handle := do
  let x ← Operation.get
  mergeUpTo x.size id

/-- Merges the extent that contains an address with its equal neighbours. -/
def merge (address : Nat) : LinkedMapOperation Handle := do
  let x ← Operation.get
  match x.find? address with
  | none => Operation.refuse .notFound
  | some (id, _) => mergeAround id

/-! ## Cutting -/

/-- Shrinks `target` to what lies before `range`, or to the range with the new usage if
nothing does. -/
def shrink (target : Handle) (whole : Extent) (range : Range) (usage : Usage) :
    LinkedMapOperation Unit :=
  relist target fun e => do
    if whole.range.start < range.start then
      let front ← e.range.moveStop range.start
      return { e with range := front }
    else
      let piece ← e.range.moveStop range.stop
      return { e with range := piece, usage := usage, previous := whole.usage }

/-- The first cut, at the start of `range`. Answers the piece that has the new usage. -/
def cutFront (target : Handle) (whole : Extent) (range : Range) (usage : Usage) :
    LinkedMapOperation Handle := do
  shrink target whole range usage
  if whole.range.start < range.start then
    place (.unlisted range usage whole.usage) .splitting
  else
    return target

/-- The second cut, at the end of `range`. -/
def cutBack (whole : Extent) (range : Range) : LinkedMapOperation Unit := do
  if range.stop < whole.range.stop then
    let back ← whole.range.moveStart range.stop
    let _ ← place (.unlisted back whole.usage whole.previous) .splitting

/-- Cuts `range` out of the extent `target`, which is `whole`, and merges the piece
with its neighbours. -/
def carve (target : Handle) (whole : Extent) (range : Range) (usage : Usage) :
    LinkedMapOperation Handle := do
  let middle ← cutFront target whole range usage
  cutBack whole range
  note .debug
    ("reclaim " ++ range.text ++ " " ++ whole.usage.text ++ " -> " ++ usage.text)
  mergeAround middle

/-- Gives `range`, inside the extent `target`, a new usage. Returns the extent that
covers the range afterwards. -/
def reclaim (target : Handle) (range : Range) (usage : Usage) (expected : Option Usage) :
    LinkedMapOperation Handle := do
  let x ← Operation.get
  match x.extent? target with
  | none => Operation.refuse (.stale target)
  | some whole =>
    if whole.range.encloses range then
      match expected.filter (· ≠ whole.usage) with
      | some other => Operation.refuse (.usageMismatch other whole.usage)
      | none =>
        if whole.usage = usage then
          return target
        else
          carve target whole range usage
    else
      note .warn
        ("reclaim of " ++ range.text ++ " outside target " ++ whole.range.text)
      Operation.refuse (.invalidRange range.start range.stop)

/-- Like `reclaim`, on the extent that contains the start of the range. -/
def reclaimAt (range : Range) (usage : Usage) (expected : Option Usage) :
    LinkedMapOperation Handle := do
  let x ← Operation.get
  match x.find? range.start with
  | none => Operation.refuse .notFound
  | some (target, _) => reclaim target range usage expected

/-! ## Reading -/

/-- An extent without its links. -/
def unlinked (p : Handle × LinkedExtent) : Handle × Extent :=
  (p.1, p.2.extent)

def extents (x : LinkedMap) : List (Handle × Extent) :=
  x.toList.map unlinked

/-- The extent that contains an address. -/
def find (address : Nat) : LinkedMapOperation (Option Handle) := do
  let x ← Operation.get
  return (x.find? address).map Prod.fst

/-- The free extents of a size class, which has to be one of those there are. -/
def members (index : Nat) : LinkedMapOperation (List (Handle × Extent)) := do
  let found ← listing index
  return found.map unlinked

/-- How many free extents a size class has counted. -/
def memberCount (index : Nat) : LinkedMapOperation Nat := do
  let c ← classAt index
  return c.size

/-- What is chosen from the first of some size classes in which there is a choice. -/
def firstChoice (choose : List (Handle × Extent) → Option (Handle × Extent)) :
    List Nat → LinkedMapOperation (Option (Handle × Extent))
  | [] => return none
  | index :: rest => do
    let found ← members index
    match choose found with
    | some choice => return some choice
    | none => firstChoice choose rest

/-- The extent that contains an address, if it meets the other criteria. -/
def searchAt (c : Criteria) (address : Nat) : LinkedMapOperation (Handle × Extent) := do
  let x ← Operation.get
  match x.find? address with
  | none => Operation.refuse .notFound
  | some (id, _) =>
    let e ← resolve id
    if c.flags.exactStart && e.start != address then
      Operation.refuse .notFound
    else
      let fits ←
        match c.size with
        | none => pure true
        | some size => Operation.ofExcept ((Range.ofLength address size).map e.range.encloses)
      if fits && ExtentMap.hasUsage c.requiredUsage e then
        return (id, e)
      else
        Operation.refuse .notFound

def searchClasses (size : Nat) (largestFirst : Bool) :
    LinkedMapOperation (Option (Handle × Extent)) :=
  let first := sizeClass size
  let classes := List.range' first (SizeClasses.count - first)
  firstChoice (·.find? fun found => size ≤ found.2.length && found.2.usage.isFree)
    (if largestFirst then classes.reverse else classes)

def searchExtents (size : Nat) (required : Option Usage) (largestFirst : Bool) :
    LinkedMapOperation (Option (Handle × Extent)) := do
  let x ← Operation.get
  let candidates := (extents x).filter fun found =>
    size ≤ found.2.length && ExtentMap.hasUsage required found.2
  return if largestFirst then ExtentMap.longest? candidates else candidates.head?

def search (c : Criteria) : LinkedMapOperation (Handle × Extent) :=
  match c.address with
  | some address => searchAt c address
  | none =>
    match c.size.getD 1 with
    | 0 => Operation.refuse (.invalidRange 0 0)
    | size => do
      let found ←
        if c.requiredUsage = some .free then
          searchClasses size c.flags.largestFirst
        else
          searchExtents size c.requiredUsage c.flags.largestFirst
      Operation.ofOption .notFound found

/-- Adds lengths to what there is so far. -/
def addUp (total : Nat) (lengths : List Nat) : LinkedMapOperation Nat :=
  lengths.foldlM (fun total length => Operation.sum (total + length)) total

/-- The number of bytes of one usage. -/
def bytesOf (usage : Usage) : LinkedMapOperation Nat := do
  let x ← Operation.get
  addUp 0 (((extents x).filter (·.2.usage = usage)).map (·.2.length))

/-- A longest extent of one usage. For free memory only the highest class that has
members is looked at. -/
def largest? (usage : Usage) : LinkedMapOperation (Option (Handle × Extent)) := do
  if usage.isFree then
    firstChoice ExtentMap.longest? (List.range SizeClasses.count).reverse
  else
    let x ← Operation.get
    return ExtentMap.longest? ((extents x).filter (·.2.usage = usage))

end LinkedMap.Checked

end KernelMemory
