import KernelMemory.Extent.Map

/-!
# Changing the usage of a range

`reclaim` gives a range inside one extent a new usage. The extent is cut into up to
three pieces: what lies before the range and what lies after it keep the old usage,
the range itself gets the new one and remembers the old. The piece that starts where
the extent started keeps its handle. Afterwards the new piece absorbs every neighbour
of its usage, first to the left, then to the right, so that the partition stays
without equal neighbours.

Everything is checked before the first change. After the last one nothing is checked again: an
audit of the map there is a switch of the build that is off by default.
-/

namespace KernelMemory

namespace ExtentMap

/-! ## Merging -/

/-- The extent just before `e` with the same usage, and the range the two cover. -/
def leftTwin? (m : ExtentMap) (id : Handle) (e : Extent) : Option (Handle × Range) := do
  let other ← m.index.predecessor? id
  let l ← m.get? other
  if h : l.range.stop = e.range.start ∧ l.usage = e.usage then
    some (other, l.range.join e.range h.1)
  else
    none

/-- The extent just after `e` with the same usage, and the range the two cover. -/
def rightTwin? (m : ExtentMap) (id : Handle) (e : Extent) : Option (Handle × Range) := do
  let other ← m.index.successor? id
  let r ← m.get? other
  if h : e.range.stop = r.range.start ∧ r.usage = e.usage then
    some (other, e.range.join r.range h.1)
  else
    none

/-- Removes `other` and lets `id`, so far `range`, cover `joined`. -/
def absorb (other id : Handle) (range joined : Range) : ExtentOperation Unit := do
  let absorbed ← displace other
  Operation.modify fun m =>
    ((m.delist id).modify id fun e => { e with range := joined }).list id
  note .debug ("merged " ++ absorbed.range.text ++ " into " ++ range.text)

/-- Absorbs neighbours of the same usage, at most `fuel` of them. -/
def mergeUpTo : Nat → Handle → ExtentOperation Handle
  | 0, id => return id
  | fuel + 1, id => do
    let e ← resolve id
    let m ← Operation.get
    match (m.leftTwin? id e).or (m.rightTwin? id e) with
    | none => return id
    | some (other, joined) =>
      absorb other id e.range joined
      mergeUpTo fuel id

/-- Absorbs neighbours of the same usage until none is left. Each step removes an
extent, so as many steps as there are extents are enough. -/
def mergeAround (id : Handle) : ExtentOperation Handle := do
  let m ← Operation.get
  mergeUpTo m.size id

/-- Merges the extent that contains an address with its equal neighbours. -/
def merge (address : Nat) : ExtentOperation Handle := do
  let m ← Operation.get
  match m.find? address with
  | none => Operation.refuse .notFound
  | some (id, _) => mergeAround id

/-! ## Cutting -/

/-- Shrinks `target` to what lies before `range`, or gives it the range and the new
usage if nothing does. -/
def shrink (target : Handle) (whole : Extent) (range : Range) (usage : Usage)
    (inside : whole.range.encloses range = true) : ExtentOperation Unit :=
  Operation.modify fun m =>
    ((m.delist target).modify target fun e =>
      if h : whole.range.start < range.start then
        { e with range := whole.range.takeTo range.start h (by
            have := range.start_lt_stop
            simp only [Range.encloses, Bool.and_eq_true, decide_eq_true_eq] at inside
            omega) }
      else
        { e with range := range, usage := usage, previous := whole.usage }).list target

/-- Cuts `range` out of the extent `target`, which is `whole`, and merges the piece
with its neighbours. -/
def carve (target : Handle) (whole : Extent) (range : Range) (usage : Usage)
    (inside : whole.range.encloses range = true) : ExtentOperation Handle := do
  shrink target whole range usage inside
  let middle ←
    if whole.range.start < range.start then
      place (.unlisted range usage whole.usage) .splitting
    else
      pure target
  if h : range.stop < whole.range.stop then
    let _ ← place (.unlisted (whole.range.dropTo range.stop h) whole.usage whole.previous)
      .splitting
  note .debug
    ("reclaim " ++ range.text ++ " " ++ whole.usage.text ++ " -> " ++ usage.text)
  mergeAround middle

/-- Gives `range`, inside the extent `target`, a new usage. Returns the extent that
covers the range afterwards. -/
def reclaim (target : Handle) (range : Range) (usage : Usage) (expected : Option Usage) :
    ExtentOperation Handle := do
  let m ← Operation.get
  match m.get? target with
  | none => Operation.refuse (.stale target)
  | some whole =>
    if inside : whole.range.encloses range = true then
      match expected.filter (· ≠ whole.usage) with
      | some other => Operation.refuse (.usageMismatch other whole.usage)
      | none =>
        if whole.usage = usage then
          return target
        else
          carve target whole range usage inside
    else
      note .warn
        ("reclaim of " ++ range.text ++ " outside target " ++ whole.range.text)
      Operation.refuse (.invalidRange range.start range.stop)

/-- Like `reclaim`, on the extent that contains the start of the range. -/
def reclaimAt (range : Range) (usage : Usage) (expected : Option Usage) :
    ExtentOperation Handle := do
  let m ← Operation.get
  match m.find? range.start with
  | none => Operation.refuse .notFound
  | some (target, _) => reclaim target range usage expected

end ExtentMap

end KernelMemory
