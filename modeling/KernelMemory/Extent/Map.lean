import KernelMemory.Arena
import KernelMemory.Extent.Basic
import KernelMemory.Index.Basic

/-!
# Extent maps

An extent map says which parts of a region are free, reserved or in use. Its extents
lie in an index ordered by address, and the free ones are listed by size class as
well. This module holds the map, its views, and the steps that keep the two
structures in agreement: an extent is taken out of its size class before it changes
and listed again afterwards.

The region is partitioned: extents never overlap, leave no gap, and two neighbours
never have the same usage. `insert` and `delete` work on single extents and leave this
to their callers; `reclaim` and `merge` keep it.
-/

namespace KernelMemory

/-- The extents of one region. -/
structure ExtentMap where
  name : String
  region : Range
  index : Index Extent
  classes : SizeClasses
  deriving Inhabited

abbrev ExtentOperation (α : Type) : Type :=
  Operation ExtentMap ExtentError α

namespace ExtentMap

/-! ## Views -/

def toList (m : ExtentMap) : List (Handle × Extent) :=
  m.index.toList

def extents (m : ExtentMap) : List Extent :=
  m.toList.map Prod.snd

def size (m : ExtentMap) : Nat :=
  m.index.size

def isEmpty (m : ExtentMap) : Bool :=
  m.index.isEmpty

def get? (m : ExtentMap) (id : Handle) : Option Extent :=
  m.index.get? id

def find? (m : ExtentMap) (address : Nat) : Option (Handle × Extent) :=
  m.index.tree.search (fun e => Range.locate address e.range) .exact

/-- The usage of an address, if it is tracked. -/
def usageAt? (m : ExtentMap) (address : Nat) : Option Usage :=
  (m.find? address).map fun found => found.2.usage

def members (m : ExtentMap) (index : Nat) : List (Handle × Extent) :=
  (m.classes.get index).filterMap fun id => (m.get? id).map fun e => (id, e)

def memberCount (m : ExtentMap) (index : Nat) : Nat :=
  (m.classes.get index).length

def bytesOf (m : ExtentMap) (usage : Usage) : Nat :=
  Word.total ((m.extents.filter fun e => e.usage = usage).map Extent.length)

/-! ## Listing by size -/

/-- Lists a free extent in the size class of its length; any other extent is in none. -/
def list (m : ExtentMap) (id : Handle) : ExtentMap :=
  match m.get? id with
  | none => m
  | some e =>
    if e.usage.isFree then
      let index := sizeClass e.length
      { m with
        index := m.index.set id { e with listedIn := some index }
        classes := m.classes.link index id }
    else
      { m with index := m.index.set id { e with listedIn := none } }

/-- Takes an extent out of the size class it is listed in, if any. -/
def delist (m : ExtentMap) (id : Handle) : ExtentMap :=
  match m.get? id with
  | none => m
  | some e =>
    match e.listedIn with
    | none => m
    | some index =>
      { m with
        index := m.index.set id { e with listedIn := none }
        classes := m.classes.unlink index id }

/-- Changes an extent that is in no size class. -/
def modify (m : ExtentMap) (id : Handle) (f : Extent → Extent) : ExtentMap :=
  { m with index := m.index.modify id f }

/-! ## Steps -/

def onIndex {ε α : Type} (op : Operation (Index Extent) ε α) : Operation ExtentMap ε α :=
  op.within ExtentMap.index fun m index => { m with index := index }

def note (level : Level) (text : String) : ExtentOperation Unit := do
  let m ← Operation.get
  Operation.note level ("xad[" ++ m.name ++ "]: " ++ text)

/-- Ends because the index does not hold what the map relies on. -/
def broken {α : Type} (cause : Breakage) : ExtentOperation α := do
  let m ← Operation.get
  Operation.crash (.brokenMap m.name cause)

/-- The members of a size class, which has to be one of those there are. -/
def listing (index : Nat) : ExtentOperation (List (Handle × Extent)) := do
  if index < SizeClasses.count then
    return (← Operation.get).members index
  else
    Operation.stop (.indexOutOfBounds SizeClasses.count index)

/-- The extent with a handle that the map itself keeps. -/
def resolve (id : Handle) : ExtentOperation Extent := do
  let m ← Operation.get
  match m.get? id with
  | some e => return e
  | none => broken (.resolving id)

/-- Adds an extent that overlaps no other and lists it. -/
def place (e : Extent) (cause : IndexError → Breakage) : ExtentOperation Handle := do
  match ← (onIndex (Index.insert Extent.keying e)).attempt with
  | .ok id =>
    Operation.modify (ExtentMap.list · id)
    return id
  | .error error => broken (cause error)

def displace (id : Handle) : ExtentOperation Extent := do
  Operation.modify (ExtentMap.delist · id)
  match ← (onIndex (Index.remove id)).attempt with
  | .ok e => return e
  | .error error => broken (.removing error)

/-! ## Creation -/

/-- Forgets every extent and starts over with a single free one. -/
def reset : ExtentOperation Unit := do
  Operation.modify fun m => { m with index := m.index.clear, classes := .empty }
  let m ← Operation.get
  let _ ← place (.unlisted m.region .free .free) .seeding

/-- A map of a region that is free as a whole. -/
def create {σ : Type} (owner : Nat) (name : String) (region : Range) :
    Operation σ ExtentError ExtentMap := do
  let (_, m) ← Operation.build ⟨name, region, .empty owner, .empty⟩ do
    reset
    note .info ("tracking " ++ region.text)
  return m

/-- A map of the addresses of an arena. -/
def ofArena {σ : Type} (owner : Nat) (name : String) (arena : Arena) :
    Operation σ ExtentError ExtentMap := do
  let region ← Operation.ofExcept (Range.ofLength arena.start arena.size)
  create owner name region

/-! ## Single extents -/

/-- Tracks a new extent without merging it with its neighbours. -/
def insert (range : Range) (usage : Usage) : ExtentOperation Handle := do
  let m ← Operation.get
  if m.region.encloses range then
    let id ← (onIndex (Index.insert Extent.keying (.unlisted range usage usage))).mapError
      ExtentError.ofIndexError
    Operation.modify (ExtentMap.list · id)
    note .debug ("insert " ++ range.text ++ " " ++ usage.text)
    return id
  else
    Operation.refuse (.invalidRange range.start range.stop)

/-- Stops tracking the extent that has exactly this range. -/
def delete (range : Range) : ExtentOperation Extent := do
  let m ← Operation.get
  match m.index.search Extent.keying range .exact with
  | none => Operation.refuse .notFound
  | some (id, found) =>
    if found.range = range then
      let e ← displace id
      note .debug ("delete " ++ e.text)
      return e
    else
      Operation.refuse .notFound

/-! ## Outline -/

/-- A heading and one line per extent in address order. -/
def outline (m : ExtentMap) : List String :=
  ("xad[" ++ m.name ++ "]: " ++ toString m.size ++ " extent(s) over " ++ m.region.text)
    :: m.toList.map fun found => "  " ++ found.1.text ++ ": " ++ found.2.text

end ExtentMap

end KernelMemory
