import KernelMemory.Extent.Reclaim
import KernelMemory.Extent.Search

/-!
# Address spaces

An address space hands out page-aligned ranges of one region. Requests are rounded
outwards to whole pages. A range that is given back returns to the usage it had
before, which for everything handed out here is free.

Each call is one operation: nothing of another call happens in between.
-/

namespace KernelMemory

open Text

/-- A region that ranges are allocated from. -/
structure Space where
  kind : ArenaKind
  map : ExtentMap
  deriving Inhabited

abbrev SpaceOperation (α : Type) : Type :=
  Operation Space RequestError α

namespace Space

def region (s : Space) : Range :=
  s.map.region

def query? (s : Space) (address : Nat) : Option Extent :=
  (s.map.find? address).map Prod.snd

def bytesOf (s : Space) (usage : Usage) : Nat :=
  s.map.bytesOf usage

/-- Length of the longest free extent, 0 if there is none. -/
def largestFree (s : Space) : Nat :=
  match s.map.largest? .free with
  | some (_, e) => e.length
  | none => 0

def onMap {α : Type} (op : ExtentOperation α) : SpaceOperation α :=
  (op.mapError RequestError.ofExtentError).within Space.map
    fun s map => { s with map := map }

def note {ε : Type} (level : Level) (text : String) : Operation Space ε Unit := do
  let s ← Operation.get
  Operation.note level ("mm: " ++ s.kind.name ++ " " ++ text)

/-- A space over the addresses of an arena, all of them free. -/
def create {σ : Type} (owner : Nat) (arena : Arena) : Operation σ RequestError Space := do
  let map ← (ExtentMap.ofArena owner arena.kind.name arena).mapError
    fun _ => RequestError.invalidConfig arena.kind
  Operation.note .info
    ("mm: " ++ arena.kind.name ++ " address space " ++ map.region.text)
  return ⟨arena.kind, map⟩

/-- A requested size in whole pages, unless the request is empty, overflows, or asks
for free memory. -/
def pages (size : Nat) (usage : Usage) : Except RequestError Nat :=
  if size = 0 ∨ usage.isFree then
    .error .invalidArgument
  else
    match Page.roundUp? size with
    | some pages => .ok pages
    | none => .error .invalidArgument

/-- A free extent that holds `size` bytes from `start` on. -/
def freeFrom (s : Space) (start size : Nat) : Except ExtentError (Handle × Extent) :=
  s.map.search
    { Criteria.containing start with size := some size, usage := some .free }

/-- Where an allocation goes: to the page of the hint if the whole request is free
there, otherwise to the start of a free extent that is large enough. -/
def placement (s : Space) (hint : Option Nat) (size : Nat) :
    Except ExtentError (Handle × Nat) := do
  let hinted := hint.bind fun address =>
    let start := Page.roundDown address
    match s.freeFrom start size with
    | .ok (target, _) => some (target, start)
    | .error _ => none
  match hinted with
  | some placed => .ok placed
  | none =>
    let (target, e) ← s.map.search (.ofSize size)
    .ok (target, e.start)

def refusing {α : Type} (answer : Except ExtentError α) : SpaceOperation α :=
  Operation.ofExcept (answer.mapError RequestError.ofExtentError)

/-- Allocates `size` bytes, in whole pages, and returns where they start. -/
def allocate (hint : Option Nat) (size : Nat) (usage : Usage) : SpaceOperation Nat := do
  let size ← Operation.ofExcept (pages size usage)
  let s ← Operation.get
  let (target, start) ← refusing (s.placement hint size)
  let range ← refusing (Range.ofLength start size)
  let _ ← onMap (ExtentMap.reclaim target range usage (some .free))
  note .debug ("allocate " ++ range.text ++ " as " ++ usage.text)
  return start

/-- The end of `size` bytes from `start`, rounded up to a page. -/
def pageStop (start size : Nat) : Except RequestError Nat :=
  match (Word.add? start size).bind Page.roundUp? with
  | some stop => .ok stop
  | none => .error .invalidArgument

/-- Allocates the pages of exactly these addresses. -/
def reserve (start size : Nat) (usage : Usage) : SpaceOperation Unit := do
  let first := Page.roundDown start
  let last ← Operation.ofExcept (pageStop start size)
  let size ← Operation.ofExcept (pages (last - first) usage)
  let s ← Operation.get
  let (target, _) ← refusing (s.freeFrom first size)
  let range ← refusing (Range.ofLength first size)
  let _ ← onMap (ExtentMap.reclaim target range usage (some .free))
  note .debug ("reserve " ++ range.text ++ " as " ++ usage.text)

/-- Whether an extent was never handed out. -/
def isUnallocated (e : Extent) : Bool :=
  e.usage.isFree || e.usage == e.previous

/-- The part of an extent that a release covers: all of it, or the pages of `size`
bytes from `address`. -/
def releasedRange (e : Extent) (address : Nat) (size : Option Nat) :
    Except RequestError Range :=
  match size with
  | none => .ok e.range
  | some size => do
    let stop ← pageStop address size
    (Range.new (Page.roundDown address) stop).mapError RequestError.ofExtentError

/-- Gives back the pages of `size` bytes from `address`, or without a size the whole
extent that contains it. Returns the number of bytes given back. -/
def free (address : Nat) (size : Option Nat) : SpaceOperation Nat := do
  let s ← Operation.get
  match s.map.find? address with
  | none => Operation.refuse .notFound
  | some (target, e) =>
    if isUnallocated e then
      note .warn ("free of unallocated " ++ hex address)
      Operation.refuse (.notAllocated address)
    else
      let range ← Operation.ofExcept (releasedRange e address size)
      let _ ← onMap (ExtentMap.reclaim target range e.previous (some e.usage))
      note .debug
        ("free " ++ range.text ++ " " ++ e.usage.text ++ " -> " ++ e.previous.text)
      return range.length

end Space

end KernelMemory
