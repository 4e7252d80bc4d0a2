import KernelMemory.Extent.Checked
import KernelMemory.Space.Gather

/-!
# Address spaces over linked maps

An address space as it lies in memory: its map is a linked one, used with all its checks. What
a call has found it names by a handle and looks up again; sums and differences of sizes are
those of 64-bit numbers; and the pieces of a gather allocation are counted while they are
written to the buffer of the caller, which may turn out to be too short at any of them.
-/

namespace KernelMemory

open Text

/-- A region that ranges are allocated from, with a linked map. -/
structure LinkedSpace where
  kind : ArenaKind
  map : LinkedMap
  deriving Inhabited

abbrev LinkedSpaceOperation (α : Type) : Type :=
  Operation LinkedSpace RequestError α

namespace LinkedSpace

open LinkedMap

def onMap {α : Type} (op : LinkedMapOperation α) : LinkedSpaceOperation α :=
  (op.mapError RequestError.ofExtentError).within LinkedSpace.map
    fun s map => { s with map := map }

def note {ε : Type} (level : Level) (text : String) : Operation LinkedSpace ε Unit := do
  let s ← Operation.get
  Operation.note level ("mm: " ++ s.kind.name ++ " " ++ text)

/-- A space over the addresses of an arena, all of them free. -/
def create {σ : Type} (owner : Nat) (arena : Arena) : Operation σ RequestError LinkedSpace := do
  let region ← Operation.ofExcept
    ((Range.ofLength arena.start arena.size).mapError fun _ => .invalidConfig arena.kind)
  let map ← (LinkedMap.create owner arena.kind.name region).mapError
    fun _ => RequestError.invalidConfig arena.kind
  Operation.note .info
    ("mm: " ++ arena.kind.name ++ " address space " ++ map.region.text)
  return ⟨arena.kind, map⟩

/-- The extent that contains an address, looked up by its handle. -/
def extentAt? (s : LinkedSpace) (address : Nat) : Option (Handle × Extent) := do
  let (id, _) ← s.map.find? address
  let e ← s.map.extent? id
  return (id, e)

/-! ## Reading -/

/-- The extent that contains an address. -/
def query (address : Nat) : LinkedSpaceOperation (Option Extent) := do
  let s ← Operation.get
  return (s.extentAt? address).map Prod.snd

def bytesOf (usage : Usage) : LinkedSpaceOperation Nat :=
  onMap (Checked.bytesOf usage)

/-- Length of the longest free extent, 0 if there is none. -/
def largestFree : LinkedSpaceOperation Nat := do
  match ← onMap (Checked.largest? .free) with
  | none => return 0
  | some (id, _) =>
    let s ← Operation.get
    return ((s.map.extent? id).map Extent.length).getD 0

/-- A free extent that holds `size` bytes from `start` on. -/
def freeFrom (start size : Nat) : LinkedSpaceOperation (Handle × Extent) :=
  onMap (Checked.search
    { Criteria.containing start with size := some size, usage := some .free })

/-! ## Allocating and releasing -/

/-- The page of the hint, if the whole request is free there. -/
def hinted (hint : Option Nat) (size : Nat) : LinkedSpaceOperation (Option (Handle × Nat)) :=
  match hint with
  | none => return none
  | some address => do
    let start := Page.roundDown address
    match ← (freeFrom start size).attempt with
    | .ok (target, _) => return some (target, start)
    | .error _ => return none

/-- Where an allocation goes: to the page of the hint if the whole request is free
there, otherwise to the start of a free extent that is large enough. -/
def placement (hint : Option Nat) (size : Nat) : LinkedSpaceOperation (Handle × Nat) := do
  match ← hinted hint size with
  | some placed => return placed
  | none =>
    let (target, _) ← onMap (Checked.search (.ofSize size))
    let s ← Operation.get
    return (target, ((s.map.extent? target).map Extent.start).getD 0)

def rangeOf (start size : Nat) : LinkedSpaceOperation Range :=
  Operation.ofExcept ((Range.ofLength start size).mapError RequestError.ofExtentError)

/-- Allocates `size` bytes, in whole pages, and returns where they start. -/
def allocate (hint : Option Nat) (size : Nat) (usage : Usage) : LinkedSpaceOperation Nat := do
  let size ← Operation.ofExcept (Space.pages size usage)
  let (target, start) ← placement hint size
  let range ← rangeOf start size
  let _ ← onMap (Checked.reclaim target range usage (some .free))
  note .debug ("allocate " ++ range.text ++ " as " ++ usage.text)
  return start

/-- Allocates the pages of exactly these addresses. -/
def reserve (start size : Nat) (usage : Usage) : LinkedSpaceOperation Unit := do
  let first := Page.roundDown start
  let last ← Operation.ofExcept (Space.pageStop start size)
  let size ← Operation.difference last first
  let size ← Operation.ofExcept (Space.pages size usage)
  let (target, _) ← freeFrom first size
  let range ← rangeOf first size
  let _ ← onMap (Checked.reclaim target range usage (some .free))
  note .debug ("reserve " ++ range.text ++ " as " ++ usage.text)

/-- Gives back the pages of `size` bytes from `address`, or without a size the whole
extent that contains it. Returns the number of bytes given back. -/
def free (address : Nat) (size : Option Nat) : LinkedSpaceOperation Nat := do
  let s ← Operation.get
  match s.extentAt? address with
  | none => Operation.refuse .notFound
  | some (target, e) =>
    if Space.isUnallocated e then
      note .warn ("free of unallocated " ++ hex address)
      Operation.refuse (.notAllocated address)
    else
      let range ← Operation.ofExcept (Space.releasedRange e address size)
      let _ ← onMap (Checked.reclaim target range e.previous (some e.usage))
      note .debug
        ("free " ++ range.text ++ " " ++ e.usage.text ++ " -> " ++ e.previous.text)
      Operation.difference range.stop range.start

/-! ## Releasing pieces together -/

/-- Whether a piece can be given back as things stand. -/
def checkPiece (piece : Range) : LinkedSpaceOperation Unit := do
  let s ← Operation.get
  match s.extentAt? piece.start with
  | none => Operation.refuse .notFound
  | some (_, e) =>
    if Space.isUnallocated e then
      Operation.refuse (.notAllocated piece.start)
    else if e.range.encloses piece then
      return ()
    else
      Operation.refuse (.invalidRange piece.start piece.stop)

def releasePiece (piece : Range) : LinkedSpaceOperation Unit := do
  let s ← Operation.get
  match s.extentAt? piece.start with
  | none => Operation.refuse .notFound
  | some (_, e) =>
    let _ ← onMap (Checked.reclaimAt piece e.previous (some e.usage))

/-- Gives back every piece of a gather allocation, or none of them. -/
def freeGather (pieces : List Range) : LinkedSpaceOperation Unit := do
  match Space.firstOverlap? pieces with
  | some piece => Operation.refuse (.invalidRange piece.start piece.stop)
  | none =>
    pieces.forM checkPiece
    pieces.forM releasePiece
    note .debug ("released " ++ toString pieces.length ++ " gathered piece(s)")

end LinkedSpace

/-! ## Gathering -/

/-- A space over a linked map and the buffer of a caller. -/
structure LinkedGathering where
  space : LinkedSpace
  buffer : List Range

namespace LinkedGathering

open LinkedMap

def onSpace {α : Type} (op : LinkedSpaceOperation α) :
    Operation LinkedGathering RequestError α :=
  op.within LinkedGathering.space fun g space => { g with space := space }

/-- The free extents in the order in which they are taken, class by class. -/
def candidates : List Nat → Operation LinkedGathering RequestError (List Extent)
  | [] => return []
  | index :: rest => do
    let found ← onSpace (LinkedSpace.onMap (Checked.members index))
    let others ← candidates rest
    return found.map Prod.snd ++ others

/-- Writes the pieces that cover the `remaining` bytes to the places of the buffer from
`count` on, and answers how many places are taken then. -/
def cover : List Extent → Nat → Nat → Operation LinkedGathering RequestError Nat
  | [], count, _ => return count
  | e :: rest, count, remaining =>
    if remaining = 0 then
      return count
    else do
      let g ← Operation.get
      if count < g.buffer.length then
        let taken := min remaining e.length
        let piece ← onSpace (LinkedSpace.rangeOf e.start taken)
        Operation.modify fun g => { g with buffer := g.buffer.set count piece }
        let count ← Operation.sum (count + 1)
        let remaining ← Operation.difference remaining taken
        cover rest count remaining
      else
        Operation.refuse (.bufferTooSmall g.buffer.length)

/-- The pieces at the front of the buffer, which has to have that many places. -/
def front (count : Nat) : Operation LinkedGathering RequestError (List Range) := do
  let g ← Operation.get
  if count ≤ g.buffer.length then
    return g.buffer.take count
  else
    Operation.stop (.indexOutOfBounds g.buffer.length count)

def takePiece (usage : Usage) (piece : Range) : Operation LinkedGathering RequestError Unit :=
  onSpace do
    let s ← Operation.get
    let taken ← ((Checked.reclaimAt piece usage (some .free)).within LinkedSpace.map
      fun s map => { s with map := map }).attempt
    match taken with
    | .ok _ => return ()
    | .error error => Operation.crash (.pieceVanished s.kind piece error)

/-- Allocates `size` bytes, in whole pages and in as many pieces as it takes. Returns
the number of pieces, which are at the front of the buffer. -/
def allocate (size : Nat) (usage : Usage) : Operation LinkedGathering RequestError Nat := do
  let size ← Operation.ofExcept (Space.pages size usage)
  let available ← onSpace (LinkedSpace.bytesOf .free)
  if available < size then
    onSpace (LinkedSpace.note .debug
      ("gather of " ++ hex size ++ " with " ++ hex available ++ " free"))
    Operation.refuse (.insufficientMemory size available)
  else
    let extents ← candidates (List.range SizeClasses.count).reverse
    let count ← cover extents 0 size
    let pieces ← front count
    pieces.forM (takePiece usage)
    onSpace (LinkedSpace.note .debug
      ("gathered " ++ hex size ++ " bytes in " ++ toString count
        ++ " piece(s) as " ++ usage.text))
    return count

end LinkedGathering

end KernelMemory
