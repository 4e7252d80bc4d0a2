import KernelMemory.Space.Basic

/-!
# Gathering

A request that no single free extent can hold may be covered by several. The size
classes are gone through from the largest down, and within a class in listing order;
every extent is taken whole but the last, which is cut to size. The pieces go into a
buffer that the caller provides. Nothing changes but the buffer unless it can describe
the whole request.

Gathered pieces are released together: all of them are checked before the first one is
given back.
-/

namespace KernelMemory

open Text

/-- A space and the buffer of a caller. -/
structure Gathering where
  space : Space
  /-- As many ranges as the caller has room for. -/
  buffer : List Range

namespace Gathering

def onSpace {α : Type} (op : SpaceOperation α) : Operation Gathering RequestError α :=
  op.within Gathering.space fun g space => { g with space := space }

/-- The free extents in the order in which they are taken. -/
def candidates (m : ExtentMap) : List Extent :=
  ((List.range SizeClasses.count).reverse.flatMap m.members).map Prod.snd

/-- The pieces that cover `size` bytes: whole extents and a part of the last. -/
def plan : List Extent → Nat → List Range
  | [], _ => []
  | _ :: _, 0 => []
  | e :: rest, size + 1 =>
    if h : size + 1 < e.length then
      [e.range.takeTo (e.start + (size + 1)) (by simp only [Extent.start]; omega) (by
        have := e.range.start_lt_stop
        simp only [Extent.length, Range.length] at h
        simp only [Extent.start]
        omega)]
    else
      e.range :: plan rest (size + 1 - e.length)

/-- Writes pieces to the front of the buffer, as many as it holds. -/
def fill (pieces buffer : List Range) : List Range :=
  pieces.take buffer.length ++ buffer.drop pieces.length

def takePiece (usage : Usage) (piece : Range) : Operation Gathering RequestError Unit :=
  onSpace do
    let s ← Operation.get
    let taken ← ((ExtentMap.reclaimAt piece usage (some .free)).within Space.map
      fun s map => { s with map := map }).attempt
    match taken with
    | .ok _ => return ()
    | .error error => Operation.crash (.pieceVanished s.kind piece error)

/-- Allocates `size` bytes, in whole pages and in as many pieces as it takes. Returns
the number of pieces, which are at the front of the buffer. -/
def allocate (size : Nat) (usage : Usage) : Operation Gathering RequestError Nat := do
  let size ← Operation.ofExcept (Space.pages size usage)
  let g ← Operation.get
  let available := g.space.bytesOf .free
  if available < size then
    onSpace (Space.note .debug
      ("gather of " ++ hex size ++ " with " ++ hex available ++ " free"))
    Operation.refuse (.insufficientMemory size available)
  else
    let pieces := plan (candidates g.space.map) size
    Operation.set { g with buffer := fill pieces g.buffer }
    if g.buffer.length < pieces.length then
      Operation.refuse (.bufferTooSmall g.buffer.length)
    else
      pieces.forM (takePiece usage)
      onSpace (Space.note .debug
        ("gathered " ++ hex size ++ " bytes in " ++ toString pieces.length
          ++ " piece(s) as " ++ usage.text))
      return pieces.length

end Gathering

namespace Space

/-- The first piece that meets a later one. -/
def firstOverlap? : List Range → Option Range
  | [] => none
  | piece :: rest =>
    if rest.any piece.overlaps then some piece else firstOverlap? rest

/-- Whether a piece can be given back as things stand. -/
def checkPiece (s : Space) (piece : Range) : Except RequestError Unit :=
  match s.map.find? piece.start with
  | none => .error .notFound
  | some (_, e) =>
    if isUnallocated e then .error (.notAllocated piece.start)
    else if e.range.encloses piece then .ok ()
    else .error (.invalidRange piece.start piece.stop)

def releasePiece (piece : Range) : SpaceOperation Unit := do
  let s ← Operation.get
  match s.map.find? piece.start with
  | none => Operation.refuse .notFound
  | some (_, e) =>
    let _ ← onMap (ExtentMap.reclaimAt piece e.previous (some e.usage))

/-- Gives back every piece of a gather allocation, or none of them. -/
def freeGather (pieces : List Range) : SpaceOperation Unit := do
  match firstOverlap? pieces with
  | some piece => Operation.refuse (.invalidRange piece.start piece.stop)
  | none =>
    let s ← Operation.get
    Operation.ofExcept (pieces.forM s.checkPiece)
    pieces.forM releasePiece
    note .debug ("released " ++ toString pieces.length ++ " gathered piece(s)")

end Space

end KernelMemory
