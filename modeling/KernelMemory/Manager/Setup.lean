import KernelMemory.Word
import KernelMemory.Pool.Basic

/-!
# Setup of a memory manager

What a memory manager is started with: an arena for each address space and, if it can
be reached that early, for each pool. A setup is valid if every arena has the kind of
its place and the address spaces consist of whole pages.
-/

namespace KernelMemory

/-- The arenas of a manager. -/
structure Setup where
  virtual : Arena
  physical : Arena
  nonPaged : Option Arena
  paged : Option Arena
  /-- How the pools verify themselves. -/
  policy : Policy
  deriving DecidableEq

namespace Setup

/-- Both address spaces as usual, no pools. -/
def usual : Setup :=
  ⟨.defaultVirtual, .defaultPhysical, none, none, .touched⟩

instance : Inhabited Setup := ⟨usual⟩

/-- Whether an arena is a non-empty run of whole pages, of the kind asked for. -/
def isSpaceArena (kind : ArenaKind) (a : Arena) : Bool :=
  a.kind == kind && Page.isAligned a.start && Page.isAligned a.size && a.size != 0
    && a.stop?.isSome

/-- Whether the arena of a pool, if there is one, has the kind asked for. -/
def isPoolArena (kind : ArenaKind) : Option Arena → Bool
  | none => true
  | some a => a.kind == kind

/-- The first place whose arena does not fit. -/
def misfit? (s : Setup) : Option ArenaKind :=
  [(.virtual, isSpaceArena .virtual s.virtual),
    (.physical, isSpaceArena .physical s.physical),
    (.nonPaged, isPoolArena .nonPaged s.nonPaged),
    (.paged, isPoolArena .paged s.paged)].findSome? fun (kind, fits) =>
      if fits then none else some kind

/-- Refuses a setup with an arena that does not fit its place. -/
def validate (s : Setup) : Except RequestError Unit :=
  match s.misfit? with
  | some kind => .error (.invalidConfig kind)
  | none => .ok ()

/-- The pool arenas, in the order in which the pools are attached. -/
def poolArenas (s : Setup) : List Arena :=
  s.nonPaged.toList ++ s.paged.toList

end Setup

end KernelMemory
