import KernelMemory.Text.Hex
import KernelMemory.Word

/-!
# Arenas

An arena is the stretch of addresses handed to one memory instance at start-up. Its
kind says what the instance is: one of the two pools for small objects, or one of
the two address spaces. The default layout is fixed here.
-/

namespace KernelMemory

open Text

/-- What an arena is used for. -/
inductive ArenaKind
  | nonPaged
  | paged
  | physical
  | virtual
  deriving DecidableEq, Inhabited

namespace ArenaKind

/-- Every kind, in the order of its index. -/
def all : List ArenaKind :=
  [nonPaged, paged, physical, virtual]

/-- Position of a kind in `all`. -/
def index : ArenaKind → Nat
  | nonPaged => 0
  | paged => 1
  | physical => 2
  | virtual => 3

/-- The kind at a position of `all`. -/
def ofIndex? (n : Nat) : Option ArenaKind :=
  all[n]?

def isPool : ArenaKind → Bool
  | nonPaged | paged => true
  | physical | virtual => false

def isAddressSpace : ArenaKind → Bool
  | nonPaged | paged => false
  | physical | virtual => true

def name : ArenaKind → String
  | nonPaged => "non-paged"
  | paged => "paged"
  | physical => "physical"
  | virtual => "virtual"

def title : ArenaKind → String
  | nonPaged => "NonPagedPool"
  | paged => "PagedPool"
  | physical => "Physical"
  | virtual => "Virtual"

end ArenaKind

/-- A stretch of addresses for one memory instance. -/
structure Arena where
  kind : ArenaKind
  start : Nat
  size : Nat
  deriving DecidableEq, Inhabited

namespace Arena

/-- The exclusive end, or `none` if the arena wraps around the address range. -/
def stop? (a : Arena) : Option Nat :=
  Word.add? a.start a.size

/-- Whether an address lies inside; an arena that wraps has no upper end. -/
def contains (a : Arena) (address : Nat) : Bool :=
  match a.stop? with
  | some stop => a.start ≤ address && address < stop
  | none => a.start ≤ address

def text (a : Arena) : String :=
  a.kind.name ++ " [" ++ hexPadded 16 a.start ++ ", +" ++ hex a.size ++ ")"

/-- The structural description, with decimal numbers. -/
def description (a : Arena) : String :=
  "RegionConfig \x7b kind: " ++ a.kind.title ++ ", area_start: " ++ toString a.start
    ++ ", area_size: " ++ toString a.size ++ " \x7d"

/-- The kernel half of the virtual addresses: 16 TiB. -/
def defaultVirtual : Arena :=
  ⟨.virtual, 0xffffc00000000000, 0x100000000000⟩

/-- Physical memory from 1 MiB on: 512 MiB. -/
def defaultPhysical : Arena :=
  ⟨.physical, 0x100000, 512 * 1024 * 1024⟩

/-- Bytes of the non-paged pool unless configured otherwise. -/
def nonPagedSize : Nat := 16 * 1024 * 1024

/-- Bytes of the paged pool unless configured otherwise. -/
def pagedSize : Nat := 64 * 1024 * 1024

/-- A pool arena of the default size for its kind. -/
def defaultPool (kind : ArenaKind) (start : Nat) : Arena :=
  ⟨kind, start, if kind = .paged then pagedSize else nonPagedSize⟩

end Arena

end KernelMemory
