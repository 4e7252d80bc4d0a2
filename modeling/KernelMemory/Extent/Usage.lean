/-!
# Usage of an extent

Every extent carries a 16-bit usage code. Only the code for free memory has a
meaning to the extent map, which is what allocations search for; the others tell
owners apart.
-/

namespace KernelMemory

/-- What an extent is used for. -/
structure Usage where
  code : UInt16
  deriving DecidableEq, Inhabited

namespace Usage

def free : Usage := ⟨0⟩

/-- Never handed out. -/
def reserved : Usage := ⟨1⟩

def inUse : Usage := ⟨2⟩

def pool : Usage := ⟨3⟩

def pageTable : Usage := ⟨4⟩

def stack : Usage := ⟨5⟩

def image : Usage := ⟨6⟩

/-- The usages that have a name of their own, by code. -/
def named : List (Usage × String) :=
  [(free, "free"), (reserved, "reserved"), (inUse, "in-use"), (pool, "pool"),
    (pageTable, "page-table"), (stack, "stack"), (image, "image")]

/-- Position among the usages that have a name. -/
def index? (u : Usage) : Option Nat :=
  named.findIdx? fun entry => entry.1 = u

def isFree (u : Usage) : Bool :=
  u == free

def text (u : Usage) : String :=
  match named.lookup u with
  | some name => name
  | none => "type(" ++ toString u.code.toNat ++ ")"

end Usage

end KernelMemory
