import KernelMemory.Extent.Usage

/-!
# Search criteria

What to look for in an extent map. With an address, the extent that contains it is
meant, and size and usage are conditions on it. Without one, any extent of the size
and usage will do. Three switches modify the search; they travel as the low bits of a
byte whose other bits are kept but mean nothing.
-/

namespace KernelMemory

/-- Switches of a search. -/
structure SearchFlags where
  anyUsage : Bool
  exactStart : Bool
  largestFirst : Bool
  /-- The five bits without a meaning. -/
  reserved : Fin 32
  deriving DecidableEq, Inhabited

namespace SearchFlags

def none : SearchFlags :=
  ⟨false, false, false, 0⟩

def ofBits (bits : UInt8) : SearchFlags :=
  let n := bits.toNat
  ⟨n.testBit 0, n.testBit 1, n.testBit 2, Fin.ofNat 32 (n / 8)⟩

def toBits (f : SearchFlags) : UInt8 :=
  UInt8.ofNat
    (f.anyUsage.toNat + 2 * f.exactStart.toNat + 4 * f.largestFirst.toNat
      + 8 * f.reserved.val)

/-- The structural description; reserved bits are not shown. -/
def description (f : SearchFlags) : String :=
  "LookupFlags \x7b ignore_type: " ++ toString f.anyUsage ++ ", exact_start: "
    ++ toString f.exactStart ++ ", largest_first: " ++ toString f.largestFirst ++ " \x7d"

end SearchFlags

structure Criteria where
  address : Option Nat
  size : Option Nat
  usage : Option Usage
  flags : SearchFlags
  deriving DecidableEq, Inhabited

namespace Criteria

def containing (address : Nat) : Criteria :=
  ⟨some address, none, none, .none⟩

def ofSize (size : Nat) : Criteria :=
  ⟨none, some size, none, .none⟩

/-- The usage an extent must have; `none` if any will do. Without an address, free
extents are meant unless the criteria say otherwise. -/
def requiredUsage (c : Criteria) : Option Usage :=
  if c.flags.anyUsage then none
  else if c.address.isSome then c.usage
  else c.usage.or (some .free)

/-- An optional value as it is described. -/
def optionText : Option String → String
  | some text => "Some(" ++ text ++ ")"
  | none => "None"

/-- The structural description, with decimal numbers. -/
def description (c : Criteria) : String :=
  "ExtentQuery \x7b address: " ++ optionText (c.address.map toString) ++ ", size: "
    ++ optionText (c.size.map toString) ++ ", ty: " ++ optionText (c.usage.map Usage.text)
    ++ ", flags: " ++ c.flags.description ++ " \x7d"

end Criteria

end KernelMemory
