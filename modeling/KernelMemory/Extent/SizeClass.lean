import KernelMemory.Handle
import KernelMemory.Word

/-!
# Size classes

Free extents are grouped by the binary logarithm of their number of pages; extents
below a page belong to class 0. Each class lists its members, the one added last in
front. A search for `n` bytes therefore starts at the class of `n`, and every member
of a higher class fits.
-/

namespace KernelMemory

/-- The binary logarithm of the whole pages in `length` bytes, 0 below one page. -/
def sizeClass (length : Nat) : Nat :=
  (length / Page.size).log2

/-- The members of every size class, last added first. -/
structure SizeClasses where
  lists : Vector (List Handle) 64

namespace SizeClasses

def count : Nat := 64

def empty : SizeClasses :=
  ⟨Vector.replicate 64 []⟩

instance : Inhabited SizeClasses := ⟨empty⟩

def get (s : SizeClasses) (index : Nat) : List Handle :=
  s.lists.toArray.getD index []

def alter (s : SizeClasses) (index : Nat) (f : List Handle → List Handle) : SizeClasses :=
  if h : index < 64 then ⟨s.lists.set index (f s.lists[index])⟩ else s

def link (s : SizeClasses) (index : Nat) (id : Handle) : SizeClasses :=
  s.alter index (id :: ·)

def unlink (s : SizeClasses) (index : Nat) (id : Handle) : SizeClasses :=
  s.alter index (·.erase id)

end SizeClasses

end KernelMemory
