/-!
# 64-bit quantities and pages

Addresses, sizes and counters are natural numbers below `Word.bound`. Arithmetic
that could leave this range is checked: it answers `none` instead of wrapping, and
rounding up is checked in the same way.

Address spaces are managed in pages of 4 KiB. Requests are rounded outwards to
whole pages: starts go down, ends and sizes go up.
-/

namespace KernelMemory.Word

/-- One past the largest 64-bit number. -/
def bound : Nat := 1 <<< 64

def max : Nat := bound - 1

/-- The sum, if it is still a 64-bit number. -/
def add? (a b : Nat) : Option Nat :=
  if a + b < bound then some (a + b) else none

/-- The multiple of `unit` at or below `n`. -/
def roundDown (unit n : Nat) : Nat :=
  n / unit * unit

/-- The multiple of `unit` at or above `n`, if the step up to it stays in range. -/
def roundUp? (unit n : Nat) : Option Nat :=
  (add? n (unit - 1)).map (roundDown unit)

def total (ns : List Nat) : Nat :=
  ns.foldr (· + ·) 0

/-- Whether a number has exactly one bit set. -/
def isPowerOfTwo (n : Nat) : Bool :=
  n != 0 && 1 <<< n.log2 == n

theorem add?_eq_some_iff {a b c : Nat} : add? a b = some c ↔ a + b = c ∧ c < bound := by
  unfold add?
  split <;> simp <;> omega

theorem roundDown_le (unit n : Nat) : roundDown unit n ≤ n :=
  Nat.div_mul_le_self n unit

theorem lt_roundDown_add {unit : Nat} (h : 0 < unit) (n : Nat) :
    n < roundDown unit n + unit := by
  have := Nat.lt_div_mul_add h (a := n)
  simpa [roundDown] using this

theorem dvd_roundDown (unit n : Nat) : unit ∣ roundDown unit n :=
  ⟨n / unit, Nat.mul_comm _ _⟩

end KernelMemory.Word

namespace KernelMemory.Page

/-- The binary logarithm of the page size. -/
def shift : Nat := 12

def size : Nat := 1 <<< shift

/-- The start of the page that holds an address. -/
def roundDown (n : Nat) : Nat :=
  Word.roundDown size n

/-- The first page boundary at or above an address, unless it leaves the 64-bit range. -/
def roundUp? (n : Nat) : Option Nat :=
  Word.roundUp? size n

def isAligned (n : Nat) : Bool :=
  n % size == 0

end KernelMemory.Page
