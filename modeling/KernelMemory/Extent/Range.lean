import KernelMemory.Extent.Error
import KernelMemory.Word

/-!
# Address ranges

A range is a half-open stretch of addresses `[start, stop)`. It is never empty, and
both ends are 64-bit numbers, so the very last address lies in no range. Two ranges
are compared by position: any overlap counts as equal, which turns "which extents
meet this range" into a search in an ordered index.
-/

namespace KernelMemory

open Text

/-- A non-empty half-open range of addresses. -/
structure Range where
  start : Nat
  stop : Nat
  start_lt_stop : start < stop
  stop_lt_bound : stop < Word.bound
  deriving DecidableEq

namespace Range

/-- The range `[start, stop)`, refused if it is empty or inverted. -/
def new (start stop : Nat) : Except ExtentError Range :=
  if h : start < stop ∧ stop < Word.bound then
    .ok ⟨start, stop, h.1, h.2⟩
  else
    .error (.invalidRange start stop)

/-- The range of `length` bytes from `start`, refused if it is empty or leaves the
address range. -/
def ofLength (start length : Nat) : Except ExtentError Range :=
  match Word.add? start length with
  | some stop => new start stop
  | none => .error (.invalidRange start Word.max)

def length (r : Range) : Nat :=
  r.stop - r.start

def contains (r : Range) (address : Nat) : Bool :=
  r.start ≤ address && address < r.stop

def encloses (r inner : Range) : Bool :=
  r.start ≤ inner.start && inner.stop ≤ r.stop

def overlaps (r s : Range) : Bool :=
  r.start < s.stop && s.start < r.stop

/-- Position of `r` relative to `s`: before, after, or meeting it. -/
def compare (r s : Range) : Ordering :=
  if r.stop ≤ s.start then .lt
  else if s.stop ≤ r.start then .gt
  else .eq

/-- Position of an address relative to a range. -/
def locate (address : Nat) (r : Range) : Ordering :=
  if address < r.start then .lt
  else if r.stop ≤ address then .gt
  else .eq

/-- Two ranges of which the first ends where the second starts, as one. -/
def join (r s : Range) (h : r.stop = s.start) : Range :=
  ⟨r.start, s.stop, by have := r.start_lt_stop; have := s.start_lt_stop; omega, s.stop_lt_bound⟩

/-- The part of a range before a cut inside it. -/
def takeTo (r : Range) (cut : Nat) (h : r.start < cut) (h' : cut ≤ r.stop) : Range :=
  ⟨r.start, cut, h, by have := r.stop_lt_bound; omega⟩

/-- The part of a range from a cut inside it on. -/
def dropTo (r : Range) (cut : Nat) (h : cut < r.stop) : Range :=
  ⟨cut, r.stop, h, r.stop_lt_bound⟩

def text (r : Range) : String :=
  "[" ++ hex r.start ++ ", " ++ hex r.stop ++ ")"

/-- The smallest range there is, at address zero. -/
def unit : Range :=
  ⟨0, 1, by decide, by decide⟩

instance : Inhabited Range := ⟨unit⟩

theorem ext {r s : Range} (hstart : r.start = s.start) (hstop : r.stop = s.stop) : r = s := by
  cases r
  cases s
  simp_all

theorem compare_eq_eq_iff (r s : Range) : r.compare s = .eq ↔ r.overlaps s = true := by
  simp only [compare, overlaps, Bool.and_eq_true, decide_eq_true_eq]
  split
  · simp; omega
  · split
    · simp; omega
    · simp; omega

theorem locate_eq_eq_iff (address : Nat) (r : Range) :
    locate address r = .eq ↔ r.contains address = true := by
  simp only [locate, contains, Bool.and_eq_true, decide_eq_true_eq]
  split
  · simp; omega
  · split
    · simp; omega
    · simp; omega

end Range

end KernelMemory
