import KernelMemory.Text.Printable

/-!
# Keyings

A keying tells an index how to treat its values: which key a value has, how a probe
compares with the key of a stored value, and how a value is described in an outline.
Nothing requires the comparison to be an order on all keys. Ranges, for instance, are
compared so that any overlap is equality.
-/

namespace KernelMemory

/-- How values `α` are indexed by keys `κ`. -/
structure Keying (α κ : Type) where
  key : α → κ
  /-- Position of the probe, the first argument, relative to a stored key. -/
  compare : κ → κ → Ordering
  describe : α → String

namespace Keying

variable {α κ : Type}

/-- Position of a probe relative to a stored value. -/
def locate (k : Keying α κ) (probe : κ) (value : α) : Ordering :=
  k.compare probe (k.key value)

/-- Values that are their own keys, in their natural order. -/
def natural [Ord α] (describe : α → String) : Keying α α where
  key := id
  compare := Ord.compare
  describe := describe

def integers : Keying Int Int :=
  natural toString

/-- Strings in the order of their code points. -/
def strings : Keying String String :=
  natural Text.quoted

/-- Values with an integer key, greatest key first, not described. -/
def descending : Keying (Int × α) Int where
  key := Prod.fst
  compare probe key := Ord.compare key probe
  describe _ := "<node>"

/-- Half-open spans of integers; spans that meet compare equal. -/
def spans : Keying (Int × Int) (Int × Int) where
  key := id
  compare probe key :=
    if probe.2 ≤ key.1 then .lt else if key.2 ≤ probe.1 then .gt else .eq
  describe span := toString span.1 ++ ".." ++ toString span.2

end Keying

end KernelMemory
