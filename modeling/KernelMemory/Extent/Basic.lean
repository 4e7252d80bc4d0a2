import KernelMemory.Extent.Range
import KernelMemory.Extent.SizeClass
import KernelMemory.Index.Keying

/-!
# Extents

An extent is a range with its usage. It also remembers the usage its range had before,
so that a release can restore it, and, while it is free, the size class it is listed
in.
-/

namespace KernelMemory

/-- A range of one usage. -/
structure Extent where
  range : Range
  usage : Usage
  /-- The usage before the last change; releasing the range restores it. -/
  previous : Usage
  /-- The size class that lists the extent; only free extents are listed. -/
  listedIn : Option Nat
  deriving DecidableEq, Inhabited

namespace Extent

def start (e : Extent) : Nat :=
  e.range.start

def stop (e : Extent) : Nat :=
  e.range.stop

def length (e : Extent) : Nat :=
  e.range.length

/-- An extent in no size class. -/
def unlisted (range : Range) (usage previous : Usage) : Extent :=
  ⟨range, usage, previous, none⟩

/-- One-line text: range, usage, previous usage and size class. -/
def text (e : Extent) : String :=
  let head := e.range.text ++ " " ++ e.usage.text ++ " (was " ++ e.previous.text
  match e.listedIn with
  | some index => head ++ ", bucket " ++ toString index ++ ")"
  | none => head ++ ")"

def description (e : Extent) : String :=
  let bucket :=
    match e.listedIn with
    | some index => "Some(" ++ toString index ++ ")"
    | none => "None"
  "Extent \x7b range: " ++ e.range.text ++ ", ty: " ++ e.usage.text ++ ", previous: "
    ++ e.previous.text ++ ", bucket: " ++ bucket ++ ", .. \x7d"

/-- Extents are indexed by range; overlapping ranges count as equal. -/
def keying : Keying Extent Range where
  key := Extent.range
  compare := Range.compare
  describe := text

end Extent

end KernelMemory
