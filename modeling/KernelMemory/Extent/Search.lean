import KernelMemory.Extent.Criteria
import KernelMemory.Extent.Map

/-!
# Searching an extent map

A search by address looks at the one extent that contains the address. A search by
size for free memory goes through the size classes, from the smallest that can hold
the size upwards, or from the top down; a search for another usage, or for any, walks
the extents in address order.
-/

namespace KernelMemory

namespace ExtentMap

/-- The last of the longest extents of a list. -/
def longest? (candidates : List (Handle × Extent)) : Option (Handle × Extent) :=
  candidates.foldl
    (fun best candidate =>
      match best with
      | none => some candidate
      | some longest =>
        if longest.2.length ≤ candidate.2.length then some candidate else some longest)
    none

/-- Whether an extent has the required usage, if one is required. -/
def hasUsage (required : Option Usage) (e : Extent) : Bool :=
  required.all (e.usage = ·)

/-- The extent that contains an address, if it meets the other criteria. -/
def searchAt (m : ExtentMap) (c : Criteria) (address : Nat) :
    Except ExtentError (Handle × Extent) := do
  match m.find? address with
  | none => .error .notFound
  | some (id, e) =>
    if c.flags.exactStart && e.start != address then
      .error .notFound
    else
      let fits ←
        match c.size with
        | none => pure true
        | some size => (Range.ofLength address size).map e.range.encloses
      if fits && hasUsage c.requiredUsage e then .ok (id, e) else .error .notFound

/-- A free extent of at least `size` bytes, out of the size classes. -/
def searchClasses (m : ExtentMap) (size : Nat) (largestFirst : Bool) :
    Option (Handle × Extent) :=
  let first := sizeClass size
  let classes := List.range' first (SizeClasses.count - first)
  let order := if largestFirst then classes.reverse else classes
  order.findSome? fun index =>
    (m.members index).find? fun found => size ≤ found.2.length && found.2.usage.isFree

def searchExtents (m : ExtentMap) (size : Nat) (required : Option Usage)
    (largestFirst : Bool) : Option (Handle × Extent) :=
  let candidates := m.toList.filter fun found =>
    size ≤ found.2.length && hasUsage required found.2
  if largestFirst then longest? candidates else candidates.head?

def searchSize (m : ExtentMap) (c : Criteria) (size : Nat) :
    Except ExtentError (Handle × Extent) :=
  let found :=
    if c.requiredUsage = some .free then
      m.searchClasses size c.flags.largestFirst
    else
      m.searchExtents size c.requiredUsage c.flags.largestFirst
  match found with
  | some answer => .ok answer
  | none => .error .notFound

def search (m : ExtentMap) (c : Criteria) : Except ExtentError (Handle × Extent) :=
  match c.address with
  | some address => m.searchAt c address
  | none =>
    match c.size.getD 1 with
    | 0 => .error (.invalidRange 0 0)
    | size => m.searchSize c size

/-- A longest extent of one usage. For free memory only the highest class that has
members is looked at. -/
def largest? (m : ExtentMap) (usage : Usage) : Option (Handle × Extent) :=
  if usage.isFree then
    (List.range SizeClasses.count).reverse.findSome? fun index => longest? (m.members index)
  else
    longest? (m.toList.filter fun found => found.2.usage = usage)

end ExtentMap

end KernelMemory
