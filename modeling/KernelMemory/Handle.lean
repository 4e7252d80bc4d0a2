/-!
# Handles

A handle names one value stored in an index. It records the index that issued it,
the slot the value occupies and the generation of that slot. Freeing a slot moves it
to its next generation, so a handle kept past the removal of its value does not
resolve to whatever takes the slot later.
-/

namespace KernelMemory

/-- The name of a value stored in an index. -/
structure Handle where
  owner : Nat
  slot : Nat
  generation : Nat
  deriving DecidableEq, Inhabited

namespace Handle

/-- Slot and generation; the owner is not shown. -/
def text (h : Handle) : String :=
  "#" ++ toString h.slot ++ "@" ++ toString h.generation

/-- A link that may lead nowhere, as a failed assertion shows it. -/
def linkText : Option Handle → String
  | some h =>
    "Some(NodeId(" ++ toString h.slot ++ "@" ++ toString h.generation
      ++ "/t" ++ toString h.owner ++ "))"
  | none => "None"

end Handle

end KernelMemory
