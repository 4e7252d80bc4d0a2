import KernelMemory.Index.Basic

/-!
# Outline of an index

The tree of an index drawn sideways, the right side on top, each level indented by
two more blanks.
-/

namespace KernelMemory

namespace Tree

variable {α : Type}

/-- One line per node, right side first. -/
def outline (describe : α → String) (depth : Nat) : Tree α → List String
  | nil => []
  | node left handle value height right =>
    right.outline describe (depth + 1)
      ++ ("".pushn ' ' (depth * 2) ++ handle.text ++ " h=" ++ toString height ++ " "
        ++ describe value)
      :: left.outline describe (depth + 1)

end Tree

namespace Index

variable {α κ : Type}

/-- A heading and the outline of the tree. -/
def outline (ix : Index α) (keying : Keying α κ) : List String :=
  ("avl: " ++ toString ix.size ++ " node(s), height " ++ toString ix.height)
    :: ix.tree.outline keying.describe 0

end Index

end KernelMemory
