import KernelMemory.Handle

/-!
# Refusals and defects of an index

`IndexError` lists the requests an index refuses. `IndexViolation` lists the defects
an audit can name; an index that is only changed through its operations shows none
but `outOfOrder`, and that only after a value was overwritten in place.
-/

namespace KernelMemory

inductive IndexError
  /-- A stored value compares equal to the new one. -/
  | collision (existing : Handle)
  /-- The handle does not name a value of this index. -/
  | stale (handle : Handle)
  deriving DecidableEq

namespace IndexError

def message : IndexError → String
  | collision existing => "key collides with existing node " ++ existing.text
  | stale handle => "node " ++ handle.text ++ " does not belong to this tree"

end IndexError

inductive IndexViolation
  | heightMismatch (node : Handle) (stored computed : Int)
  | unbalanced (node : Handle) (balance : Int)
  | brokenParentLink (node : Handle)
  | outOfOrder (node neighbor : Handle)
  | countMismatch (reported reachable : Nat)
  | dangling (node : Handle)
  deriving DecidableEq

namespace IndexViolation

def message : IndexViolation → String
  | heightMismatch node stored computed =>
    "node " ++ node.text ++ " stores height " ++ toString stored
      ++ ", computed " ++ toString computed
  | unbalanced node balance =>
    "node " ++ node.text ++ " has balance factor " ++ toString balance
  | brokenParentLink node =>
    "node " ++ node.text ++ " does not point back at its parent"
  | outOfOrder node neighbor =>
    "node " ++ node.text ++ " is out of order relative to " ++ neighbor.text
  | countMismatch reported reachable =>
    "tree reports " ++ toString reported ++ " node(s) but "
      ++ toString reachable ++ " are reachable"
  | dangling node => "link to node " ++ node.text ++ " does not resolve"

end IndexViolation

end KernelMemory
