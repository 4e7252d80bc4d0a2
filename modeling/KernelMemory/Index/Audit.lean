import KernelMemory.Index.Basic

/-!
# Auditing an index

An audit computes every height from the bottom up and compares it with the stored
one, checks the balance of every node, counts the nodes, and compares each value with
the one before it. It answers the first defect in that order.
-/

namespace KernelMemory

namespace Tree

variable {α : Type}

/-- The height of a tree, if every stored height is right and every node balanced. The
left side is looked at first, then the right side, then the node. -/
def audit : Tree α → Except IndexViolation Nat
  | nil => .ok 0
  | node left handle _ stored right => do
    let l ← left.audit
    let r ← right.audit
    let height := 1 + max l r
    let balance : Int := r - l
    if stored ≠ height then
      .error (.heightMismatch handle stored height)
    else if balance < -1 ∨ 1 < balance then
      .error (.unbalanced handle balance)
    else
      .ok height

end Tree

namespace Index

variable {α κ : Type}

/-- The first value that does not follow its predecessor in key order. -/
def firstDisorder? (keying : Keying α κ) : List (Handle × α) → Option IndexViolation
  | (id, value) :: (id', value') :: rest =>
    if keying.compare (keying.key value) (keying.key value') = .lt then
      firstDisorder? keying ((id', value') :: rest)
    else
      some (.outOfOrder id' id)
  | _ => none

def audit (ix : Index α) (keying : Keying α κ) : Except IndexViolation Unit := do
  let _ ← ix.tree.audit
  if ix.tree.size ≠ ix.size then
    .error (.countMismatch ix.size ix.tree.size)
  else
    match firstDisorder? keying ix.toList with
    | some violation => .error violation
    | none => .ok ()

end Index

end KernelMemory
