import KernelMemory.Proofs.Tree.Path
import Mathlib.Data.Nat.Fib.Basic

/-!
# Height

How high a balanced tree can be is a matter of how few nodes it can have. Over a side of height
`n + 1` there has to be another one of height `n` at least, so the fewest nodes of a height and
one more follow the Fibonacci numbers. For as many nodes as there are slot numbers this comes
to forty-five levels at most, and up to there a comparison of powers says that the height stays
below `36 / 25` times the binary logarithm.

The height that is stored at a node is worth something only because it is the length of the
longest way down, `Tree.depth`. A walk that goes down from the root or up to it is bounded by
that length, balanced or not.
-/

namespace KernelMemory

namespace Tree

variable {α : Type} {t left right : Tree α} {x : Handle} {v : α} {height steps : Nat}

/-- Number of nodes on the longest way down. -/
def depth : Tree α → Nat
  | nil => 0
  | node left _ _ _ right => 1 + max left.depth right.depth

theorem depth_le_size (t : Tree α) : t.depth ≤ t.size := by
  induction t with
  | nil => exact Nat.le_refl 0
  | node left x v height right ihl ihr => simp only [depth, size]; omega

/-- As many steps as the longest way down has nodes are one for the root and enough for either
side. -/
theorem exists_steps_of_depth (h : (node left x v height right).depth ≤ steps) :
    ∃ rest, steps = rest + 1 ∧ left.depth ≤ rest ∧ right.depth ≤ rest := by
  rw [depth] at h
  exact ⟨steps - 1, by omega, by omega, by omega⟩

/-- The stored height of a balanced tree is the real one. -/
theorem Balanced.depth_eq (h : t.Balanced) : t.depth = t.height := by
  induction t with
  | nil => rfl
  | node left x v height right ihl ihr =>
      obtain ⟨hl, hr, hheight, -, -⟩ := h
      rw [depth, ihl hl, ihr hr, height_node, hheight]

/-! ## Few nodes -/

/-- A balanced tree has as many nodes as the sparsest one of its height, which is made of the
sparsest ones of the two heights below. -/
theorem Balanced.fib_le (h : t.Balanced) : Nat.fib (t.height + 2) ≤ t.size + 1 := by
  induction t with
  | nil => exact Nat.le_refl 1
  | node left x v height right ihl ihr =>
      obtain ⟨hl, hr, hheight, hlr, hrl⟩ := h
      have hleft := ihl hl
      have hright := ihr hr
      rw [height_node, Nat.fib_add_two, size]
      rcases Nat.le_total right.height left.height with hlow | hlow
      · have hsparse : Nat.fib height ≤ Nat.fib (right.height + 2) := Nat.fib_mono (by omega)
        rw [show height + 1 = left.height + 2 by omega]
        omega
      · have hsparse : Nat.fib height ≤ Nat.fib (left.height + 2) := Nat.fib_mono (by omega)
        rw [show height + 1 = right.height + 2 by omega]
        omega

theorem Balanced.height_lt (h : t.Balanced) (hroom : t.size ≤ Slots.capacity) :
    t.height < 46 := by
  by_contra hhigh
  have hsparse : Nat.fib 48 ≤ Nat.fib (t.height + 2) := Nat.fib_mono (by omega)
  have hfew : Slots.capacity + 1 < Nat.fib 48 := by decide +kernel
  have hfib := h.fib_le
  omega

/-- The height is at most `36 / 25` times the binary logarithm of the size and two. -/
theorem Balanced.two_pow_le_pow (h : t.Balanced) (hroom : t.size ≤ Slots.capacity) :
    2 ^ (25 * t.height) ≤ (t.size + 2) ^ 36 := by
  have hsparse : ∀ n < 46, 2 ^ (25 * n) ≤ (Nat.fib (n + 2) + 1) ^ 36 := by decide +kernel
  exact (hsparse t.height (h.height_lt hroom)).trans
    (Nat.pow_le_pow_left (Nat.succ_le_succ h.fib_le) 36)

end Tree

/-! ## Short ways -/

namespace Path

variable {α : Type} {path : Path α} {t : Tree α}

/-- A way up from a place and a way down from it make one way down the whole tree. -/
theorem length_add_depth_le (path : Path α) (t : Tree α) :
    path.length + t.depth ≤ (path.plug t).depth := by
  induction path generalizing t with
  | nil => simp
  | cons f path ih =>
      have hfill : t.depth + 1 ≤ (f.fill t).depth := by
        rcases f with ⟨side, x, v, height, sibling⟩
        cases side <;> simp only [Frame.fill, Side.node, Tree.depth] <;> omega
      have hup := ih (f.fill t)
      rw [plug_cons, List.length_cons]
      omega

theorem balanced_of_plug (h : (path.plug t).Balanced) : t.Balanced := by
  induction path generalizing t with
  | nil => exact h
  | cons f path ih =>
      have hfill : (f.fill t).Balanced := ih h
      rcases f with ⟨side, x, v, height, sibling⟩
      cases side with
      | left => exact hfill.1
      | right => exact hfill.2.1

end Path

end KernelMemory
