import KernelMemory.Proofs.Tree.Height

/-!
# Growth

What a new leaf does to the subtrees above it, from the leaf upwards. As long as the walk goes
on, the subtree below has grown by one level, and all of that came to one of its two sides:
except for the leaf itself its sides are not even, `Tree.Grown`. There are three kinds of nodes
above such a subtree. On the low side of a node it fills up what was missing there, and the walk
ends. On a side of an even node it makes the node grow in turn, uneven again. On the high side
of a node it calls for a rotation, and this is where unevenness comes in: the rotation of an
even subtree would leave the node one level higher than before, the rotation of an uneven one
takes the level back. So a walk rotates once at most, and then it ends.

`Path.settlings` lists what a walk does at the nodes of a path.
-/

namespace KernelMemory

/-- What a walk upwards did at one node: how high it found the subtree there, which case of a
rotation it came into, if any, which node it left on top and how high. -/
structure Settling where
  node : Handle
  before : Nat
  case : Option RotationCase
  top : Handle
  after : Nat
  deriving DecidableEq

namespace Side

variable {α : Type} {side : Side} {near far heavy light : Tree α} {x : Handle} {v : α}
variable {was : Nat}

/-- The case of lowering a node with a side that is too high. -/
def lowerCase (side : Side) (heavy : Tree α) : RotationCase :=
  side.rotationCase (if side.lean heavy.balance < 0 then side.other else side)

/-- The case that a node over two subtrees comes into, if one of them is too high. -/
def restoreCase (side : Side) (near far : Tree α) : Option RotationCase :=
  if far.height + 1 < near.height then some (side.lowerCase near)
  else if near.height + 1 < far.height then some (side.other.lowerCase far)
  else none

theorem restoreCase_other (side : Side) (near far : Tree α) :
    side.other.restoreCase far near = side.restoreCase near far := by
  unfold restoreCase
  rw [other_other]
  split
  · rw [if_neg (by omega)]
  · rfl

/-- What `restore` makes of a node, by the side that is too high. -/
theorem tree_restore_near (side : Side) (near : Tree α) (x : Handle) (v : α) (was : Nat)
    (far : Tree α) :
    (side.restore near x v was far).tree =
      if far.height + 1 < near.height then side.lower near x v far
      else if near.height + 1 < far.height then side.other.lower far x v near
      else side.join near x v far := by
  cases side with
  | left =>
      rw [restore, tree_restore, join_eq]
      split
      · rw [if_neg (by omega)]
        rfl
      · rfl
  | right =>
      rw [restore, tree_restore, join_eq]
      rfl

/-- Lowering a node takes back one level, unless the high side of it is even. -/
theorem height_lower_of_uneven (side : Side) (hb : heavy.Balanced)
    (hheight : heavy.height = light.height + 2) (huneven : heavy.balance ≠ 0) :
    (side.lower heavy x v light).height = heavy.height := by
  obtain ⟨outer, y, w, height, inner, rfl⟩ := side.exists_node_of_height_pos
    (t := heavy) (by omega)
  have hsides : height = 1 + max outer.height inner.height ∧
      outer.height ≤ inner.height + 1 ∧ inner.height ≤ outer.height + 1 ∧ inner.Balanced := by
    cases side with
    | left => exact ⟨hb.2.2.1, hb.2.2.2.1, hb.2.2.2.2, hb.2.1⟩
    | right => exact ⟨by rw [Nat.max_comm]; exact hb.2.2.1, hb.2.2.2.2, hb.2.2.2.1, hb.1⟩
  obtain ⟨hh, hle, hge, hinnerb⟩ := hsides
  have hlean := side.lean_balance_node outer y w height inner
  have hodd : side.lean (side.node outer y w height inner).balance ≠ 0 := by
    cases side with
    | left => simpa [lean] using huneven
    | right => exact huneven
  rw [height_node] at hheight ⊢
  by_cases hinner : side.lean (side.node outer y w height inner).balance < 0
  · rw [lower_of_inner hinner]
    rw [hlean] at hinner
    obtain ⟨d, z, u, k, e, rfl⟩ := side.exists_node_of_height_pos (t := inner) (by omega)
    have hk : k = 1 + max d.height e.height ∧ d.height ≤ e.height + 1 ∧
        e.height ≤ d.height + 1 := by
      cases side with
      | left => exact hinnerb.2.2
      | right => exact ⟨by rw [Nat.max_comm]; exact hinnerb.2.2.1, hinnerb.2.2.2.2,
          hinnerb.2.2.2.1⟩
    rw [height_node] at hh hle hge hinner
    rw [rotate_node, join, join, rotate_other_node]
    simp only [join, height_node]
    omega
  · rw [lower_of_outer hinner]
    rw [hlean] at hinner hodd
    rw [join, rotate_other_node]
    simp only [join, height_node]
    omega

end Side

namespace Tree

variable {α : Type} {t : Tree α} {was : Nat}

/-- The tree has become one level higher, and all of that is on one of its sides; only a leaf
has none. -/
structure Grown (t : Tree α) (was : Nat) : Prop where
  balanced : t.Balanced
  height_eq : t.height = was + 1
  uneven : t.balance ≠ 0 ∨ was = 0

theorem grown_leaf (id : Handle) (v : α) : (join nil id v nil : Tree α).Grown 0 :=
  ⟨balanced_join balanced_nil balanced_nil (by simp) (by simp) id v, rfl, .inr rfl⟩

end Tree

namespace Side

variable {α : Type} {side : Side} {near far : Tree α} {was : Nat}

/-- Over a side that has grown, a node is as high as it was, or it grows without a rotation. -/
theorem restore_of_grown (side : Side) (hnear : near.Grown was) (hfar : far.Balanced)
    (hle : was ≤ far.height + 1) (hge : far.height ≤ was + 1) (x : Handle) (v : α)
    {height : Nat} (hheight : height = 1 + max was far.height) :
    (side.restore near x v height far).tree.height = height ∨
      side.restoreCase near far = none ∧
        (side.restore near x v height far).tree.Grown height := by
  obtain ⟨hb, hgrown, huneven⟩ := hnear
  rw [tree_restore_near, restoreCase]
  by_cases hhigh : far.height + 1 < near.height
  · -- on the high side: a rotation
    rw [if_pos hhigh, height_lower_of_uneven side hb (by omega) (huneven.resolve_right (by omega))]
    exact .inl (by omega)
  · rw [if_neg hhigh, if_neg (by omega), if_neg hhigh, if_neg (by omega)]
    by_cases hlow : near.height ≤ far.height
    · -- on the low side
      refine .inl ?_
      rw [join, height_node]
      omega
    · -- on a side of an even node
      refine .inr ⟨rfl, ?_, ?_, .inl ?_⟩
      · cases side with
        | left => exact ⟨hb, hfar, rfl, by omega, by omega⟩
        | right => exact ⟨hfar, hb, by rw [Nat.max_comm], by omega, by omega⟩
      · rw [join, height_node]
        omega
      · cases side with
        | left => simp only [join, node, Tree.balance]; omega
        | right => simp only [join, node, Tree.balance]; omega

end Side

/-! ## Walks -/

namespace Frame

variable {α : Type} {f : Frame α} {t : Tree α} {c : Change α}

/-- What settling the node above does, over an updated subtree. -/
def settling (f : Frame α) (t : Tree α) : Settling :=
  let tree := (f.side.restore t f.handle f.value f.height f.sibling).tree
  ⟨f.handle, f.height, f.side.restoreCase t f.sibling, tree.root?.getD f.handle, tree.height⟩

@[simp] theorem height_fill (f : Frame α) (t : Tree α) : (f.fill t).height = f.height :=
  Side.height_node ..

theorem balanced_fill (h : (f.fill t).Balanced) :
    f.sibling.Balanced ∧ f.height = 1 + max t.height f.sibling.height ∧
      t.height ≤ f.sibling.height + 1 ∧ f.sibling.height ≤ t.height + 1 := by
  rcases f with ⟨side, x, v, height, sibling⟩
  cases side with
  | left => exact h.2
  | right =>
      obtain ⟨hsibling, -, hheight, hle, hge⟩ := h
      exact ⟨hsibling, by rw [Nat.max_comm]; exact hheight, hge, hle⟩

/-- One step upwards from a subtree that has grown. -/
theorem onto_of_grown (hb : (f.fill t).Balanced) (hc : c.climbs = true)
    (hgrown : c.tree.Grown t.height) :
    (f.settling c.tree).after = f.height ∨
      (f.settling c.tree).case = none ∧ (f.onto c).tree.Grown f.height := by
  obtain ⟨hsibling, hheight, hle, hge⟩ := balanced_fill hb
  rw [(f.tree_onto_of_climbs hc).1]
  exact f.side.restore_of_grown hgrown hsibling hle hge f.handle f.value hheight

end Frame

namespace Path

variable {α : Type} {path : Path α} {t t' : Tree α} {c : Change α}

/-- What the walk up a path does at each node that it comes to. -/
def settlings : Path α → Change α → List Settling
  | [], _ => []
  | f :: path, c =>
    f.settling c.tree :: if (f.onto c).climbs then settlings path (f.onto c) else []

theorem length_settlings_le (path : Path α) (c : Change α) :
    (path.settlings c).length ≤ path.length := by
  induction path generalizing c with
  | nil => exact Nat.le_refl 0
  | cons f path ih =>
      rw [settlings]
      split
      · exact Nat.succ_le_succ (ih (f.onto c))
      · exact Nat.succ_le_succ (Nat.zero_le _)

theorem height_plug_congr (path : Path α) (h : t.height = t'.height) :
    (path.plug t).height = (path.plug t').height := by
  induction path generalizing t t' with
  | nil => exact h
  | cons f path ih => exact ih (by rw [Frame.height_fill, Frame.height_fill])

/-- The walk up from a subtree that has grown. Each node it comes to has the height that it
had, which ends the walk, or has grown by one level without a rotation; and so has the whole
tree. By induction on the path. -/
theorem climb_of_grown (hb : (path.plug t).Balanced) (hc : c.climbs = true)
    (hgrown : c.tree.Grown t.height) :
    (∀ s ∈ path.settlings c,
      s.after = s.before ∨ s.case = none ∧ s.after = s.before + 1) ∧
    ((path.climb c).tree.height = (path.plug t).height ∨
      (path.climb c).tree.height = (path.plug t).height + 1) := by
  induction path generalizing t c with
  | nil => exact ⟨by simp [settlings], .inr hgrown.height_eq⟩
  | cons f path ih =>
      obtain ⟨htree, hclimbs⟩ := f.tree_onto_of_climbs hc
      have hafter : (f.settling c.tree).after = (f.onto c).tree.height := by rw [htree]; rfl
      rw [settlings, plug_cons, climb]
      rcases f.onto_of_grown (balanced_of_plug hb) hc hgrown with hsame | ⟨hcase, hgrown'⟩
      · have hends : (f.onto c).climbs = false := by rw [hclimbs, ← hafter, hsame]; simp
        rw [hends, climb_of_not_climbs path hends]
        refine ⟨?_, .inl (height_plug_congr path (by rw [← hafter, hsame, Frame.height_fill]))⟩
        intro s hs
        obtain rfl := List.mem_singleton.mp hs
        exact .inl hsame
      · have hgoes : (f.onto c).climbs = true := by
          rw [hclimbs, hgrown'.height_eq]
          simp
        rw [hgoes]
        rw [plug_cons] at hb
        obtain ⟨hrest, hheight⟩ := ih hb hgoes (by rwa [Frame.height_fill])
        refine ⟨?_, hheight⟩
        intro s hs
        rcases List.mem_cons.mp hs with rfl | hs
        · exact .inr ⟨hcase, by rw [hafter]; exact hgrown'.height_eq⟩
        · exact hrest s hs

end Path

end KernelMemory
