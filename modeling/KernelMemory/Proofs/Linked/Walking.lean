import KernelMemory.Proofs.Linked.Drawing

/-!
# Walking along links

A walk starts at a node and follows links until it is at the end of a side, or until it has
come up to a node that lies to the side it is looking to. On a drawing of a tree such a walk
ends where the sequence of the tree says: at its first or last pair, or at the pair next to
the one it started from. The two sides are walked alike, so every step is one for both.
-/

namespace KernelMemory

namespace Side

variable {α : Type}

/-- Induction on a tree that need not tell left from right, but the side from the other. -/
theorem induction (side : Side) {motive : Tree α → Prop} (nil : motive .nil)
    (node : ∀ near x v height far, motive near → motive far →
      motive (side.node near x v height far)) (t : Tree α) : motive t := by
  induction t with
  | nil => exact nil
  | node left x v height right ihl ihr =>
      cases side with
      | left => exact node left x v height right ihl ihr
      | right => exact node right x v height left ihr ihl

theorem size_node (side : Side) (near : Tree α) (x : Handle) (v : α) (height : Nat)
    (far : Tree α) : (side.node near x v height far).size = near.size + 1 + far.size := by
  cases side with
  | left => rfl
  | right => simp only [node, Tree.size]; omega

end Side

namespace Tree

variable {α : Type}

/-- The outermost node on a side. -/
def outermost? (side : Side) (t : Tree α) : Option Handle :=
  match side with
  | .left => t.first?
  | .right => t.last?

theorem outermost?_node (side : Side) (near : Tree α) (x : Handle) (v : α) (height : Nat)
    (far : Tree α) :
    (side.node near x v height far).outermost? side = (near.outermost? side).or (some x) := by
  cases side <;> rfl

end Tree

namespace Path

variable {α : Type} {f : Frame α} {side : Side}

/-- The first node above a place that lies to a side of it. -/
def above? (side : Side) (path : Path α) : Option Handle :=
  match side with
  | .left => path.before.getLast?.map Prod.fst
  | .right => path.after.head?.map Prod.fst

theorem above?_cons_self (hf : f.side = side) (path : Path α) :
    above? side (f :: path) = above? side path := by
  rcases f with ⟨side', y, w, height, sibling⟩
  obtain rfl : side' = side := hf
  cases side' with
  | left => simp [above?, before, Frame.before]
  | right => simp [above?, after, Frame.after]

/-- Where the place is on the other side of a node, the node is the first. -/
theorem above?_cons_other (hf : f.side = side.other) (path : Path α) :
    above? side (f :: path) = some f.handle := by
  rcases f with ⟨side', y, w, height, sibling⟩
  obtain rfl : side' = side.other := hf
  cases side with
  | left => simp [above?, before, Frame.before, Side.other]
  | right => simp [above?, after, Frame.after, Side.other]

/-- The place of a pair in a tree is its place in the sequence. -/
theorem exists_place {t : Tree α} (hn : t.handles.Nodup) {id : Handle} {v : α}
    {pre post : List (Handle × α)} (hl : t.toList = pre ++ (id, v) :: post) :
    ∃ path left height right, t = plug path (.node left id v height right) ∧
      pre = path.before ++ left.toList ∧ post = right.toList ++ path.after := by
  obtain ⟨path, left, w, height, right, rfl⟩ := exists_plug (Tree.mem_handles_of_split hl)
  have hplace : (path.plug (.node left id w height right)).toList =
      (path.before ++ left.toList) ++ (id, w) :: (right.toList ++ path.after) := by
    rw [toList_plug]
    simp
  obtain ⟨rfl, rfl, rfl⟩ := Tree.split_unique (by rw [← hplace]; exact hn) (hplace.symm.trans hl)
  exact ⟨path, left, height, right, rfl, rfl, rfl⟩

end Path

namespace Linked

variable {α ε : Type} {x : Linked α} {id : Handle} {v : α} {height : Nat}
variable {t near far : Tree α} {path : Path α} {base : Option Handle}

/-! ## Down -/

/-- The way along the links of a side ends at the outermost node. -/
theorem outcome_extreme (side : Side) (h : x.Draws base t) (hroot : t.root? = some id)
    {steps : Nat} (hsteps : t.size ≤ steps) :
    ∃ k, t.outermost? side = some k ∧
      (extreme side steps id : LinkedOperation ε α _).outcome x = (.ok k, x) := by
  induction t using side.induction generalizing base id steps with
  | nil => cases hroot
  | node near k v height far ih =>
      rw [Side.root?_node] at hroot
      obtain rfl := Option.some.inj hroot
      obtain ⟨hid, hnear, -⟩ := (draws_node_iff side).mp h
      rw [Side.size_node] at hsteps
      obtain ⟨steps, rfl⟩ : ∃ rest, steps = rest + 1 := ⟨steps - 1, by omega⟩
      show ∃ k', _ ∧ (resolve k >>= _).outcome x = _
      rw [Operation.outcome_bind_ok (outcome_resolve hid), Side.child_linked,
        Tree.outermost?_node]
      cases htop : near.root? with
      | none =>
          obtain rfl := Tree.eq_nil_of_root? htop
          exact ⟨k, by cases side <;> rfl, rfl⟩
      | some c =>
          obtain ⟨k', hk', hout⟩ := ih hnear htop (show near.size ≤ steps by omega)
          exact ⟨k', by rw [hk']; rfl, hout⟩

/-- The outermost node of the whole index, found from its root. -/
theorem outcome_last? (side : Side) (h : x.Shows t) (hsteps : t.size ≤ x.cells.size) :
    (last? side : LinkedOperation ε α _).outcome x = (.ok (t.outermost? side), x) := by
  rw [last?, Operation.outcome_get_bind, h.root_eq]
  cases hroot : t.root? with
  | none =>
      obtain rfl := Tree.eq_nil_of_root? hroot
      cases side <;> rfl
  | some id =>
      obtain ⟨k, hk, hout⟩ := outcome_extreme (ε := ε) side h.draws hroot hsteps
      rw [hk]
      exact Operation.outcome_map_ok hout some

/-! ## Up -/

/-- Going up from a place ends at the first node that lies to the side. -/
theorem outcome_ascend (side : Side) (h : x.Climbs none (some id) path)
    (hid : id ∉ path.handles) (hn : path.handles.Nodup) {steps : Nat}
    (hsteps : path.length ≤ steps) :
    (ascend side steps id (path.parent none) : LinkedOperation ε α _).outcome x =
      (.ok (path.above? side), x) := by
  induction path generalizing id steps with
  | nil => cases side <;> cases steps <;> rfl
  | cons f path ih =>
      obtain ⟨steps, rfl⟩ : ∃ k, steps = k + 1 := ⟨steps - 1, by simp at hsteps; omega⟩
      obtain ⟨hnode, -, hpath⟩ := h
      rw [Path.handles_cons, List.cons_append, List.nodup_cons, List.mem_append, not_or,
        List.nodup_append] at hn
      rw [Path.handles_cons, List.cons_append, List.mem_cons, List.mem_append, not_or,
        not_or] at hid
      have hup := ih hpath hn.1.2 hn.2.2.1 (show path.length ≤ steps by simpa using hsteps)
      show (resolve f.handle >>= _).outcome x = _
      rw [Operation.outcome_bind_ok (outcome_resolve hnode), Side.parent_linked]
      by_cases hside : f.side = side
      · have hsibling : f.sibling.root? ≠ some id := fun e =>
          hid.2.1 (Tree.mem_handles_of_root? e)
        rw [Path.above?_cons_self hside, ← hside, Side.child_other_linked, if_neg hsibling, hside]
        exact hup
      · have hother : f.side = side.other := by
          revert hside
          cases f.side <;> cases side <;> simp [Side.other]
        rw [Path.above?_cons_other hother, ← hother, Side.child_linked, if_pos rfl,
          Operation.outcome_pure]

/-! ## To the next node -/

/-- The next node on a side is the nearest one of the subtree there, and without a subtree the
first one above that lies to that side. -/
theorem outcome_next? (side : Side)
    (hn : (path.plug (side.node near id v height far)).handles.Nodup)
    (h : x.Shows (path.plug (side.node near id v height far)))
    (hsteps : (path.plug (side.node near id v height far)).size ≤ x.cells.size) :
    (next? side id : LinkedOperation ε α _).outcome x =
      (.ok ((near.outermost? side.other).or (path.above? side)), x) := by
  obtain ⟨hdraws, hleads⟩ := shows_plug_iff.mp h
  obtain ⟨hid, hnear, -⟩ := (draws_node_iff side).mp hdraws
  have hlen := path.length_le (side.node near id v height far)
  rw [Tree.length_handles, Tree.length_handles, Side.size_node] at hlen
  rw [next?, Operation.outcome_get_bind, hid]
  simp only [Side.child_linked, Side.parent_linked]
  cases hroot : near.root? with
  | some c =>
      obtain ⟨k, hk, hout⟩ := outcome_extreme (ε := ε) side.other hnear hroot
        (show near.size ≤ x.cells.size by omega)
      rw [hk]
      exact Operation.outcome_map_ok hout some
  | none =>
      obtain ⟨-, hpath, hdisjoint⟩ := Path.nodup_plug_iff.mp hn
      obtain rfl := Tree.eq_nil_of_root? hroot
      rw [Side.root?_node] at hleads
      have hnone : (Tree.nil : Tree α).outermost? side.other = none := by cases side <;> rfl
      rw [hnone]
      exact outcome_ascend side hleads.climbs
        (hdisjoint id (by simp [Side.mem_handles_node])) hpath (by omega)

section Sequence

variable {pre post : List (Handle × α)}

theorem Shows.outcome_next? (h : x.Shows t) (hn : t.handles.Nodup)
    (hsteps : t.size ≤ x.cells.size) (hl : t.toList = pre ++ (id, v) :: post) :
    (next? .right id : LinkedOperation ε α _).outcome x = (.ok (post.head?.map Prod.fst), x) := by
  obtain ⟨path, left, height, right, rfl, -, rfl⟩ := Path.exists_place hn hl
  rw [Linked.outcome_next? .right hn h hsteps, List.head?_append, Option.map_or,
    ← Tree.first?_eq]
  rfl

theorem Shows.outcome_previous? (h : x.Shows t) (hn : t.handles.Nodup)
    (hsteps : t.size ≤ x.cells.size) (hl : t.toList = pre ++ (id, v) :: post) :
    (next? .left id : LinkedOperation ε α _).outcome x = (.ok (pre.getLast?.map Prod.fst), x) := by
  obtain ⟨path, left, height, right, rfl, rfl, -⟩ := Path.exists_place hn hl
  rw [Linked.outcome_next? .left hn h hsteps, List.getLast?_append, Option.map_or,
    ← Tree.last?_eq]
  rfl

end Sequence

end Linked

end KernelMemory
