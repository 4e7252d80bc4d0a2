import KernelMemory.Index.Linked
import KernelMemory.Proofs.Tree.Balance
import KernelMemory.Proofs.Tree.Sequence

/-!
# Paths to the root

A place in a tree is the subtree there and the path from it to the root: which node lies
above, on which side of that node the path goes on, and what is on the other side. The
recursive updates of `Tree` come back up along such a path, so each of them is one change at
one place and a climb from there. In this form an update can be compared with a walk that
starts at the place and follows links upwards.
-/

namespace KernelMemory

namespace Side

variable {α : Type}

@[simp] theorem other_other (side : Side) : side.other.other = side := by
  cases side <;> rfl

/-- A node over the subtree on this side of it and the one on the other side. -/
def node (side : Side) (near : Tree α) (x : Handle) (v : α) (height : Nat) (far : Tree α) :
    Tree α :=
  match side with
  | left => .node near x v height far
  | right => .node far x v height near

/-- A node with the height that its two subtrees give it. -/
def join (side : Side) (near : Tree α) (x : Handle) (v : α) (far : Tree α) : Tree α :=
  side.node near x v (1 + max near.height far.height) far

/-- Lowers the root to this side. -/
def rotate : Side → Tree α → Tree α
  | left => Tree.rotateLeft
  | right => Tree.rotateRight

def restore (side : Side) (near : Tree α) (x : Handle) (v : α) (was : Nat) (far : Tree α) :
    Change α :=
  match side with
  | left => Tree.restore near x v was far
  | right => Tree.restore far x v was near

theorem node_other (side : Side) (near : Tree α) (x : Handle) (v : α) (height : Nat)
    (far : Tree α) : side.other.node near x v height far = side.node far x v height near := by
  cases side <;> rfl

@[simp] theorem root?_node (side : Side) (near : Tree α) (x : Handle) (v : α) (height : Nat)
    (far : Tree α) : (side.node near x v height far).root? = some x := by
  cases side <;> rfl

@[simp] theorem height_node (side : Side) (near : Tree α) (x : Handle) (v : α) (height : Nat)
    (far : Tree α) : (side.node near x v height far).height = height := by
  cases side <;> rfl

theorem join_eq (side : Side) (near : Tree α) (x : Handle) (v : α) (far : Tree α) :
    side.join near x v far =
      match side with
      | left => Tree.join near x v far
      | right => Tree.join far x v near := by
  cases side with
  | left => rfl
  | right => rw [join, Nat.max_comm]; rfl

theorem mem_handles_node (side : Side) {near : Tree α} {x : Handle} {v : α} {height : Nat}
    {far : Tree α} {id : Handle} :
    id ∈ (side.node near x v height far).handles ↔
      id = x ∨ id ∈ near.handles ∨ id ∈ far.handles := by
  cases side with
  | left => simp [node, or_left_comm]
  | right => simp [node, or_comm, or_assoc]

/-- The handles of a node are distinct if those of its sides are and no two of the three
meet. -/
theorem nodup_handles_node (side : Side) {near : Tree α} {x : Handle} {v : α} {height : Nat}
    {far : Tree α} :
    (side.node near x v height far).handles.Nodup ↔
      x ∉ near.handles ∧ x ∉ far.handles ∧ near.handles.Nodup ∧ far.handles.Nodup ∧
        ∀ id ∈ near.handles, id ∉ far.handles := by
  cases side with
  | left =>
      simp only [node, Tree.handles_node, List.nodup_append, List.nodup_cons, List.mem_cons]
      grind
  | right =>
      simp only [node, Tree.handles_node, List.nodup_append, List.nodup_cons, List.mem_cons]
      grind

theorem rotate_node (side : Side) (a : Tree α) (x : Handle) (v : α) (height : Nat)
    (b : Tree α) (y : Handle) (w : α) (height' : Nat) (c : Tree α) :
    side.rotate (side.node a x v height (side.node b y w height' c)) =
      side.join (side.join a x v b) y w c := by
  cases side with
  | left => rfl
  | right => simp only [join_eq]; rfl

/-- Lifts the root of the subtree on this side. -/
theorem rotate_other_node (side : Side) (outer : Tree α) (y : Handle) (w : α) (height' : Nat)
    (inner : Tree α) (x : Handle) (v : α) (height : Nat) (light : Tree α) :
    side.other.rotate (side.node (side.node outer y w height' inner) x v height light) =
      side.other.join (side.other.join light x v inner) y w outer := by
  rw [← node_other side light, ← node_other side inner, rotate_node]

theorem toList_turn (side : Side) (a : Tree α) (x : Handle) (v : α) (height h : Nat)
    (b : Tree α) (y : Handle) (w : α) (height' h' : Nat) (c : Tree α) :
    (side.node (side.node a x v h b) y w h' c).toList =
      (side.node a x v height (side.node b y w height' c)).toList := by
  cases side <;> simp [node]

@[simp] theorem toList_rotate (side : Side) (t : Tree α) :
    (side.rotate t).toList = t.toList := by
  cases side with
  | left => exact Tree.toList_rotateLeft t
  | right => exact Tree.toList_rotateRight t

/-- The higher side of a node, and how far it is off, by the balance of the node. -/
theorem lean_balance_node (side : Side) (near : Tree α) (x : Handle) (v : α) (height : Nat)
    (far : Tree α) :
    side.lean (side.node near x v height far).balance = (near.height : Int) - far.height := by
  cases side with
  | left => simp only [lean, node, Tree.balance]; omega
  | right => rfl

/-- Lowers a node whose side `heavy` is too high, by one rotation or by two. -/
def lower (side : Side) (heavy : Tree α) (x : Handle) (v : α) (light : Tree α) : Tree α :=
  side.other.rotate
    (side.join (if side.lean heavy.balance < 0 then side.rotate heavy else heavy) x v light)

theorem lower_of_inner {side : Side} {heavy : Tree α} (h : side.lean heavy.balance < 0)
    (x : Handle) (v : α) (light : Tree α) :
    side.lower heavy x v light = side.other.rotate (side.join (side.rotate heavy) x v light) := by
  rw [lower, if_pos h]

theorem lower_of_outer {side : Side} {heavy : Tree α} (h : ¬ side.lean heavy.balance < 0)
    (x : Handle) (v : α) (light : Tree α) :
    side.lower heavy x v light = side.other.rotate (side.join heavy x v light) := by
  rw [lower, if_neg h]

/-- What `restore` does is one thing for both sides. -/
theorem tree_restore (left : Tree α) (x : Handle) (v : α) (was : Nat) (right : Tree α) :
    (Tree.restore left x v was right).tree =
      if left.height + 1 < right.height then Side.right.lower right x v left
      else if right.height + 1 < left.height then Side.left.lower left x v right
      else Tree.join left x v right := by
  simp only [Tree.restore]
  split
  · split
    · next h =>
      rw [lower_of_inner (show Side.right.lean right.balance < 0 from h), join_eq]
      rfl
    · next h =>
      rw [lower_of_outer (show ¬ Side.right.lean right.balance < 0 from h), join_eq]
      rfl
  · split
    · split
      · next h =>
        rw [lower_of_inner (show Side.left.lean left.balance < 0 by simpa [lean] using h),
          join_eq]
        rfl
      · next h =>
        rw [lower_of_outer (show ¬ Side.left.lean left.balance < 0 by simpa [lean] using h),
          join_eq]
        rfl
    · rfl

/-- A subtree that is higher than none has a root. -/
theorem exists_node_of_height_pos (side : Side) {t : Tree α} (h : 0 < t.height) :
    ∃ near x v height far, t = side.node near x v height far := by
  cases t with
  | nil => exact absurd h (Nat.lt_irrefl 0)
  | node l x v height r =>
      cases side with
      | left => exact ⟨l, x, v, height, r, rfl⟩
      | right => exact ⟨r, x, v, height, l, rfl⟩

end Side

/-- One step towards the root: the node above, the side of it that the step comes from, and
what is on its other side. -/
structure Frame (α : Type) where
  side : Side
  handle : Handle
  value : α
  height : Nat
  sibling : Tree α

namespace Frame

variable {α : Type}

/-- The node above with a subtree in its place. -/
def fill (f : Frame α) (t : Tree α) : Tree α :=
  f.side.node t f.handle f.value f.height f.sibling

/-- The handles that a step adds to those below. -/
def handles (f : Frame α) : List Handle :=
  f.handle :: f.sibling.handles

/-- What a step adds in front of a sequence. -/
def before (f : Frame α) : List (Handle × α) :=
  match f.side with
  | .left => []
  | .right => f.sibling.toList ++ [(f.handle, f.value)]

/-- What a step adds behind a sequence. -/
def after (f : Frame α) : List (Handle × α) :=
  match f.side with
  | .left => (f.handle, f.value) :: f.sibling.toList
  | .right => []

/-- Continues an update at the node above. -/
def onto (f : Frame α) (c : Change α) : Change α :=
  match f.side with
  | .left => c.ontoLeft f.handle f.value f.height f.sibling
  | .right => Change.ontoRight f.sibling f.handle f.value f.height c

theorem toList_fill (f : Frame α) (t : Tree α) :
    (f.fill t).toList = f.before ++ t.toList ++ f.after := by
  rcases f with ⟨side, x, v, height, sibling⟩
  cases side with
  | left => simp [fill, Side.node, before, after]
  | right => simp [fill, Side.node, before, after]

theorem tree_onto_of_climbs (f : Frame α) {c : Change α} (h : c.climbs = true) :
    (f.onto c).tree =
        (f.side.restore c.tree f.handle f.value f.height f.sibling).tree ∧
      (f.onto c).climbs = ((f.onto c).tree.height != f.height) := by
  rcases f with ⟨side, x, v, height, sibling⟩
  cases side with
  | left =>
      simp only [onto, Change.ontoLeft, h, if_true, Side.restore, true_and]
      exact Tree.climbs_restore c.tree x v height sibling
  | right =>
      simp only [onto, Change.ontoRight, h, if_true, Side.restore, true_and]
      exact Tree.climbs_restore sibling x v height c.tree

theorem onto_of_not_climbs (f : Frame α) {c : Change α} (h : c.climbs = false) :
    (f.onto c).tree = f.fill c.tree ∧ (f.onto c).climbs = false := by
  rcases f with ⟨side, x, v, height, sibling⟩
  cases side with
  | left => simp [onto, Change.ontoLeft, h, fill, Side.node]
  | right => simp [onto, Change.ontoRight, h, fill, Side.node]

theorem toList_onto (f : Frame α) (c : Change α) :
    (f.onto c).tree.toList = f.before ++ c.tree.toList ++ f.after := by
  rcases f with ⟨side, x, v, height, sibling⟩
  cases side with
  | left => simp [onto, before, after]
  | right => simp [onto, before, after]

end Frame

/-- The steps from a place to the root. -/
abbrev Path (α : Type) : Type :=
  List (Frame α)

namespace Path

variable {α : Type}

/-- The whole tree, with a subtree at the place. -/
def plug : Path α → Tree α → Tree α
  | [], t => t
  | f :: path, t => plug path (f.fill t)

/-- The whole tree after an update at the place. -/
def climb : Path α → Change α → Change α
  | [], c => c
  | f :: path, c => climb path (f.onto c)

/-- The node above the place; `base` if there is none. -/
def parent (base : Option Handle) : Path α → Option Handle
  | [] => base
  | f :: _ => some f.handle

/-- The node above the place and the side of it that the place is on. -/
def seat : Path α → Option (Handle × Side)
  | [] => none
  | f :: _ => some (f.handle, f.side)

/-- The node on top, if there is `hole` at the place. -/
def top : Path α → Option Handle → Option Handle
  | [], hole => hole
  | f :: path, _ => top path (some f.handle)

def handles (path : Path α) : List Handle :=
  path.flatMap Frame.handles

/-- What lies in front of the place. -/
def before : Path α → List (Handle × α)
  | [] => []
  | f :: path => before path ++ f.before

/-- What lies behind the place. -/
def after : Path α → List (Handle × α)
  | [] => []
  | f :: path => f.after ++ after path

@[simp] theorem plug_nil (t : Tree α) : plug [] t = t := rfl

theorem plug_cons (f : Frame α) (path : Path α) (t : Tree α) :
    plug (f :: path) t = plug path (f.fill t) := rfl

@[simp] theorem handles_nil : handles ([] : Path α) = [] := rfl

@[simp] theorem handles_cons (f : Frame α) (path : Path α) :
    handles (f :: path) = f.handle :: f.sibling.handles ++ handles path := rfl

theorem plug_append (path path' : Path α) (t : Tree α) :
    plug (path ++ path') t = plug path' (plug path t) := by
  induction path generalizing t with
  | nil => rfl
  | cons f path ih => exact ih (f.fill t)

theorem climb_append (path path' : Path α) (c : Change α) :
    climb (path ++ path') c = climb path' (climb path c) := by
  induction path generalizing c with
  | nil => rfl
  | cons f path ih => exact ih (f.onto c)

theorem parent_append (base : Option Handle) (path path' : Path α) :
    parent base (path ++ path') = parent (parent base path') path := by
  cases path <;> rfl

theorem map_seat (path : Path α) : path.seat.map Prod.fst = path.parent none := by
  cases path <;> rfl

theorem root?_plug (path : Path α) (t : Tree α) : (plug path t).root? = path.top t.root? := by
  induction path generalizing t with
  | nil => rfl
  | cons f path ih => rw [plug_cons, ih, Frame.fill, Side.root?_node]; rfl

theorem toList_plug (path : Path α) (t : Tree α) :
    (plug path t).toList = before path ++ t.toList ++ after path := by
  induction path generalizing t with
  | nil => simp [before, after]
  | cons f path ih => rw [plug_cons, ih, Frame.toList_fill]; simp [before, after]

theorem toList_climb (path : Path α) (c : Change α) :
    (climb path c).tree.toList = before path ++ c.tree.toList ++ after path := by
  induction path generalizing c with
  | nil => simp [climb, before, after]
  | cons f path ih =>
      show (climb path (f.onto c)).tree.toList = _
      rw [ih, Frame.toList_onto]
      simp [before, after]

/-- A walk that has ended changes nothing above. -/
theorem climb_of_not_climbs (path : Path α) {c : Change α} (h : c.climbs = false) :
    (climb path c).tree = plug path c.tree := by
  induction path generalizing c with
  | nil => rfl
  | cons f path ih =>
      obtain ⟨htree, hclimbs⟩ := f.onto_of_not_climbs h
      rw [plug_cons, ← htree]
      exact ih hclimbs

/-! ## Handles -/

theorem handles_plug_perm (path : Path α) (t : Tree α) :
    (plug path t).handles.Perm (t.handles ++ path.handles) := by
  induction path generalizing t with
  | nil => simp
  | cons f path ih =>
      rw [plug_cons]
      refine (ih _).trans ?_
      rcases f with ⟨side, x, v, height, sibling⟩
      cases side with
      | left => simp [Frame.fill, Side.node]
      | right =>
          simp only [Frame.fill, Side.node, Tree.handles_node, handles_cons,
            ← List.append_assoc]
          refine List.Perm.append_right _ ?_
          exact List.perm_middle.trans
            ((List.perm_append_comm.cons x).trans List.perm_middle.symm)

/-- No handle stands twice in the whole tree: not at the place, not along the path, and not
on both. -/
theorem nodup_plug_iff {path : Path α} {t : Tree α} :
    (plug path t).handles.Nodup ↔
      t.handles.Nodup ∧ path.handles.Nodup ∧ ∀ id ∈ t.handles, id ∉ path.handles := by
  rw [(handles_plug_perm path t).nodup_iff, List.nodup_append]
  refine and_congr_right fun _ => and_congr_right fun _ => ?_
  exact ⟨fun h id hid hpath => h id hid id hpath rfl, fun h id hid k hk e => h id hid (e ▸ hk)⟩

/-- Only the sequence of a subtree matters for it. -/
theorem nodup_plug_congr (path : Path α) {t t' : Tree α} (h : t'.toList = t.toList)
    (hn : (plug path t).handles.Nodup) : (plug path t').handles.Nodup := by
  rwa [Tree.handles, toList_plug, h, ← toList_plug]

theorem length_le (path : Path α) (t : Tree α) :
    path.length + t.handles.length ≤ (plug path t).handles.length := by
  have hle : path.length ≤ path.handles.length := by
    induction path with
    | nil => exact Nat.le_refl 0
    | cons f path ih => simp only [handles_cons, List.length_cons, List.length_append]; omega
  rw [(handles_plug_perm path t).length_eq, List.length_append]
  omega

/-- A node without a left side leaves its place to the right one. -/
theorem handles_plug_first_perm (path : Path α) (x : Handle) (v : α) (height : Nat)
    (sub : Tree α) :
    (plug path (.node .nil x v height sub)).handles.Perm (x :: (plug path sub).handles) := by
  refine (handles_plug_perm path _).trans ?_
  rw [Tree.handles_node, Tree.handles_nil, List.nil_append, List.cons_append]
  exact (handles_plug_perm path sub).symm.cons x

theorem mem_handles_plug {path : Path α} {t : Tree α} {id : Handle} :
    id ∈ (plug path t).handles ↔ id ∈ t.handles ∨ id ∈ path.handles := by
  rw [(handles_plug_perm path t).mem_iff, List.mem_append]

/-- The node on top of a path is one of the path. -/
theorem mem_handles_of_top {f : Frame α} {path : Path α} {hole : Option Handle} {id : Handle}
    (h : Path.top (f :: path) hole = some id) : id ∈ Path.handles (f :: path) := by
  induction path generalizing f with
  | nil =>
      obtain rfl := Option.some.inj h
      simp
  | cons g path ih =>
      rw [handles_cons]
      exact List.mem_append_right _ (ih (f := g) h)

/-- Every handle of a tree is at a place of it. -/
theorem exists_plug {t : Tree α} {id : Handle} (h : id ∈ t.handles) :
    ∃ path left v height right, t = plug path (.node left id v height right) := by
  induction t with
  | nil => simp at h
  | node l x w k r ihl ihr =>
      rw [Tree.handles_node, List.mem_append, List.mem_cons] at h
      rcases h with h | rfl | h
      · obtain ⟨path, left, v, height, right, rfl⟩ := ihl h
        refine ⟨path ++ [⟨.left, x, w, k, r⟩], left, v, height, right, ?_⟩
        rw [plug_append]
        rfl
      · exact ⟨[], l, w, k, r, rfl⟩
      · obtain ⟨path, left, v, height, right, rfl⟩ := ihr h
        refine ⟨path ++ [⟨.right, x, w, k, l⟩], left, v, height, right, ?_⟩
        rw [plug_append]
        rfl

end Path

namespace Tree

variable {α : Type}

theorem length_handles (t : Tree α) : t.handles.length = t.size := by
  rw [handles, List.length_map, length_toList]

/-- As many steps as a tree has nodes are one for the root and enough for either side. -/
theorem exists_steps {left right : Tree α} {x : Handle} {v : α} {height steps : Nat}
    (h : (node left x v height right).size ≤ steps) :
    ∃ rest, steps = rest + 1 ∧ left.size ≤ rest ∧ right.size ≤ rest := by
  rw [size] at h
  exact ⟨steps - 1, by omega, by omega, by omega⟩

theorem eq_nil_of_root? {t : Tree α} (h : t.root? = none) : t = nil := by
  cases t with
  | nil => rfl
  | node left x v height right => cases h

theorem exists_root? {t : Tree α} (h : t ≠ nil) : ∃ id, t.root? = some id := by
  cases t with
  | nil => exact absurd rfl h
  | node left x v height right => exact ⟨x, rfl⟩

theorem mem_handles_of_root? {t : Tree α} {id : Handle} (h : t.root? = some id) :
    id ∈ t.handles := by
  cases t with
  | nil => cases h
  | node left x v height right =>
      obtain rfl := Option.some.inj h
      simp

/-! ## Inserting -/

/-- The path from where a search that finds nothing ends. -/
def gap (probe : α → Ordering) : Tree α → Path α
  | nil => []
  | node left x v height right =>
    match probe v with
    | .lt => left.gap probe ++ [⟨.left, x, v, height, right⟩]
    | _ => right.gap probe ++ [⟨.right, x, v, height, left⟩]

theorem plug_gap (probe : α → Ordering) (t : Tree α) : (t.gap probe).plug nil = t := by
  induction t with
  | nil => rfl
  | node l x v height r ihl ihr =>
      rw [gap]
      split
      · rw [Path.plug_append, ihl]
        rfl
      · rw [Path.plug_append, ihr]
        rfl

theorem insert_eq_climb (probe : α → Ordering) (id : Handle) (new : α) (t : Tree α) :
    t.insert probe id new = (t.gap probe).climb ⟨join nil id new nil, [], true⟩ := by
  induction t with
  | nil => rfl
  | node l x v height r ihl ihr =>
      cases hp : probe v with
      | lt =>
          simp only [insert, gap, hp]
          rw [Path.climb_append, ← ihl]
          rfl
      | eq | gt =>
          simp only [insert, gap, hp]
          rw [Path.climb_append, ← ihr]
          rfl

/-! ## Removing -/

/-- The first node of a tree is at the end of a path along left sides, and taking it out is
an update there. -/
theorem exists_first {t : Tree α} (h : t ≠ nil) :
    ∃ path x v height right, (∀ f ∈ path, f.side = .left) ∧
      t = Path.plug path (node nil x v height right) ∧
      t.popFirst? = some ⟨x, v, Path.climb path ⟨right, [], true⟩⟩ := by
  induction t with
  | nil => exact absurd rfl h
  | node l x v height r ihl _ =>
      by_cases hl : l = nil
      · subst hl
        exact ⟨[], x, v, height, r, by simp, rfl, rfl⟩
      · obtain ⟨path, y, w, k, right, hside, hplug, hpop⟩ := ihl hl
        refine ⟨path ++ [⟨.left, x, v, height, r⟩], y, w, k, right, ?_, ?_, ?_⟩
        · intro f hf
          rcases List.mem_append.mp hf with hf | hf
          · exact hside f hf
          · rw [List.mem_singleton.mp hf]
        · rw [Path.plug_append, ← hplug]
          rfl
        · rw [popFirst?, hpop, Path.climb_append]
          rfl

/-- Of two sides, the first node of the right one takes the place of the root. -/
theorem unroot_plug {left : Tree α} (hleft : left ≠ nil) (height : Nat) {path : Path α}
    {right sub : Tree α} {x : Handle} {v : α}
    (hpop : right.popFirst? = some ⟨x, v, Path.climb path ⟨sub, [], true⟩⟩) :
    left.unroot height right =
      Path.climb (path ++ [⟨.right, x, v, height, left⟩]) ⟨sub, [], true⟩ := by
  cases left with
  | nil => exact absurd rfl hleft
  | node l y w k r =>
      simp only [unroot, hpop]
      rw [Path.climb_append]
      rfl

/-- Removing at a place is an update of the place. -/
theorem remove?_plug {path : Path α} {t : Tree α} {id : Handle} {v : α} {c : Change α}
    (hn : (path.plug t).handles.Nodup) (h : t.remove? id = some (v, c)) :
    (path.plug t).remove? id = some (v, path.climb c) := by
  induction path generalizing t c with
  | nil => exact h
  | cons f path ih =>
      rw [Path.plug_cons] at hn ⊢
      refine ih hn ?_
      obtain ⟨pre, post, hl, -⟩ := toList_remove? h
      have hid : id ∈ t.handles := mem_handles_of_split hl
      obtain ⟨hfill, -⟩ := Path.nodup_plug_iff.mp hn
      rcases f with ⟨side, x, w, height, sibling⟩
      cases side with
      | left =>
          have hne : x ≠ id := by
            rintro rfl
            simp only [Frame.fill, Side.node, handles_node, List.nodup_append] at hfill
            exact hfill.2.2 x hid x (by simp) rfl
          show (node t x w height sibling).remove? id = _
          rw [remove?, if_neg hne, h]
          rfl
      | right =>
          have hne : x ≠ id ∧ id ∉ sibling.handles := by
            simp only [Frame.fill, Side.node, handles_node, List.nodup_append,
              List.nodup_cons] at hfill
            refine ⟨?_, fun hs => hfill.2.2 id hs id (by simp [hid]) rfl⟩
            rintro rfl
            exact hfill.2.1.1 hid
          show (node sibling x w height t).remove? id = _
          rw [remove?, if_neg hne.1, remove?_eq_none hne.2, h]
          rfl

/-! ## Overwriting -/

/-- Overwriting at a place changes nothing else. -/
theorem set_plug {path : Path α} {left right : Tree α} {id : Handle} {v : α} {height : Nat}
    (hn : (path.plug (node left id v height right)).handles.Nodup) (new : α) :
    (path.plug (node left id v height right)).set id new =
      path.plug (node left id new height right) := by
  have hset : ∀ (path : Path α) (t t' : Tree α), (path.plug t).handles.Nodup →
      id ∈ t.handles → t.set id new = t' → (path.plug t).set id new = path.plug t' := by
    intro path
    induction path with
    | nil => exact fun t t' _ _ h => h
    | cons f path ih =>
        intro t t' hn hid h
        refine ih (f.fill t) (f.fill t') hn ?_ ?_
        · exact (Side.mem_handles_node f.side).mpr (.inr (.inl hid))
        · obtain ⟨hfill, -⟩ := Path.nodup_plug_iff.mp (by rwa [Path.plug_cons] at hn)
          obtain ⟨hx, -, -, -, hsibling⟩ := (Side.nodup_handles_node f.side).mp hfill
          have hne : f.handle ≠ id := fun e => hx (e ▸ hid)
          have hother := set_of_not_mem (hsibling id hid) new
          rcases f with ⟨side, x, w, k, sibling⟩
          cases side with
          | left =>
              show (node t x w k sibling).set id new = node t' x w k sibling
              rw [set, if_neg hne, h, hother]
          | right =>
              show (node sibling x w k t).set id new = node sibling x w k t'
              rw [set, if_neg hne, h, hother]
  exact hset path _ _ hn (by simp) (by rw [set, if_pos rfl])

end Tree

end KernelMemory
