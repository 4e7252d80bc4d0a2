import KernelMemory.Proofs.Outcome
import KernelMemory.Proofs.Tree.Path

/-!
# Drawing a tree with links

A linked index shows a tree if every node of the tree is in its cell, with links to the roots
of its two sides and back to the node above it. The same is said of a place in the tree: the
links under the place draw the subtree there, and the links along the path lead from the root
to it and back. A change of the links at one place is then a matter of that place alone, and
what has to be known of all other nodes is only that their cells were not written to.
-/

namespace KernelMemory

variable {α κ ε : Type}

namespace Side

/-- A node with the link on this side and the one on the other side. -/
def linked (side : Side) (parent near far : Option Handle) (height : Nat) (value : α) :
    LinkedNode α :=
  match side with
  | left => ⟨parent, near, far, height, value⟩
  | right => ⟨parent, far, near, height, value⟩

section linked

variable (side : Side) (parent near far link : Option Handle) (height : Nat) (value : α)

@[simp] theorem parent_linked : (side.linked parent near far height value).parent = parent := by
  cases side <;> rfl

@[simp] theorem height_linked : (side.linked parent near far height value).height = height := by
  cases side <;> rfl

@[simp] theorem child_linked : (side.linked parent near far height value).child side = near := by
  cases side <;> rfl

@[simp] theorem child_other_linked :
    (side.linked parent near far height value).child side.other = far := by
  cases side <;> rfl

@[simp] theorem withChild_linked :
    (side.linked parent near far height value).withChild side link =
      side.linked parent link far height value := by
  cases side <;> rfl

@[simp] theorem withChild_other_linked :
    (side.linked parent near far height value).withChild side.other link =
      side.linked parent near link height value := by
  cases side <;> rfl

@[simp] theorem with_parent_linked :
    { side.linked parent near far height value with parent := link } =
      side.linked link near far height value := by
  cases side <;> rfl

end linked

end Side

namespace Linked

variable {x x' : Linked α} {id k : Handle} {n m : LinkedNode α}

/-! ## Reading and writing a node -/

theorem node?_eq_some_iff :
    x.node? id = some n ↔
      id.owner = x.owner ∧ x.cells[id.slot]? = some ⟨id.generation, some n⟩ := by
  unfold node?
  rcases x.cells[id.slot]? with _ | ⟨generation, node⟩
  · simp
  · simp only [Option.ite_none_right_eq_some, Option.some.injEq, Cell.mk.injEq]

/-- Changing the cell of a handle does not change what other handles lead to, if the cell
stays in its generation or loses its node: no other handle names the cell in the generation
that it was in. -/
theorem node?_modify_of_ne {c : Cell α} {f : Cell α → Cell α} (howner : id.owner = x.owner)
    (hc : x.cells[id.slot]? = some c) (hgen : c.generation = id.generation)
    (hf : (f c).generation = c.generation ∨ (f c).node = none) (hk : k ≠ id) :
    ({ x with cells := x.cells.modify id.slot f } : Linked α).node? k = x.node? k := by
  unfold node?
  simp only [Array.getElem?_modify]
  by_cases hslot : id.slot = k.slot
  · have hdiffer : k.owner = x.owner → c.generation ≠ k.generation := by
      intro hko hkg
      exact hk (by cases k; cases id; simp_all)
    rw [if_pos hslot, ← hslot, hc]
    simp only [Option.map_some]
    by_cases hko : k.owner = x.owner
    · rw [if_pos hko, if_pos hko, if_neg (hdiffer hko)]
      rcases hf with hf | hf
      · rw [hf, if_neg (hdiffer hko)]
      · rw [hf, ite_self]
    · rw [if_neg hko, if_neg hko]
  · rw [if_neg hslot]

theorem node?_put_self (h : x.node? id = some n) (m : LinkedNode α) :
    (x.put id m).node? id = some m := by
  obtain ⟨howner, hc⟩ := node?_eq_some_iff.mp h
  refine node?_eq_some_iff.mpr ⟨howner, ?_⟩
  simp only [put, Array.getElem?_modify, if_true, hc, Option.map_some]

theorem node?_put_of_ne (h : x.node? id = some n) (m : LinkedNode α) (hk : k ≠ id) :
    (x.put id m).node? k = x.node? k := by
  obtain ⟨howner, hc⟩ := node?_eq_some_iff.mp h
  exact node?_modify_of_ne howner hc rfl (.inl rfl) hk

@[simp] theorem root_put (x : Linked α) (id : Handle) (n : LinkedNode α) :
    (x.put id n).root = x.root := rfl

theorem outcome_resolve (h : x.node? id = some n) :
    (resolve id : LinkedOperation ε α _).outcome x = (.ok n, x) := by
  simp only [resolve, Operation.outcome_get_bind, h, Operation.outcome_pure]

theorem outcome_alter (h : x.node? id = some n) (f : LinkedNode α → LinkedNode α) :
    (alter id f : LinkedOperation ε α _).outcome x = (.ok (), x.put id (f n)) := by
  rw [alter, Operation.outcome_bind_ok (outcome_resolve h), Operation.outcome_modify]

theorem outcome_setChild (h : x.node? id = some n) (side : Side) (link : Option Handle) :
    (setChild id side link : LinkedOperation ε α _).outcome x =
      (.ok (), x.put id (n.withChild side link)) :=
  outcome_alter h _

theorem outcome_childOf {side : Side} {c : Handle} (h : x.node? id = some n)
    (hc : n.child side = some c) :
    (childOf id side : LinkedOperation ε α _).outcome x = (.ok c, x) := by
  rw [childOf, Operation.outcome_bind_ok (outcome_resolve h)]
  simp only [hc, Operation.outcome_pure]

/-! ## Drawings -/

/-- The links draw a tree, with `parent` above it. -/
def Draws (x : Linked α) : Option Handle → Tree α → Prop
  | _, .nil => True
  | parent, .node left id v height right =>
    x.node? id = some ⟨parent, left.root?, right.root?, height, v⟩ ∧
      x.Draws (some id) left ∧ x.Draws (some id) right

/-- The links lead along a path to `hole`, and back up to `base`. -/
def Climbs (x : Linked α) (base : Option Handle) : Option Handle → Path α → Prop
  | _, [] => True
  | hole, f :: path =>
    x.node? f.handle =
        some (f.side.linked (Path.parent base path) hole f.sibling.root? f.height f.value) ∧
      x.Draws (some f.handle) f.sibling ∧ x.Climbs base (some f.handle) path

/-- The links lead from the root along a path to `hole`, and back. -/
structure Leads (x : Linked α) (path : Path α) (hole : Option Handle) : Prop where
  root_eq : x.root = path.top hole
  climbs : x.Climbs none hole path

/-- The index is a drawing of a tree. -/
structure Shows (x : Linked α) (t : Tree α) : Prop where
  root_eq : x.root = t.root?
  draws : x.Draws none t

variable {base : Option Handle} {t : Tree α} {path : Path α}

theorem draws_node_iff (side : Side) {near far : Tree α} {v : α} {height : Nat} :
    x.Draws base (side.node near id v height far) ↔
      x.node? id = some (side.linked base near.root? far.root? height v) ∧
        x.Draws (some id) near ∧ x.Draws (some id) far := by
  cases side with
  | left => exact Iff.rfl
  | right => exact and_congr_right fun _ => and_comm

/-- Links elsewhere do not matter. -/
theorem Draws.congr (h : x.Draws base t) (hsame : ∀ k ∈ t.handles, x'.node? k = x.node? k) :
    x'.Draws base t := by
  induction t generalizing base with
  | nil => trivial
  | node left id v height right ihl ihr =>
      obtain ⟨hid, hl, hr⟩ := h
      rw [Tree.handles_node] at hsame
      exact ⟨(hsame id (by simp)).trans hid, ihl hl fun k hk => hsame k (by simp [hk]),
        ihr hr fun k hk => hsame k (by simp [hk])⟩

theorem Climbs.congr {hole : Option Handle} (h : x.Climbs base hole path)
    (hsame : ∀ k ∈ path.handles, x'.node? k = x.node? k) : x'.Climbs base hole path := by
  induction path generalizing hole with
  | nil => trivial
  | cons f path ih =>
      obtain ⟨hid, hsibling, hpath⟩ := h
      rw [Path.handles_cons] at hsame
      exact ⟨(hsame f.handle (by simp)).trans hid,
        hsibling.congr fun k hk => hsame k (by simp [hk]),
        ih hpath fun k hk => hsame k (by simp [hk])⟩

theorem Leads.congr {hole : Option Handle} (h : x.Leads path hole) (hroot : x'.root = x.root)
    (hsame : ∀ k ∈ path.handles, x'.node? k = x.node? k) : x'.Leads path hole :=
  ⟨hroot.trans h.root_eq, h.climbs.congr hsame⟩

theorem Draws.put (h : x.Draws base t) (hid : x.node? id = some n) (hnot : id ∉ t.handles)
    (m : LinkedNode α) : (x.put id m).Draws base t :=
  h.congr fun _ hk => node?_put_of_ne hid m fun e => hnot (e ▸ hk)

theorem Leads.put {hole : Option Handle} (h : x.Leads path hole) (hid : x.node? id = some n)
    (hnot : id ∉ path.handles) (m : LinkedNode α) : (x.put id m).Leads path hole :=
  h.congr rfl fun _ hk => node?_put_of_ne hid m fun e => hnot (e ▸ hk)

/-- A root may be written anew with the same links to its sides. -/
theorem Draws.put_root {left right : Tree α} {v : α} {height : Nat}
    (h : x.Draws base (.node left id v height right))
    (hn : (Tree.node left id v height right).handles.Nodup) (parent : Option Handle)
    (height' : Nat) (new : α) :
    (x.put id ⟨parent, left.root?, right.root?, height', new⟩).Draws parent
      (.node left id new height' right) := by
  obtain ⟨hid, hl, hr⟩ := h
  rw [Tree.handles_node, List.nodup_append, List.nodup_cons] at hn
  refine ⟨node?_put_self hid _, hl.put hid (fun hk => ?_) _, hr.put hid hn.2.1.1 _⟩
  exact hn.2.2 id hk id (by simp) rfl

/-- A drawing of a whole tree is one of the place and one of the path to it. -/
theorem draws_plug_iff :
    x.Draws base (path.plug t) ↔
      x.Draws (path.parent base) t ∧ x.Climbs base t.root? path := by
  induction path generalizing t with
  | nil => simp [Path.parent, Climbs]
  | cons f path ih =>
      rw [Path.plug_cons, ih, Frame.fill, draws_node_iff, Side.root?_node]
      constructor
      · rintro ⟨⟨hid, ht, hsibling⟩, hpath⟩
        exact ⟨ht, hid, hsibling, hpath⟩
      · rintro ⟨ht, hid, hsibling, hpath⟩
        exact ⟨⟨hid, ht, hsibling⟩, hpath⟩

theorem shows_plug_iff :
    x.Shows (path.plug t) ↔ x.Draws (path.parent none) t ∧ x.Leads path t.root? := by
  constructor
  · rintro ⟨hroot, hdraws⟩
    obtain ⟨ht, hpath⟩ := draws_plug_iff.mp hdraws
    exact ⟨ht, hroot.trans (path.root?_plug t), hpath⟩
  · rintro ⟨ht, hroot, hpath⟩
    exact ⟨hroot.trans (path.root?_plug t).symm, draws_plug_iff.mpr ⟨ht, hpath⟩⟩

/-- A pair of the sequence is in a node. -/
theorem Draws.exists_value (h : x.Draws base t) (hmem : (id, v) ∈ t.toList) :
    ∃ n, x.node? id = some n ∧ n.value = v := by
  induction t generalizing base with
  | nil => cases hmem
  | node left k w height right ihl ihr =>
      obtain ⟨hk, hl, hr⟩ := h
      rcases List.mem_append.mp hmem with hmem | hmem
      · exact ihl hl hmem
      · rcases List.mem_cons.mp hmem with heq | hmem
        · obtain ⟨rfl, rfl⟩ := Prod.mk.inj heq
          exact ⟨_, hk, rfl⟩
        · exact ihr hr hmem

theorem Draws.exists_root (h : x.Draws base t) (hroot : t.root? = some id) :
    ∃ n, x.node? id = some n ∧ n.parent = base ∧ n.height = t.height := by
  cases t with
  | nil => cases hroot
  | node left k v height right =>
      obtain rfl := Option.some.inj hroot
      exact ⟨_, h.1, rfl, rfl⟩

/-! ## Single links -/

/-- The heights that links lead to are those of the subtrees. -/
theorem outcome_heightOf (h : x.Draws base t) :
    (heightOf t.root? : LinkedOperation ε α _).outcome x = (.ok t.height, x) := by
  cases t with
  | nil => rfl
  | node left id v height right =>
      show (resolve id >>= _).outcome x = _
      rw [Operation.outcome_bind_ok (outcome_resolve h.1)]
      rfl

theorem outcome_balance (h : x.Draws base t) (hroot : t.root? = some id) :
    (balance id : LinkedOperation ε α _).outcome x = (.ok t.balance, x) := by
  cases t with
  | nil => cases hroot
  | node left k v height right =>
      obtain rfl := Option.some.inj hroot
      obtain ⟨hid, hl, hr⟩ := h
      rw [balance, Operation.outcome_bind_ok (outcome_resolve hid),
        Operation.outcome_bind_ok (outcome_heightOf hr),
        Operation.outcome_bind_ok (outcome_heightOf hl)]
      rfl

/-- The tree under a link comes to hang from another node. -/
theorem outcome_adopt (h : x.Draws base t) (hn : t.handles.Nodup) (parent : Option Handle) :
    ∃ x', (adopt t.root? parent : LinkedOperation ε α _).outcome x = (.ok (), x') ∧
      x'.root = x.root ∧ x'.Draws parent t ∧
      ∀ k, k ∉ t.handles → x'.node? k = x.node? k := by
  cases t with
  | nil => exact ⟨x, rfl, rfl, trivial, fun _ _ => rfl⟩
  | node left id v height right =>
      refine ⟨_, outcome_alter h.1 _, rfl, h.put_root hn parent height v, fun k hk => ?_⟩
      exact node?_put_of_ne h.1 _ fun e => hk (by simp [e])

/-- The link at the end of a path comes to lead elsewhere; the node above is the only one
that is written to. -/
theorem Climbs.outcome_redirect {f : Frame α} {path : Path α} {hole : Option Handle}
    (h : x.Climbs base hole (f :: path)) (hn : (Path.handles (f :: path)).Nodup)
    (new : Option Handle) :
    ∃ x', (setChild f.handle f.side new : LinkedOperation ε α _).outcome x = (.ok (), x') ∧
      x'.root = x.root ∧ x'.Climbs base new (f :: path) ∧
      ∀ k, k ∉ Path.handles (f :: path) → x'.node? k = x.node? k := by
  obtain ⟨hid, hsibling, hpath⟩ := h
  rw [Path.handles_cons, List.cons_append, List.nodup_cons, List.mem_append, not_or] at hn
  let n := f.side.linked (path.parent base) new f.sibling.root? f.height f.value
  have hother : ∀ k, k ≠ f.handle → (x.put f.handle n).node? k = x.node? k := fun k hk =>
    node?_put_of_ne hid n hk
  refine ⟨x.put f.handle n, ?_, rfl, ⟨node?_put_self hid n, ?_, ?_⟩, ?_⟩
  · rw [outcome_setChild hid, Side.withChild_linked]
  · exact hsibling.congr fun k hk => hother k fun e => hn.1.1 (e ▸ hk)
  · exact hpath.congr fun k hk => hother k fun e => hn.1.2 (e ▸ hk)
  · exact fun k hk => hother k fun e => hk (by simp [e])

/-- The links lead to another place at the end of a path, and nothing has been written to
off the path. -/
structure Redirected (x : Linked α) (path : Path α) (new : Option Handle) (x' : Linked α) :
    Prop where
  leads : x'.Leads path new
  other : ∀ k, k ∉ path.handles → x'.node? k = x.node? k

theorem redirected_nil (x : Linked α) (new : Option Handle) :
    x.Redirected [] new { x with root := new } :=
  ⟨⟨rfl, trivial⟩, fun _ _ => rfl⟩

theorem Leads.outcome_redirect {f : Frame α} {path : Path α} {hole : Option Handle}
    (h : x.Leads (f :: path) hole) (hn : (Path.handles (f :: path)).Nodup)
    (new : Option Handle) :
    ∃ x', (setChild f.handle f.side new : LinkedOperation ε α _).outcome x = (.ok (), x') ∧
      x.Redirected (f :: path) new x' := by
  obtain ⟨x', hset, hroot, hclimbs, hother⟩ := h.climbs.outcome_redirect (ε := ε) hn new
  exact ⟨x', hset, ⟨hroot.trans h.root_eq, hclimbs⟩, hother⟩

theorem outcome_attach {hole : Option Handle} (h : x.Leads path hole) (hn : path.handles.Nodup)
    (leaf : Handle) :
    ∃ x', (attach path.seat leaf : LinkedOperation ε α _).outcome x = (.ok (), x') ∧
      x.Redirected path (some leaf) x' := by
  cases path with
  | nil => exact ⟨_, rfl, x.redirected_nil (some leaf)⟩
  | cons f path => exact h.outcome_redirect hn (some leaf)

/-- A node finds the link to `old` on the side of it that the path is on. -/
theorem outcome_replaceChild {old : Handle} (h : x.Leads path (some old))
    (hold : old ∉ path.handles) (hn : path.handles.Nodup) (new : Option Handle) :
    ∃ x', (replaceChild (path.parent none) old new : LinkedOperation ε α _).outcome x =
        (.ok (), x') ∧ x.Redirected path new x' := by
  cases path with
  | nil => exact ⟨_, rfl, x.redirected_nil new⟩
  | cons f path =>
      obtain ⟨x', hset, hredirected⟩ := h.outcome_redirect (ε := ε) hn new
      refine ⟨x', ?_, hredirected⟩
      have hsibling : f.sibling.root? ≠ some old := fun e =>
        hold (by simp [Tree.mem_handles_of_root? e])
      show (resolve f.handle >>= _).outcome x = _
      rw [Operation.outcome_bind_ok (outcome_resolve h.climbs.1), ← hset]
      rcases f with ⟨side, y, w, height, sibling⟩
      cases side with
      | left =>
          show (if some old = some old then setChild y .left new else _).outcome x = _
          rw [if_pos rfl]
      | right =>
          show (if sibling.root? = some old then _
            else if some old = some old then setChild y .right new else _).outcome x = _
          rw [if_neg hsibling, if_pos rfl]

/-- Refreshing the height of a node draws the tree that `join` makes. -/
theorem outcome_updateHeight {left right : Tree α} {v : α} {height : Nat}
    (hn : (path.plug (.node left id v height right)).handles.Nodup)
    (h : x.Shows (path.plug (.node left id v height right))) :
    ∃ x', (updateHeight id : LinkedOperation ε α _).outcome x = (.ok (), x') ∧
      x'.Shows (path.plug (.join left id v right)) := by
  obtain ⟨hdraws, hpath⟩ := shows_plug_iff.mp h
  obtain ⟨hnode, -, hdisjoint⟩ := Path.nodup_plug_iff.mp hn
  refine ⟨_, ?_, shows_plug_iff.mpr ⟨hdraws.put_root hnode (path.parent none)
    (1 + max left.height right.height) v, hpath.put hdraws.1 (hdisjoint id (by simp)) _⟩⟩
  obtain ⟨hid, hl, hr⟩ := hdraws
  rw [updateHeight, Operation.outcome_bind_ok (outcome_resolve hid),
    Operation.outcome_bind_ok (outcome_heightOf hl),
    Operation.outcome_bind_ok (outcome_heightOf hr), outcome_alter hid]

theorem outcome_updateHeight_node (side : Side) (path : Path α) {near far : Tree α} {v : α}
    {height : Nat}
    (hn : (path.plug (side.node near id v height far)).handles.Nodup)
    (h : x.Shows (path.plug (side.node near id v height far))) :
    ∃ x', (updateHeight id : LinkedOperation ε α _).outcome x = (.ok (), x') ∧
      x'.Shows (path.plug (side.join near id v far)) := by
  rw [Side.join_eq]
  cases side with
  | left => exact outcome_updateHeight hn h
  | right => exact outcome_updateHeight hn h

end Linked

end KernelMemory
