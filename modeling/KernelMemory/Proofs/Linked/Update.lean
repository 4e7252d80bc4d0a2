import KernelMemory.Proofs.Index.Run
import KernelMemory.Proofs.Linked.Balancing
import KernelMemory.Proofs.Linked.Cells
import KernelMemory.Proofs.Linked.Walking

/-!
# Updates of linked indexes

A linked index mirrors an index if it has the same slots and the same size, and its links
draw the tree. Every update of both gives the same answer and leaves them so. For an insert
and a removal the links are changed at one place first, which takes no account of heights:
`graft` and `prune` are the two up to there. What is drawn then is the tree at that place with
stale heights above it, `Pending`, and the walk from there is the climb that makes the updated
tree.
-/

namespace KernelMemory

namespace Linked

variable {α κ ε : Type} {x x' : Linked α} {ix : Index α} {id : Handle} {n : LinkedNode α}
variable {t : Tree α} {path : Path α} {handles : List Handle} {base : Option Handle}

/-- Both hold the same values in the same places. -/
structure Mirrors (x : Linked α) (ix : Index α) : Prop where
  owner_eq : x.owner = ix.owner
  slots_eq : x.slots = ix.slots
  size_eq : x.size = ix.size
  shows : x.Shows ix.tree

theorem mirrors_empty (owner : Nat) : (empty owner : Linked α).Mirrors (.empty owner) :=
  ⟨rfl, by simp [slots, empty, Index.empty, Slots.empty], rfl, ⟨rfl, trivial⟩⟩

theorem Mirrors.serves (h : x.Mirrors ix) (hix : ix.Sound) :
    x.slots.Serves x.owner ix.tree.handles := by
  rw [h.slots_eq, h.owner_eq]
  exact hix.serves

/-- A walk down a tree takes no more steps than there are cells. -/
theorem size_le_cells (h : x.slots.Serves x.owner t.handles) : t.size ≤ x.cells.size := by
  have hlen := h.length_le
  rwa [Tree.length_handles, size_cells_slots] at hlen

theorem Mirrors.node?_eq_none (h : x.Mirrors ix) (hix : ix.Sound)
    (hid : id ∉ ix.tree.handles) : x.node? id = none :=
  Option.eq_none_iff_forall_ne_some.mpr fun n hn =>
    hid ((exists_node_iff (h.serves hix)).mp ⟨n, hn⟩)

theorem Shows.congr (h : x.Shows t) (hroot : x'.root = x.root)
    (hsame : ∀ k ∈ t.handles, x'.node? k = x.node? k) : x'.Shows t :=
  ⟨hroot.trans h.root_eq, h.draws.congr hsame⟩

theorem Shows.resize (h : x.Shows t) (size : Nat) : ({ x with size } : Linked α).Shows t :=
  h.congr rfl fun _ _ => rfl

/-- A cell that no node of the tree is in may be emptied. -/
theorem Shows.release (h : x.Shows t) (hid : x.node? id = some n) (hnot : id ∉ t.handles) :
    (x.release id.slot).Shows t :=
  h.congr rfl fun _ hk => node?_release_of_ne hid fun e => hnot (e ▸ hk)

/-! ## Walks to come -/

/-- The links of an index with stale heights above one place: what is left to do is the climb
from there. -/
structure Pending (x : Linked α) (ix : Index α) (path : Path α) (sub : Tree α) : Prop where
  owner_eq : x.owner = ix.owner
  slots_eq : x.slots = ix.slots
  size_eq : x.size = ix.size
  shows : x.Shows (path.plug sub)
  tree_eq : (path.climb ⟨sub, [], true⟩).tree = ix.tree

namespace Pending

theorem handles_eq (h : x.Pending ix path t) : (path.plug t).handles = ix.tree.handles := by
  rw [← h.tree_eq, Tree.handles, Tree.handles, Path.toList_plug, Path.toList_climb]

/-- A walk from any place reaches the root within as many steps as there are cells. -/
theorem length_le_cells (h : x.Pending ix path t) (hix : ix.Sound) :
    path.length ≤ x.cells.size := by
  have hcells := hix.serves.length_le
  have hpath := path.length_le t
  rw [← h.slots_eq, size_cells_slots] at hcells
  rw [h.handles_eq] at hpath
  omega

theorem run_rebalanceFrom (h : x.Pending ix path t) (hix : ix.Sound) :
    ∃ x', x.Rises (path.parent none) (path.settlings ⟨t, [], true⟩) x' ∧ x'.Mirrors ix ∧
      (rebalanceFrom (path.parent none) : LinkedOperation IndexError α _).run x =
        ⟨.ok (), x', (path.settlings ⟨t, [], true⟩).flatMap Settling.records⟩ := by
  obtain ⟨x', hrises, hshows⟩ :=
    exists_rises (c := ⟨t, [], true⟩) rfl (h.handles_eq ▸ hix.nodup) h.shows
  have hrun := rebalance_iff.mpr
    ⟨_, hrises, (path.length_settlings_le _).trans (h.length_le_cells hix), rfl⟩
  have hrelinked := (relinks_rebalance _ _).of_ok (Operation.outcome_of_run hrun)
  refine ⟨x', hrises, ⟨?_, ?_, ?_, h.tree_eq ▸ hshows⟩, hrun⟩
  · exact hrelinked.owner_eq.trans h.owner_eq
  · exact hrelinked.slots_eq.trans h.slots_eq
  · exact hrelinked.size_eq.trans h.size_eq

theorem outcome_rebalanceFrom (h : x.Pending ix path t) (hix : ix.Sound) :
    ∃ x', (rebalanceFrom (path.parent none) : LinkedOperation IndexError α _).outcome x =
      (.ok (), x') ∧ x'.Mirrors ix := by
  obtain ⟨x', -, hmirrors, hrun⟩ := h.run_rebalanceFrom hix
  exact ⟨x', Operation.outcome_of_run hrun, hmirrors⟩

end Pending

/-! ## Inserting -/

/-- The way down ends where the search ends: at a value that the probe equals, or at the gap
for a new leaf. -/
theorem outcome_descend (h : x.Draws base t) (probe : α → Ordering) {steps : Nat}
    (hsteps : t.depth ≤ steps) (outer : Path α) :
    (descend probe steps outer.seat t.root?).outcome x =
      match t.search probe .exact with
      | some found => (.error (.collision found.1), x)
      | none => (.ok ((t.gap probe ++ outer).seat), x) := by
  induction t generalizing base steps outer with
  | nil => cases steps <;> rfl
  | node left id v height right ihl ihr =>
      obtain ⟨hid, hl, hr⟩ := h
      obtain ⟨steps, rfl, hlsteps, hrsteps⟩ := Tree.exists_steps_of_depth hsteps
      show (resolve id >>= _).outcome x = _
      rw [Operation.outcome_bind_ok (outcome_resolve hid)]
      cases hp : probe v with
      | lt =>
          have hsearch : (Tree.node left id v height right).search probe .exact =
              left.search probe .exact := by simp [Tree.search, hp]
          have hgap : (Tree.node left id v height right).gap probe =
              left.gap probe ++ [⟨.left, id, v, height, right⟩] := by simp only [Tree.gap, hp]
          rw [hsearch, hgap, List.append_assoc]
          exact ihl hl hlsteps (⟨.left, id, v, height, right⟩ :: outer)
      | eq => simp only [Tree.search, hp, Operation.outcome_refuse]
      | gt =>
          have hsearch : (Tree.node left id v height right).search probe .exact =
              right.search probe .exact := by simp [Tree.search, hp]
          have hgap : (Tree.node left id v height right).gap probe =
              right.gap probe ++ [⟨.right, id, v, height, left⟩] := by simp only [Tree.gap, hp]
          rw [hsearch, hgap, List.append_assoc]
          exact ihr hr hrsteps (⟨.right, id, v, height, left⟩ :: outer)

/-- A leaf that has come into a cell is hung into the gap that it was made for. -/
theorem outcome_attach_leaf {value : α} {slots : Slots} (h : x.Shows (path.plug .nil))
    (hn : (path.plug .nil).handles.Nodup) (hid : id ∉ (path.plug .nil).handles)
    (hocc : x.Occupied id (.leaf (path.seat.map Prod.fst) value) slots x') :
    ∃ x'', (attach path.seat id : LinkedOperation ε α _).outcome x' = (.ok (), x'') ∧
      x''.Shows (path.plug (.join .nil id value .nil)) := by
  have hpath : id ∉ path.handles := fun hk => hid (Path.mem_handles_plug.mpr (.inr hk))
  obtain ⟨-, hpathn, -⟩ := Path.nodup_plug_iff.mp hn
  have hleads : x'.Leads path none := (shows_plug_iff.mp h).2.congr hocc.root_eq fun k hk =>
    hocc.other k fun e => hpath (e ▸ hk)
  obtain ⟨x'', hattach, hleads', hother⟩ := outcome_attach (ε := ε) hleads hpathn id
  refine ⟨x'', hattach, shows_plug_iff.mpr ⟨⟨?_, trivial, trivial⟩, hleads'⟩⟩
  rw [hother id hpath, hocc.self, Path.map_seat]
  rfl

/-- An insertion without the walk. Answers the handle and from where on the heights have to be
looked at. -/
def graft (keying : Keying α κ) (value : α) :
    LinkedOperation IndexError α (Handle × Option Handle) := do
  let x ← Operation.get
  let place ← descend (keying.locate (keying.key value)) x.cells.size none x.root
  let id ← occupy (.leaf (place.map Prod.fst) value)
  attach place id
  Operation.modify fun x => { x with size := x.size + 1 }
  return (id, place.map Prod.fst)

theorem insert_eq_graft (keying : Keying α κ) (value : α) :
    insert keying value = do
      let grafted ← graft keying value
      rebalanceFrom grafted.2
      return grafted.1 := by
  simp only [insert, graft, bind_assoc, pure_bind]

section Grafting

variable {keying : Keying α κ} {value : α} {slots : Slots}

theorem Mirrors.outcome_descend (h : x.Mirrors ix) (hix : ix.Sound) (probe : α → Ordering) :
    (descend probe x.cells.size none x.root).outcome x =
      match ix.tree.search probe .exact with
      | some found => (.error (.collision found.1), x)
      | none => (.ok (ix.tree.gap probe).seat, x) := by
  have hsteps := ix.tree.depth_le_size.trans (size_le_cells (h.serves hix))
  have hdescend := Linked.outcome_descend h.shows.draws probe hsteps []
  rwa [← h.shows.root_eq, List.append_nil] at hdescend

theorem Mirrors.outcome_graft_of_found (h : x.Mirrors ix) (hix : ix.Sound) {found : Handle × α}
    (hs : ix.tree.search (keying.locate (keying.key value)) .exact = some found) :
    (graft keying value).outcome x = (.error (.collision found.1), x) := by
  have hdescend := h.outcome_descend hix (keying.locate (keying.key value))
  rw [hs] at hdescend
  exact Operation.outcome_bind_error hdescend _

theorem Mirrors.outcome_graft_of_stopped {fault : Fault} (h : x.Mirrors ix) (hix : ix.Sound)
    (hs : ix.tree.search (keying.locate (keying.key value)) .exact = none)
    (ht : (Slots.take ix.owner).outcome ix.slots = (.fault fault, ix.slots)) :
    (graft keying value).outcome x = (.fault fault, x) := by
  have hdescend := h.outcome_descend hix (keying.locate (keying.key value))
  rw [hs] at hdescend
  rw [← h.slots_eq, ← h.owner_eq] at ht
  rw [graft, Operation.outcome_get_bind, Operation.outcome_bind_ok hdescend]
  exact Operation.outcome_bind_fault (outcome_occupy_of_stopped ht _) _

/-- With a slot to take, the new leaf hangs in the gap that was searched for. -/
theorem Mirrors.outcome_graft_of_taken (h : x.Mirrors ix) (hix : ix.Sound)
    (hs : ix.tree.search (keying.locate (keying.key value)) .exact = none)
    (ht : (Slots.take ix.owner).outcome ix.slots = (.ok id, slots)) :
    ∃ x', (graft keying value).outcome x =
        (.ok (id, (ix.tree.gap (keying.locate (keying.key value))).parent none), x') ∧
      x'.Pending ((Index.insert keying value).outcome ix).2
        (ix.tree.gap (keying.locate (keying.key value))) (.join .nil id value .nil) := by
  let probe := keying.locate (keying.key value)
  let path := ix.tree.gap probe
  have hdescend := h.outcome_descend hix probe
  rw [hs] at hdescend
  rw [Index.outcome_insert_of_taken hs ht]
  rw [← h.slots_eq, ← h.owner_eq] at ht
  obtain ⟨hfresh, -⟩ := (h.serves hix).take ht
  have hplug : path.plug .nil = ix.tree := ix.tree.plug_gap probe
  have hn : (path.plug .nil).handles.Nodup := hplug ▸ hix.nodup
  rw [← hplug] at hfresh
  obtain ⟨x₁, hoccupy, hocc⟩ := outcome_occupy ht
    (.leaf (path.seat.map Prod.fst) value)
  obtain ⟨x₂, hattach, hshows⟩ :=
    outcome_attach_leaf (ε := IndexError) (hplug ▸ h.shows) hn hfresh hocc
  have hrelinked := (relinks_attach path.seat id).of_ok hattach
  refine ⟨{ x₂ with size := x₂.size + 1 }, ?_, ?_, ?_, ?_, hshows.resize _, ?_⟩
  · rw [graft, Operation.outcome_get_bind, Operation.outcome_bind_ok hdescend,
      Operation.outcome_bind_ok hoccupy, Operation.outcome_bind_ok hattach,
      Operation.outcome_modify_bind, Path.map_seat, Operation.outcome_pure]
  · exact (hrelinked.owner_eq.trans hocc.owner_eq).trans h.owner_eq
  · exact hrelinked.slots_eq.trans hocc.slots_eq
  · show x₂.size + 1 = ix.size + 1
    rw [hrelinked.size_eq, hocc.size_eq, h.size_eq]
  · rw [Tree.insert_eq_climb]

end Grafting

theorem Mirrors.insert (h : x.Mirrors ix) (hix : ix.Sound) (keying : Keying α κ) (value : α) :
    ∃ x', (Linked.insert keying value).outcome x =
        (((Index.insert keying value).outcome ix).1, x') ∧
      x'.Mirrors ((Index.insert keying value).outcome ix).2 := by
  rw [insert_eq_graft]
  cases hs : ix.tree.search (keying.locate (keying.key value)) .exact with
  | some found =>
      rw [Index.outcome_insert_of_found hs]
      exact ⟨x, Operation.outcome_bind_error (h.outcome_graft_of_found hix hs) _, h⟩
  | none =>
      rcases hix.serves.take_cases with ⟨id, slots, ht⟩ | ⟨ht, -⟩
      · obtain ⟨x₁, hgraft, hpending⟩ := h.outcome_graft_of_taken hix hs ht
        obtain ⟨x₂, hrebalance, hmirrors⟩ :=
          hpending.outcome_rebalanceFrom (Index.sound_insert hix keying value)
        refine ⟨x₂, ?_, hmirrors⟩
        rw [Operation.outcome_bind_ok hgraft, Operation.outcome_bind_ok hrebalance,
          Operation.outcome_pure, Index.outcome_insert_of_taken hs ht]
      · rw [Index.outcome_insert_of_stopped hs ht]
        exact ⟨x, Operation.outcome_bind_fault (h.outcome_graft_of_stopped hix hs ht) _, h⟩

/-! ## Removing -/

/-- Taking the successor out of the right side leaves the rest of that side under it. -/
theorem outcome_detachSuccessor {inner : Path α} {s right : Handle} {v : α} {height : Nat}
    {sub : Tree α} (hside : ∀ f ∈ inner, f.side = .left)
    (hn : (inner.plug (.node .nil s v height sub)).handles.Nodup)
    (h : x.Draws base (inner.plug (.node .nil s v height sub)))
    (hroot : (inner.plug (.node .nil s v height sub)).root? = some right) :
    ∃ x' parent, (detachSuccessor s right : LinkedOperation ε α _).outcome x =
        (.ok (inner.parent (some s)), x') ∧
      x'.root = x.root ∧ x'.Draws (some s) (inner.plug sub) ∧
      x'.node? s = some ⟨parent, none, (inner.plug sub).root?, height, v⟩ ∧
      ∀ k, k ≠ s → k ∉ (inner.plug sub).handles → x'.node? k = x.node? k := by
  obtain ⟨⟨hs, -, hsub⟩, hclimbs⟩ := draws_plug_iff.mp h
  obtain ⟨hsrest, hrestn⟩ := List.nodup_cons.mp
    ((inner.handles_plug_first_perm s v height sub).nodup_iff.mp hn)
  obtain ⟨hsubn, hpath, hdisjoint⟩ := Path.nodup_plug_iff.mp hrestn
  have hout : s ∉ sub.handles ∧ s ∉ inner.handles :=
    not_or.mp fun hk => hsrest (Path.mem_handles_plug.mpr hk)
  rw [Path.root?_plug] at hroot
  cases inner with
  | nil =>
      obtain rfl := Option.some.inj hroot
      refine ⟨x, _, ?_, rfl, hsub, hs, fun _ _ _ => rfl⟩
      rw [detachSuccessor, if_pos rfl, Operation.outcome_pure]
      rfl
  | cons f inner =>
      have hne : s ≠ right := by
        rintro rfl
        exact hout.2 (Path.mem_handles_of_top hroot)
      -- `sub` moves up to where `s` was
      obtain ⟨x₁, hset, hroot₁, hclimbs₁, h₁⟩ := hclimbs.outcome_redirect (ε := ε) hpath sub.root?
      obtain ⟨x₂, hadopt, hroot₂, hsub₂, h₂⟩ := outcome_adopt (ε := ε)
        (hsub.congr fun k hk => h₁ k (hdisjoint k hk)) hsubn (some f.handle)
      have hrest : x₂.Draws base (Path.plug (f :: inner) sub) := draws_plug_iff.mpr
        ⟨hsub₂, hclimbs₁.congr fun k hk => h₂ k fun hk' => hdisjoint k hk' hk⟩
      have hs₂ := (h₂ s hout.1).trans ((h₁ s hout.2).trans hs)
      -- and all that is left of the side goes under `s`
      have hright : (Path.plug (f :: inner) sub).root? = some right :=
        (Path.root?_plug _ sub).trans hroot
      let n : LinkedNode α := ⟨some f.handle, none, some right, height, v⟩
      have hset₂ : (setChild s .right (some right) : LinkedOperation ε α _).outcome x₂ =
          (.ok (), x₂.put s n) := outcome_setChild hs₂ .right (some right)
      obtain ⟨x₃, hadopt₃, hroot₃, hrest₃, h₃⟩ :=
        outcome_adopt (ε := ε) (hrest.put hs₂ hsrest n) hrestn (some s)
      refine ⟨x₃, some f.handle, ?_, ?_, hrest₃, ?_, ?_⟩
      · rw [detachSuccessor, if_neg hne, Operation.outcome_bind_ok (outcome_resolve hs)]
        rw [hright] at hadopt₃
        rw [hside f (by simp)] at hset
        simp only [Path.parent]
        rw [Operation.outcome_bind_ok hset, Operation.outcome_bind_ok hadopt,
          Operation.outcome_bind_ok hset₂, Operation.outcome_bind_ok hadopt₃,
          Operation.outcome_pure]
      · rw [hroot₃, root_put, hroot₂, hroot₁]
      · rw [h₃ s hsrest, node?_put_self hs₂, hright]
      · intro k hks hk
        have hk' := not_or.mp fun hk' => hk (Path.mem_handles_plug.mpr hk')
        rw [h₃ k hk, node?_put_of_ne hs₂ n hks, h₂ k hk'.1, h₁ k hk'.2]

/-- Puts a node in the place of another one, whose left child it takes over; what is right of
it is its own. -/
def succeed (successor id : Handle) (n : LinkedNode α) (left : Handle) :
    LinkedOperation ε α Unit := do
  setChild successor .left (some left)
  adopt (some left) (some successor)
  alter successor fun s => { s with parent := n.parent, height := n.height }
  replaceChild n.parent id (some successor)

theorem unlink_eq_succeed {n : LinkedNode α} {left right : Handle} (hl : n.left = some left)
    (hr : n.right = some right) (id : Handle) :
    (unlink id n : LinkedOperation ε α _) = do
      let x ← Operation.get
      let successor ← extreme .left x.cells.size right
      let start ← detachSuccessor successor right
      succeed successor id n left
      return start := by
  simp only [unlink, hl, hr, succeed, bind_assoc]

theorem outcome_succeed {s l : Handle} {left rest : Tree α} {parent r : Option Handle}
    {v w : α} {height height' : Nat} (hid : id ∉ path.handles)
    (hn : (path.plug (.node left s w height rest)).handles.Nodup)
    (hs : x.node? s = some ⟨parent, none, rest.root?, height', w⟩)
    (hl : x.Draws (some id) left) (hleft : left.root? = some l) (hrest : x.Draws (some s) rest)
    (hleads : x.Leads path (some id)) :
    ∃ x', (succeed s id ⟨path.parent none, some l, r, height, v⟩ l :
        LinkedOperation ε α _).outcome x = (.ok (), x') ∧
      x'.Shows (path.plug (.node left s w height rest)) := by
  obtain ⟨hplace, hpath, hdisjoint⟩ := Path.nodup_plug_iff.mp hn
  simp only [Tree.handles_node, List.nodup_append, List.nodup_cons, List.mem_append,
    List.mem_cons] at hplace hdisjoint
  have hsleft : s ∉ left.handles := fun hk => hplace.2.2 s hk s (.inl rfl) rfl
  have hspath : s ∉ path.handles := hdisjoint s (.inr (.inl rfl))
  let n₁ : LinkedNode α := ⟨parent, some l, rest.root?, height', w⟩
  have hset : (setChild s .left (some l) : LinkedOperation ε α _).outcome x =
      (.ok (), x.put s n₁) := outcome_setChild hs .left (some l)
  obtain ⟨x₂, hadopt, hroot₂, hl₂, h₂⟩ :=
    outcome_adopt (ε := ε) (hl.put hs hsleft n₁) hplace.1 (some s)
  have hs₂ : x₂.node? s = some n₁ := (h₂ s hsleft).trans (node?_put_self hs n₁)
  have hrest₂ : x₂.Draws (some s) rest := (hrest.put hs hplace.2.1.1 n₁).congr fun k hk =>
    h₂ k fun hk' => hplace.2.2 k hk' k (.inr hk) rfl
  have hleads₂ : x₂.Leads path (some id) := (hleads.put hs hspath n₁).congr hroot₂ fun k hk =>
    h₂ k fun hk' => hdisjoint k (.inl hk') hk
  let n₂ : LinkedNode α := ⟨path.parent none, some l, rest.root?, height, w⟩
  have halter : (alter s fun s => { s with parent := path.parent none, height := height } :
      LinkedOperation ε α _).outcome x₂ = (.ok (), x₂.put s n₂) := outcome_alter hs₂ _
  obtain ⟨x₃, hreplace, hleads₃, h₃⟩ :=
    outcome_replaceChild (ε := ε) (hleads₂.put hs₂ hspath n₂) hid hpath (some s)
  refine ⟨x₃, ?_, shows_plug_iff.mpr ⟨⟨?_, ?_, ?_⟩, hleads₃⟩⟩
  · rw [hleft] at hadopt
    rw [succeed, Operation.outcome_bind_ok hset, Operation.outcome_bind_ok hadopt,
      Operation.outcome_bind_ok halter, hreplace]
  · rw [h₃ s hspath, node?_put_self hs₂, hleft]
  · exact (hl₂.put hs₂ hsleft n₂).congr fun k hk => h₃ k (hdisjoint k (.inl hk))
  · exact (hrest₂.put hs₂ hplace.2.1.1 n₂).congr fun k hk => h₃ k (hdisjoint k (.inr (.inr hk)))

/-- A node with two sides gives its place to its successor. -/
theorem outcome_unlink_of_two {left right : Tree α} {v : α} {height : Nat} {s : Handle}
    {w : α} {height' : Nat} {sub : Tree α} {inner : Path α}
    (hside : ∀ f ∈ inner, f.side = .left)
    (hright : right = inner.plug (.node .nil s w height' sub))
    (hn : (path.plug (.node left id v height right)).handles.Nodup)
    (hn' : (path.plug (.node left s w height (inner.plug sub))).handles.Nodup)
    (h : x.Shows (path.plug (.node left id v height right))) (hleft : left ≠ .nil)
    (hsteps : right.size ≤ x.cells.size) (hfirst : right.first? = some s) :
    ∃ x', (unlink id ⟨path.parent none, left.root?, right.root?, height, v⟩ :
        LinkedOperation ε α _).outcome x = (.ok (inner.parent (some s)), x') ∧
      x'.Shows (path.plug (.node left s w height (inner.plug sub))) := by
  obtain ⟨⟨-, hl, hr⟩, hleads⟩ := shows_plug_iff.mp h
  obtain ⟨hplace, -, hdisjoint⟩ := Path.nodup_plug_iff.mp hn
  rw [Tree.handles_node, List.nodup_append, List.nodup_cons] at hplace
  obtain ⟨hplace', -, hdisjoint'⟩ := Path.nodup_plug_iff.mp hn'
  simp only [Tree.handles_node, List.nodup_append, List.mem_append, List.mem_cons]
    at hplace' hdisjoint'
  obtain ⟨l₀, hl₀⟩ := Tree.exists_root? hleft
  obtain ⟨r₀, hr₀⟩ := Tree.exists_root? (t := right) (by rintro rfl; cases hfirst)
  obtain ⟨s', hs', hextreme⟩ := outcome_extreme (ε := ε) .left hr hr₀ hsteps
  obtain rfl : s = s' := Option.some.inj (hfirst.symm.trans hs')
  obtain ⟨x₁, parent, hdetach, hroot₁, hrest₁, hs₁, h₁⟩ := outcome_detachSuccessor (ε := ε)
    hside (hright ▸ hplace.2.1.2) (hright ▸ hr) (hright ▸ hr₀)
  have hl₁ : x₁.Draws (some id) left := hl.congr fun k hk =>
    h₁ k (hplace'.2.2 k hk s (.inl rfl)) fun hk' => hplace'.2.2 k hk k (.inr hk') rfl
  have hleads₁ : x₁.Leads path (some id) := hleads.congr hroot₁ fun k hk =>
    h₁ k (fun e => hdisjoint' k (.inr (.inl e)) hk) fun hk' => hdisjoint' k (.inr (.inr hk')) hk
  obtain ⟨x₂, hsucceed, hshows₂⟩ := outcome_succeed (ε := ε) (v := v) (r := right.root?)
    (hdisjoint id (by simp)) hn' hs₁ hl₁ hl₀ hrest₁ hleads₁
  refine ⟨x₂, ?_, hshows₂⟩
  rw [hl₀, unlink_eq_succeed rfl hr₀, Operation.outcome_get_bind,
    Operation.outcome_bind_ok hextreme, Operation.outcome_bind_ok hdetach,
    Operation.outcome_bind_ok hsucceed, Operation.outcome_pure]

/-- A node with one side at most gives its place to that side. -/
theorem outcome_unlink_of_one {left right child : Tree α} {v : α} {height : Nat}
    (hchild : left = .nil ∧ child = right ∨ right = .nil ∧ child = left)
    (hn : (path.plug (.node left id v height right)).handles.Nodup)
    (h : x.Shows (path.plug (.node left id v height right))) :
    ∃ x', (unlink id ⟨path.parent none, left.root?, right.root?, height, v⟩ :
        LinkedOperation ε α _).outcome x = (.ok (path.parent none), x') ∧
      x'.Shows (path.plug child) := by
  obtain ⟨⟨-, hl, hr⟩, hleads⟩ := shows_plug_iff.mp h
  obtain ⟨hplace, hpath, hdisjoint⟩ := Path.nodup_plug_iff.mp hn
  simp only [Tree.handles_node, List.nodup_append, List.nodup_cons, List.mem_append,
    List.mem_cons] at hplace hdisjoint
  have hdraws : x.Draws (some id) child := by
    rcases hchild with ⟨-, rfl⟩ | ⟨-, rfl⟩
    · exact hr
    · exact hl
  have hmem : child.handles.Nodup ∧ ∀ k ∈ child.handles, k ∉ path.handles := by
    rcases hchild with ⟨-, rfl⟩ | ⟨-, rfl⟩ <;> grind
  obtain ⟨x₁, hadopt, hroot₁, hchild₁, h₁⟩ :=
    outcome_adopt (ε := ε) hdraws hmem.1 (path.parent none)
  obtain ⟨x₂, hreplace, hleads₂, h₂⟩ := outcome_replaceChild (ε := ε)
    (hleads.congr hroot₁ fun k hk => h₁ k fun hk' => hmem.2 k hk' hk)
    (hdisjoint id (by grind)) hpath child.root?
  refine ⟨x₂, ?_, shows_plug_iff.mpr ⟨hchild₁.congr fun k hk => h₂ k (hmem.2 k hk), hleads₂⟩⟩
  have hlink : left.root?.or right.root? = child.root? := by
    rcases hchild with ⟨rfl, rfl⟩ | ⟨rfl, rfl⟩
    · rfl
    · exact Option.or_none
  unfold unlink
  dsimp only
  split
  · next heql heqr =>
    rcases hchild with ⟨rfl, -⟩ | ⟨rfl, -⟩
    · cases heql
    · cases heqr
  · rw [hlink, Operation.outcome_bind_ok hadopt, Operation.outcome_bind_ok hreplace,
      Operation.outcome_pure]

/-- The sequence loses the pair of the removed node. -/
theorem perm_handles_of_climb (id : Handle) (v : α) {left right sub : Tree α} {height : Nat}
    {place : Path α}
    (hclimb : Path.climb place ⟨sub, [], true⟩ = path.climb (left.unroot height right)) :
    (path.plug (.node left id v height right)).handles.Perm
      (id :: (Path.plug place sub).handles) := by
  have hseq : (Path.plug place sub).toList =
      path.before ++ (left.toList ++ right.toList) ++ path.after := by
    rw [Path.toList_plug, ← Tree.toList_unroot left height right, ← Path.toList_climb, ← hclimb,
      Path.toList_climb]
  rw [Tree.handles, Tree.handles, hseq, Path.toList_plug, Tree.toList_node]
  simp only [List.append_assoc, List.cons_append]
  rw [← List.append_assoc path.before, ← List.append_assoc path.before left.toList]
  exact List.perm_middle.map Prod.fst

/-- Unlinking a node is the change at one place from where `remove?` climbs. A node has gone
from the way up that was there, the successor or the node itself. -/
theorem outcome_unlink {left right : Tree α} {v : α} {height : Nat}
    (hn : (path.plug (.node left id v height right)).handles.Nodup)
    (h : x.Shows (path.plug (.node left id v height right)))
    (hsteps : right.size ≤ x.cells.size) :
    ∃ x' place sub, (unlink id ⟨path.parent none, left.root?, right.root?, height, v⟩ :
        LinkedOperation ε α _).outcome x = (.ok (Path.parent none place), x') ∧
      x'.Shows (Path.plug place sub) ∧
      Path.climb place ⟨sub, [], true⟩ = path.climb (left.unroot height right) ∧
      place.length < (path.plug (.node left id v height right)).depth := by
  have hlow := path.length_add_depth_le (.node left id v height right)
  rw [Tree.depth] at hlow
  by_cases hleft : left = .nil
  · subst hleft
    obtain ⟨x', hout, hshows⟩ := outcome_unlink_of_one (ε := ε) (.inl ⟨rfl, rfl⟩) hn h
    exact ⟨x', path, right, hout, hshows, rfl, by omega⟩
  · by_cases hright : right = .nil
    · subst hright
      obtain ⟨x', hout, hshows⟩ := outcome_unlink_of_one (ε := ε) (.inr ⟨rfl, rfl⟩) hn h
      refine ⟨x', path, left, hout, hshows, ?_, by omega⟩
      cases left with
      | nil => exact absurd rfl hleft
      | node a k u i b => rfl
    · obtain ⟨inner, s, w, height', sub, hside, hplug, hpop⟩ := Tree.exists_first hright
      have hfirst : right.first? = some s := by
        rw [Tree.first?_eq, Tree.toList_popFirst? hpop]
        rfl
      let place : Path α := inner ++ ⟨.right, s, w, height, left⟩ :: path
      have hclimb : place.climb ⟨sub, [], true⟩ = path.climb (left.unroot height right) := by
        rw [Tree.unroot_plug hleft height hpop, ← Path.climb_append, List.append_assoc]
        rfl
      have hplace : place.plug sub = path.plug (.node left s w height (inner.plug sub)) :=
        Path.plug_append ..
      have hn' := (List.nodup_cons.mp ((perm_handles_of_climb id v hclimb).nodup_iff.mp hn)).2
      obtain ⟨x', hout, hshows⟩ :=
        outcome_unlink_of_two (ε := ε) hside hplug hn (hplace ▸ hn') h hleft hsteps hfirst
      refine ⟨x', place, sub, ?_, hplace ▸ hshows, hclimb, ?_⟩
      · rw [hout, Path.parent_append]
        rfl
      · have hinner := inner.length_add_depth_le (.node .nil s w height' sub)
        rw [← hplug, Tree.depth] at hinner
        simp only [place, List.length_append, List.length_cons]
        omega

/-- A removal without the walk. Answers the value and from where on the heights have to be
looked at. -/
def prune (id : Handle) : LinkedOperation IndexError α (α × Option Handle) := do
  let x ← Operation.get
  match x.node? id with
  | none => Operation.refuse (.stale id)
  | some n =>
    let start ← unlink id n
    let value ← vacate id
    Operation.modify fun x => { x with size := x.size - 1 }
    return (value, start)

theorem remove_eq_prune (id : Handle) :
    (remove id : LinkedOperation IndexError α α) = do
      let pruned ← prune id
      rebalanceFrom pruned.2
      return pruned.1 := by
  rw [remove, prune, bind_assoc]
  refine congrArg (Operation.get >>= ·) (funext fun x => ?_)
  cases x.node? id with
  | none => rfl
  | some n => simp only [bind_assoc, pure_bind]

theorem Mirrors.outcome_prune_of_stale (h : x.Mirrors ix) (hix : ix.Sound)
    (hid : id ∉ ix.tree.handles) : (prune id).outcome x = (.error (.stale id), x) := by
  rw [prune, Operation.outcome_get_bind, h.node?_eq_none hix hid, Operation.outcome_refuse]

/-- With the node unlinked and its cell vacated, the walk starts lower than the deepest place
that there was. -/
theorem Mirrors.outcome_prune (h : x.Mirrors ix) (hix : ix.Sound) (hid : id ∈ ix.tree.handles) :
    ∃ x' v place sub, (prune id).outcome x = (.ok (v, Path.parent none place), x') ∧
      ((Index.remove id).outcome ix).1 = .ok v ∧
      x'.Pending ((Index.remove id).outcome ix).2 place sub ∧
      place.length < ix.tree.depth := by
  have hserves := h.serves hix
  obtain ⟨path, left, v, height, right, hplug⟩ := Path.exists_plug hid
  have hn := hplug ▸ hix.nodup
  have hshows := hplug ▸ h.shows
  have hnode := (shows_plug_iff.mp hshows).1.1
  have hsteps : right.size ≤ x.cells.size := by
    have htree := size_le_cells hserves
    have hlen := path.length_le (.node left id v height right)
    rw [← hplug, Tree.length_handles, Tree.length_handles, Tree.size] at hlen
    omega
  obtain ⟨x₁, place, sub, hunlink, hshows₁, hclimb, hshort⟩ :=
    outcome_unlink (ε := IndexError) hn hshows hsteps
  have hrelinked := (relinks_unlink _ _).of_ok hunlink
  obtain ⟨m, hm, hvalue⟩ := hrelinked.exists_value hnode
  have hperm := perm_handles_of_climb id v hclimb
  rw [← hplug] at hperm
  obtain ⟨hgone, -⟩ := List.nodup_cons.mp (hperm.nodup_iff.mp hix.nodup)
  let x₂ : Linked α := x₁.release id.slot
  have hremove : ix.tree.remove? id = some (v, Path.climb place ⟨sub, [], true⟩) := by
    rw [hclimb, hplug]
    exact Tree.remove?_plug hn (by rw [Tree.remove?, if_pos rfl])
  rw [Index.outcome_remove_of_found hremove]
  refine ⟨{ x₂ with size := x₂.size - 1 }, v, place, sub, ?_, rfl, ⟨?_, ?_, ?_, ?_, rfl⟩,
    hplug ▸ hshort⟩
  · rw [prune, Operation.outcome_get_bind]
    simp only [hnode]
    rw [Operation.outcome_bind_ok hunlink, Operation.outcome_bind_ok (outcome_vacate hm),
      Operation.outcome_modify_bind, Operation.outcome_pure, hvalue]
  · exact hrelinked.owner_eq.trans h.owner_eq
  · rw [← h.slots_eq, ← hrelinked.slots_eq]
    exact slots_release x₁ id.slot
  · show x₁.size - 1 = ix.size - 1
    rw [hrelinked.size_eq, h.size_eq]
  · exact (hshows₁.release hm hgone).resize _

theorem Mirrors.remove (h : x.Mirrors ix) (hix : ix.Sound) (id : Handle) :
    ∃ x', (Linked.remove id).outcome x = (((Index.remove id).outcome ix).1, x') ∧
      x'.Mirrors ((Index.remove id).outcome ix).2 := by
  rw [remove_eq_prune]
  by_cases hid : id ∈ ix.tree.handles
  · obtain ⟨x₁, v, place, sub, hprune, hverdict, hpending, -⟩ := h.outcome_prune hix hid
    obtain ⟨x₂, hrebalance, hmirrors⟩ :=
      hpending.outcome_rebalanceFrom (Index.sound_remove hix id)
    refine ⟨x₂, ?_, hmirrors⟩
    rw [Operation.outcome_bind_ok hprune, Operation.outcome_bind_ok hrebalance,
      Operation.outcome_pure, hverdict]
  · rw [Index.outcome_remove_of_stale hid]
    exact ⟨x, Operation.outcome_bind_error (h.outcome_prune_of_stale hix hid) _, h⟩

/-! ## Overwriting and clearing -/

theorem Mirrors.set (h : x.Mirrors ix) (hix : ix.Sound) (id : Handle) (value : α) :
    (x.set id value).Mirrors (ix.set id value) := by
  by_cases hid : id ∈ ix.tree.handles
  · obtain ⟨path, left, v, height, right, hplug⟩ := Path.exists_plug hid
    have hn := hplug ▸ hix.nodup
    obtain ⟨hdraws, hleads⟩ := shows_plug_iff.mp (hplug ▸ h.shows)
    obtain ⟨hplace, -, hdisjoint⟩ := Path.nodup_plug_iff.mp hn
    have hset : x.set id value =
        x.put id ⟨path.parent none, left.root?, right.root?, height, value⟩ := by
      rw [Linked.set, hdraws.1]
    rw [hset]
    refine ⟨h.owner_eq, (slots_put hdraws.1 _).trans h.slots_eq, h.size_eq, ?_⟩
    show Linked.Shows _ (ix.tree.set id value)
    rw [hplug, Tree.set_plug hn]
    exact shows_plug_iff.mpr ⟨hdraws.put_root hplace (path.parent none) height value,
      hleads.put hdraws.1 (hdisjoint id (by simp)) _⟩
  · rw [Index.set_of_stale hid, Linked.set, h.node?_eq_none hix hid]
    exact h

theorem Mirrors.clear (h : x.Mirrors ix) : x.clear.Mirrors ix.clear := by
  obtain ⟨howner, hslots⟩ := slots_clear x
  exact ⟨howner.trans h.owner_eq, hslots.trans (congrArg Slots.clear h.slots_eq), rfl,
    ⟨rfl, trivial⟩⟩

end Linked

end KernelMemory
