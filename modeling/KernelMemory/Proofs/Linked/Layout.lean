import KernelMemory.Proofs.Linked.Structure

/-!
# Laying out an index

Every sound index is the one that some links draw. They are written in two rounds. First a
cell is opened for every slot, with any node at all in those that are occupied; this settles
which handles lead to a node, and no write to a node that is there changes that. Then every
node of the tree is written to its cell with the links that its place in the tree asks for. No
two nodes have one handle, so no write undoes another.
-/

namespace KernelMemory

namespace Linked

variable {α κ ε : Type} {x x' : Linked α} {ix : Index α} {id k : Handle} {t : Tree α}
variable {base : Option Handle}

/-- Which handles lead to a node is up to the slots. -/
theorem exists_node_congr (howner : x'.owner = x.owner) (hslots : x'.slots = x.slots)
    (h : ∃ n, x.node? id = some n) : ∃ n, x'.node? id = some n := by
  obtain ⟨n, hn⟩ := h
  obtain ⟨hid, hc⟩ := node?_eq_some_iff.mp hn
  have hslot : x'.slots.cells[id.slot]? = some ⟨id.generation, true⟩ := by
    rw [hslots, getElem?_slots, hc]
    rfl
  rw [getElem?_slots] at hslot
  rcases hc' : x'.cells[id.slot]? with _ | ⟨generation, _ | node⟩
  · simp [hc'] at hslot
  · simp [hc', Cell.slot] at hslot
  · obtain rfl : generation = id.generation := by simpa [hc', Cell.slot] using hslot
    exact ⟨node, node?_eq_some_iff.mpr ⟨hid.trans howner.symm, hc'⟩⟩

/-! ## Writing a tree -/

/-- Writes every node of a tree to its cell. -/
def draw (x : Linked α) : Option Handle → Tree α → Linked α
  | _, .nil => x
  | parent, .node left id v height right =>
    ((x.put id ⟨parent, left.root?, right.root?, height, v⟩).draw (some id) left).draw
      (some id) right

/-- The cells that a tree is written to hold some node already. -/
def Opened (x : Linked α) (t : Tree α) : Prop :=
  ∀ k ∈ t.handles, ∃ n, x.node? k = some n

theorem Opened.congr (h : x.Opened t) (howner : x'.owner = x.owner)
    (hslots : x'.slots = x.slots) : x'.Opened t :=
  fun k hk => exists_node_congr howner hslots (h k hk)

theorem opened_node_iff {left right : Tree α} {v : α} {height : Nat} :
    x.Opened (.node left id v height right) ↔
      (∃ n, x.node? id = some n) ∧ x.Opened left ∧ x.Opened right := by
  simp only [Opened, Tree.handles_node, List.mem_append, List.mem_cons]
  constructor
  · intro h
    exact ⟨h id (.inr (.inl rfl)), fun k hk => h k (.inl hk), fun k hk => h k (.inr (.inr hk))⟩
  · rintro ⟨hid, hl, hr⟩ k (hk | rfl | hk)
    · exact hl k hk
    · exact hid
    · exact hr k hk

/-- Writing a tree to opened cells opens and closes none. -/
structure Redrawn (x : Linked α) (t : Tree α) (x' : Linked α) : Prop where
  owner_eq : x'.owner = x.owner
  slots_eq : x'.slots = x.slots
  root_eq : x'.root = x.root
  size_eq : x'.size = x.size
  node?_eq : ∀ k, k ∉ t.handles → x'.node? k = x.node? k

theorem redrawn_draw (h : x.Opened t) (base : Option Handle) :
    x.Redrawn t (x.draw base t) := by
  induction t generalizing x base with
  | nil => exact ⟨rfl, rfl, rfl, rfl, fun _ _ => rfl⟩
  | node left id v height right ihl ihr =>
      obtain ⟨⟨n, hn⟩, hl, hr⟩ := opened_node_iff.mp h
      have hslots := slots_put hn ⟨base, left.root?, right.root?, height, v⟩
      have hl₁ : (x.put id ⟨base, left.root?, right.root?, height, v⟩).Opened left :=
        hl.congr rfl hslots
      have h₁ := ihl hl₁ (some id)
      have h₂ := ihr (hr.congr (h₁.owner_eq.trans rfl) (h₁.slots_eq.trans hslots)) (some id)
      refine ⟨h₂.owner_eq.trans h₁.owner_eq, h₂.slots_eq.trans (h₁.slots_eq.trans hslots),
        h₂.root_eq.trans h₁.root_eq, h₂.size_eq.trans h₁.size_eq, fun k hk => ?_⟩
      simp only [Tree.handles_node, List.mem_append, List.mem_cons, not_or] at hk
      exact (h₂.node?_eq k hk.2.2).trans ((h₁.node?_eq k hk.1).trans
        (node?_put_of_ne hn _ hk.2.1))

theorem draws_draw (h : x.Opened t) (hn : t.handles.Nodup) (base : Option Handle) :
    (x.draw base t).Draws base t := by
  induction t generalizing x base with
  | nil => trivial
  | node left id v height right ihl ihr =>
      obtain ⟨⟨n, hid⟩, hl, hr⟩ := opened_node_iff.mp h
      rw [Tree.handles_node, List.nodup_append, List.nodup_cons] at hn
      obtain ⟨hnl, ⟨hnotr, hnr⟩, hdisjoint⟩ := hn
      have hnotl : id ∉ left.handles := fun hk => hdisjoint id hk id (by simp) rfl
      have hslots := slots_put hid ⟨base, left.root?, right.root?, height, v⟩
      have hl₁ : (x.put id ⟨base, left.root?, right.root?, height, v⟩).Opened left :=
        hl.congr rfl hslots
      have h₁ := redrawn_draw hl₁ (some id)
      have hr₁ : ((x.put id ⟨base, left.root?, right.root?, height, v⟩).draw (some id)
          left).Opened right :=
        hr.congr (h₁.owner_eq.trans rfl) (h₁.slots_eq.trans hslots)
      have h₂ := redrawn_draw hr₁ (some id)
      -- the node itself is written first and not again, and neither side is written over
      refine ⟨?_, (ihl hl₁ hnl (some id)).congr fun k hk => h₂.node?_eq k fun hkr => ?_,
        ihr hr₁ hnr (some id)⟩
      · rw [draw, h₂.node?_eq id hnotr, h₁.node?_eq id hnotl, node?_put_self hid]
      · exact hdisjoint k hk k (by simp [hkr]) rfl

/-! ## Opening cells -/

/-- A cell for every slot, with some node in those that are occupied. -/
def opened [Inhabited α] (ix : Index α) : Linked α where
  owner := ix.owner
  cells := ix.slots.cells.map fun slot =>
    ⟨slot.generation, if slot.occupied then some (.leaf none default) else none⟩
  vacant := ix.slots.vacant
  root := ix.tree.root?
  size := ix.size

theorem slots_opened [Inhabited α] (ix : Index α) : (opened ix).slots = ix.slots := by
  refine congrArg (Slots.mk · ix.slots.vacant) ?_
  rw [opened, Array.map_map]
  refine (Array.map_congr_left fun slot _ => ?_).trans (Array.map_id _)
  obtain ⟨generation, occupied⟩ := slot
  cases occupied <;> rfl

/-- Every sound index can be laid out with links. -/
theorem exists_mirrors [Inhabited α] (h : ix.Sound) : ∃ x : Linked α, x.Mirrors ix := by
  have hopened : (opened ix).Opened ix.tree := fun k hk =>
    (exists_node_iff (by rw [slots_opened]; exact h.serves)).mpr hk
  have hdrawn := redrawn_draw hopened none
  exact ⟨(opened ix).draw none ix.tree, hdrawn.owner_eq, hdrawn.slots_eq.trans (slots_opened ix),
    hdrawn.size_eq, hdrawn.root_eq, draws_draw hopened h.nodup none⟩

/-! ## Walks -/

/-- The way down by a probe ends where the search of the tree does. -/
theorem outcome_seek (h : x.Draws base t) (probe : α → Ordering) (mode : SearchMode) {steps : Nat}
    (hsteps : t.depth ≤ steps) (best : Option Handle) :
    (seek probe mode steps best t.root? : LinkedOperation ε α _).outcome x =
      (.ok (((t.search probe mode).map Prod.fst).or best), x) := by
  induction t generalizing base steps best with
  | nil => cases steps <;> rfl
  | node left id v height right ihl ihr =>
      obtain ⟨hid, hl, hr⟩ := h
      obtain ⟨steps, rfl, hlsteps, hrsteps⟩ := Tree.exists_steps_of_depth hsteps
      show (resolve id >>= _).outcome x = _
      rw [Operation.outcome_bind_ok (outcome_resolve hid), Tree.search]
      cases hp : probe v with
      | lt =>
          simp only
          rw [ihl hl hlsteps, Option.map_or, Option.or_assoc]
          split <;> rfl
      | eq => rfl
      | gt =>
          simp only
          rw [ihr hr hrsteps, Option.map_or, Option.or_assoc]
          split <;> rfl

theorem Mirrors.outcome_search? (h : x.Mirrors ix) (hix : ix.Sound) (probe : α → Ordering)
    (mode : SearchMode) :
    (search? probe mode : LinkedOperation ε α _).outcome x =
      (.ok ((ix.tree.search probe mode).map Prod.fst), x) := by
  have hsteps := ix.tree.depth_le_size.trans (size_le_cells (h.serves hix))
  rw [search?, Operation.outcome_get_bind, h.shows.root_eq,
    outcome_seek h.shows.draws _ _ hsteps, Option.or_none]

/-- Iterating gives the rest of the sequence: by induction on it. -/
theorem Shows.outcome_iterateFrom (h : x.Shows t) (hn : t.handles.Nodup)
    (hsteps : t.size ≤ x.cells.size) {pre rest : List (Handle × α)} {steps : Nat}
    (hl : t.toList = pre ++ rest) (hrest : rest.length ≤ steps) :
    (iterateFrom steps (rest.head?.map Prod.fst) : LinkedOperation ε α _).outcome x =
      (.ok rest, x) := by
  induction rest generalizing pre steps with
  | nil => cases steps <;> rfl
  | cons p rest ih =>
      obtain ⟨id, v⟩ := p
      obtain ⟨steps, rfl⟩ : ∃ k, steps = k + 1 := ⟨steps - 1, by simp at hrest; omega⟩
      obtain ⟨n, hid, rfl⟩ := h.draws.exists_value (show (id, v) ∈ t.toList by simp [hl])
      have hnext := ih (show t.toList = (pre ++ [(id, n.value)]) ++ rest by simp [hl])
        (show rest.length ≤ steps by simpa using hrest)
      show (next? .right id >>= _).outcome x = _
      rw [Operation.outcome_bind_ok (h.outcome_next? hn hsteps hl),
        Operation.outcome_bind_ok (outcome_resolve hid), Operation.outcome_bind_ok hnext,
        Operation.outcome_pure]

theorem Mirrors.outcome_iterate (h : x.Mirrors ix) (hix : ix.Sound) :
    (iterate : LinkedOperation ε α _).outcome x = (.ok ix.toList, x) := by
  have hsteps := size_le_cells (h.serves hix)
  have hrest : ix.tree.toList.length ≤ x.cells.size := by rwa [Tree.length_toList]
  have hfrom := h.shows.outcome_iterateFrom (ε := ε) hix.nodup hsteps (List.nil_append _).symm
    hrest
  rw [← Tree.first?_eq] at hfrom
  rw [iterate, Operation.outcome_get_bind,
    Operation.outcome_bind_ok (outcome_last? .left h.shows hsteps)]
  exact hfrom

/-- The next node is known for every handle, also for one that leads to no node. -/
theorem Mirrors.exists_outcome_next? (h : x.Mirrors ix) (hix : ix.Sound) (side : Side)
    (id : Handle) :
    ∃ answer, (next? side id : LinkedOperation ε α _).outcome x = (.ok answer, x) := by
  by_cases hid : id ∈ ix.tree.handles
  · obtain ⟨v, hmem⟩ := Tree.mem_handles.mp hid
    obtain ⟨pre, post, hl⟩ := List.append_of_mem hmem
    have hsteps := size_le_cells (h.serves hix)
    cases side with
    | right => exact ⟨_, h.shows.outcome_next? hix.nodup hsteps hl⟩
    | left => exact ⟨_, h.shows.outcome_previous? hix.nodup hsteps hl⟩
  · exact ⟨none, by rw [next?, Operation.outcome_get_bind, h.node?_eq_none hix hid]; rfl⟩

/-! ## Faults -/

/-- No walk along the links ends with a fault, and a change does only if there are as many
values as slot numbers. -/
structure Safe (keying : Keying α κ) (x : Linked α) : Prop where
  perform : ∀ c f, ((Linked.perform keying c).outcome x).1 = .fault f → Slots.capacity ≤ x.size
  search? : ∀ probe mode f,
    ((Linked.search? probe mode : LinkedOperation IndexError α _).outcome x).1 ≠ .fault f
  last? : ∀ side f,
    ((Linked.last? side : LinkedOperation IndexError α _).outcome x).1 ≠ .fault f
  next? : ∀ side id f,
    ((Linked.next? side id : LinkedOperation IndexError α _).outcome x).1 ≠ .fault f
  iterate : ∀ f, ((Linked.iterate : LinkedOperation IndexError α _).outcome x).1 ≠ .fault f

theorem Mirrors.safe (h : x.Mirrors ix) (hix : ix.Sound) (keying : Keying α κ) :
    x.Safe keying where
  perform c f hf := by
    by_contra hroom
    exact h.not_fault hix (Nat.lt_of_not_le hroom) keying c f hf
  search? probe mode f := by
    rw [h.outcome_search? hix]
    exact fun hf => nomatch hf
  last? side f := by
    rw [outcome_last? side h.shows (size_le_cells (h.serves hix))]
    exact fun hf => nomatch hf
  next? side id f := by
    obtain ⟨answer, hout⟩ := h.exists_outcome_next? (ε := IndexError) hix side id
    rw [hout]
    exact fun hf => nomatch hf
  iterate f := by
    rw [h.outcome_iterate hix]
    exact fun hf => nomatch hf

/-- The links after some calls. -/
def afterCalls (keying : Keying α κ) (x : Linked α) (calls : List (Index.Call α)) : Linked α :=
  calls.foldl (fun x c => ((Linked.perform keying c).run x).state) x

theorem Reachable.afterCalls {keying : Keying α κ} (h : Reachable keying x)
    (calls : List (Index.Call α)) : Reachable keying (x.afterCalls keying calls) := by
  induction calls generalizing x with
  | nil => exact h
  | cons c calls ih => exact ih (h.step c)

/-- Links that draw a sound index are safe after any calls. -/
theorem Mirrors.safe_afterCalls (h : x.Mirrors ix) (hix : ix.Sound) (keying : Keying α κ)
    (calls : List (Index.Call α)) : (x.afterCalls keying calls).Safe keying := by
  induction calls generalizing x ix with
  | nil => exact h.safe hix keying
  | cons c calls ih => exact ih (h.perform hix keying c).2 (hix.perform keying c)

end Linked

end KernelMemory
