import KernelMemory.Proofs.Discipline
import KernelMemory.Proofs.Index.Slots
import KernelMemory.Proofs.Linked.Drawing

/-!
# Cells and slots

The cells of a linked index without their nodes are the slots of an index. Occupying a cell,
emptying one and emptying all of them is taking a slot, releasing one and clearing them.
Everything else a linked index does is relinking: it writes to cells that hold a node, and
what it writes there has the same value, so neither the slots nor the values change.
-/

namespace KernelMemory

namespace Linked

variable {α ε : Type} {x x' x'' : Linked α} {id k : Handle} {n m : LinkedNode α}
variable {handles : List Handle}

/-- The cells without what they hold. -/
def slots (x : Linked α) : Slots :=
  ⟨x.cells.map Cell.slot, x.vacant⟩

theorem getElem?_slots (x : Linked α) (slot : Nat) :
    x.slots.cells[slot]? = x.cells[slot]?.map Cell.slot :=
  Array.getElem?_map ..

theorem getD_slots (x : Linked α) (slot : Nat) :
    x.slots.cells.getD slot default = (x.cells.getD slot default).slot := by
  rw [Array.getD_eq_getD_getElem?, Array.getD_eq_getD_getElem?, getElem?_slots]
  cases x.cells[slot]? <;> rfl

@[simp] theorem size_cells_slots (x : Linked α) : x.slots.cells.size = x.cells.size :=
  Array.size_map ..

/-- Handles in use are those that lead to a node. -/
theorem exists_node_iff (h : x.slots.Serves x.owner handles) :
    (∃ n, x.node? id = some n) ↔ id ∈ handles := by
  rw [h.mem_iff, getElem?_slots]
  simp only [node?_eq_some_iff]
  rcases x.cells[id.slot]? with _ | ⟨generation, _ | node⟩ <;> simp [Cell.slot]

theorem occupied_eq (h : x.slots.Serves x.owner handles) : x.occupied = handles.length := by
  rw [← h.countP_occupied, slots, Array.countP_map]
  rfl

/-! ## Relinking -/

/-- One index is the other with other links and heights. -/
structure Relinked (x x' : Linked α) : Prop where
  owner_eq : x'.owner = x.owner
  contents_eq : x'.cells.map (fun c => (c.generation, c.node.map LinkedNode.value)) =
    x.cells.map fun c => (c.generation, c.node.map LinkedNode.value)
  vacant_eq : x'.vacant = x.vacant
  size_eq : x'.size = x.size

namespace Relinked

theorem refl (x : Linked α) : x.Relinked x := ⟨rfl, rfl, rfl, rfl⟩

theorem trans (h : x.Relinked x') (h' : x'.Relinked x'') : x.Relinked x'' :=
  ⟨h'.owner_eq.trans h.owner_eq, h'.contents_eq.trans h.contents_eq,
    h'.vacant_eq.trans h.vacant_eq, h'.size_eq.trans h.size_eq⟩

theorem put (h : x.node? id = some n) (hm : m.value = n.value) : x.Relinked (x.put id m) := by
  refine ⟨rfl, Array.ext_getElem? fun i => ?_, rfl, rfl⟩
  obtain ⟨-, hc⟩ := node?_eq_some_iff.mp h
  simp only [Linked.put, Array.getElem?_map, Array.getElem?_modify]
  by_cases hi : id.slot = i
  · subst hi
    simp [hc, hm]
  · rw [if_neg hi]

theorem slots_eq (h : x.Relinked x') : x'.slots = x.slots := by
  have hslot : (Cell.slot : Cell α → Slot) =
      (fun p => ⟨p.1, p.2.isSome⟩) ∘ fun c => (c.generation, c.node.map LinkedNode.value) := by
    funext c
    simp [Cell.slot]
  rw [slots, slots, h.vacant_eq, hslot, ← Array.map_map, ← Array.map_map, h.contents_eq]

theorem exists_value (h : x.Relinked x') (hid : x.node? id = some n) :
    ∃ m, x'.node? id = some m ∧ m.value = n.value := by
  obtain ⟨howner, hc⟩ := node?_eq_some_iff.mp hid
  have hcontent := congrArg (·[id.slot]?) h.contents_eq
  simp only [Array.getElem?_map, hc] at hcontent
  rcases hc' : x'.cells[id.slot]? with _ | ⟨generation, _ | m⟩
  · simp [hc'] at hcontent
  · simp [hc'] at hcontent
  · simp only [hc', Option.map_some, Option.some.injEq, Prod.mk.injEq] at hcontent
    obtain ⟨rfl, hvalue⟩ := hcontent
    exact ⟨m, node?_eq_some_iff.mpr ⟨howner.trans h.owner_eq.symm, hc'⟩, hvalue⟩

end Relinked

section Relinks

variable {β γ : Type} {op : LinkedOperation ε α β} {next : β → LinkedOperation ε α γ}

/-- The operation only relinks, however it ends. -/
def Relinks (op : LinkedOperation ε α β) : Prop :=
  ∀ x : Linked α, x.Relinked (op.outcome x).2

theorem Relinks.of_reads (h : op.Reads) : Relinks op := by
  intro x
  rw [h x]
  exact .refl x

theorem Relinks.bind (h : Relinks op) (hnext : ∀ b, Relinks (next b)) : Relinks (op >>= next) := by
  intro x
  have hop := h x
  rw [Operation.outcome_bind]
  rcases hout : op.outcome x with ⟨verdict, x'⟩
  rw [hout] at hop
  cases verdict with
  | ok b => exact hop.trans (hnext b x')
  | error e => exact hop
  | fault f => exact hop

theorem Relinks.of_ok (h : Relinks op) {b : β} (hout : op.outcome x = (.ok b, x')) :
    x.Relinked x' := by
  simpa [hout] using h x

end Relinks

section Reads

variable (id : Handle) (link : Option Handle) (side : Side)

theorem reads_resolve : (resolve id : LinkedOperation ε α _).Reads := by
  refine Operation.Reads.get.bind fun x => ?_
  cases x.node? id with
  | some n => exact .pure n
  | none => exact (Operation.Reads.note _ _).bind fun _ => .stop _

theorem reads_heightOf : (heightOf link : LinkedOperation ε α _).Reads := by
  cases link with
  | none => exact .pure 0
  | some id => exact (reads_resolve id).bind fun n => .pure n.height

theorem reads_balance : (balance id : LinkedOperation ε α _).Reads :=
  (reads_resolve id).bind fun _ => (reads_heightOf _).bind fun _ =>
    (reads_heightOf _).bind fun _ => .pure _

theorem reads_childOf : (childOf id side : LinkedOperation ε α _).Reads := by
  refine (reads_resolve id).bind fun n => ?_
  cases n.child side with
  | some c => exact .pure c
  | none => exact (Operation.Reads.note _ _).bind fun _ => .stop _

theorem reads_extreme (steps : Nat) :
    (extreme side steps id : LinkedOperation ε α _).Reads := by
  induction steps generalizing id with
  | zero => exact .stop _
  | succ steps ih =>
      refine (reads_resolve id).bind fun n => ?_
      cases n.child side with
      | some c => exact ih c
      | none => exact .pure id

end Reads

section Links

variable (id : Handle) (side : Side) (link parent : Option Handle)

theorem relinks_pure {β : Type} (b : β) : Relinks (pure b : LinkedOperation ε α β) :=
  .of_reads (.pure b)

theorem relinks_alter {f : LinkedNode α → LinkedNode α} (hf : ∀ n, (f n).value = n.value) :
    Relinks (alter id f : LinkedOperation ε α _) := by
  intro x
  cases h : x.node? id with
  | some n =>
      rw [outcome_alter h]
      exact .put h (hf n)
  | none =>
      simp only [alter, resolve, bind_assoc, Operation.outcome_get_bind, h, Operation.crash,
        Operation.outcome_note_bind, Operation.outcome_stop_bind]
      exact .refl x

theorem relinks_updateHeight : Relinks (updateHeight id : LinkedOperation ε α _) :=
  (Relinks.of_reads (reads_resolve id)).bind fun _ =>
    (Relinks.of_reads (reads_heightOf _)).bind fun _ =>
      (Relinks.of_reads (reads_heightOf _)).bind fun _ => relinks_alter id fun _ => by rfl

theorem relinks_setChild : Relinks (setChild id side link : LinkedOperation ε α _) :=
  relinks_alter id fun _ => by cases side <;> rfl

theorem relinks_adopt : Relinks (adopt link parent : LinkedOperation ε α _) := by
  cases link with
  | none => exact relinks_pure ()
  | some child => exact relinks_alter child fun _ => by rfl

theorem relinks_attach (place : Option (Handle × Side)) (leaf : Handle) :
    Relinks (attach place leaf : LinkedOperation ε α _) := by
  cases place with
  | none => exact fun x => ⟨rfl, rfl, rfl, rfl⟩
  | some place => exact relinks_setChild place.1 place.2 _

theorem relinks_replaceChild (old : Handle) :
    Relinks (replaceChild parent old link : LinkedOperation ε α _) := by
  cases parent with
  | none => exact fun x => ⟨rfl, rfl, rfl, rfl⟩
  | some p =>
      refine (Relinks.of_reads (reads_resolve p)).bind fun n => ?_
      split
      · exact relinks_setChild p .left link
      · split
        · exact relinks_setChild p .right link
        · exact .of_reads (.stop _)

theorem relinks_rotate : Relinks (rotate side id : LinkedOperation ε α _) :=
  (Relinks.of_reads (reads_childOf id _)).bind fun raised =>
    (Relinks.of_reads (reads_resolve raised)).bind fun _ =>
    (Relinks.of_reads (reads_resolve id)).bind fun _ =>
    (relinks_alter id fun _ => by cases side <;> rfl).bind fun _ =>
    (relinks_adopt _ _).bind fun _ =>
    (relinks_alter raised fun _ => by cases side <;> rfl).bind fun _ =>
    (relinks_alter id fun _ => by rfl).bind fun _ =>
    (relinks_alter raised fun _ => by rfl).bind fun _ =>
    (relinks_replaceChild _ _ id).bind fun _ =>
    (relinks_updateHeight id).bind fun _ =>
    (relinks_updateHeight raised).bind fun _ => relinks_pure raised

theorem relinks_lower : Relinks (lower side id : LinkedOperation ε α _) := by
  refine (Relinks.of_reads (reads_childOf id side)).bind fun heavy =>
    (Relinks.of_reads (reads_balance heavy)).bind fun balance =>
    (Relinks.of_reads (Operation.Reads.note _ _)).bind fun _ => ?_
  split
  · exact (relinks_rotate heavy side).bind fun _ => relinks_rotate id side.other
  · exact relinks_rotate id side.other

theorem relinks_settle : Relinks (settle id : LinkedOperation ε α _) := by
  refine (relinks_updateHeight id).bind fun _ =>
    (Relinks.of_reads (reads_balance id)).bind fun balance => ?_
  split
  · exact relinks_lower id .right
  · split
    · exact relinks_lower id .left
    · exact relinks_pure id

theorem relinks_rebalance (steps : Nat) :
    Relinks (rebalance steps link : LinkedOperation ε α _) := by
  induction steps generalizing link with
  | zero =>
      cases link with
      | none => exact relinks_pure ()
      | some id => exact .of_reads (.stop _)
  | succ steps ih =>
      cases link with
      | none => exact relinks_pure ()
      | some id =>
          refine (Relinks.of_reads (reads_resolve id)).bind fun _ =>
            (relinks_settle id).bind fun top =>
            (Relinks.of_reads (reads_resolve top)).bind fun n => ?_
          split
          · exact relinks_pure ()
          · exact ih n.parent

theorem relinks_detachSuccessor (successor right : Handle) :
    Relinks (detachSuccessor successor right : LinkedOperation ε α _) := by
  unfold detachSuccessor
  split
  · exact relinks_pure _
  · refine (Relinks.of_reads (reads_resolve successor)).bind fun s => ?_
    have hrest : Relinks (do
        adopt s.right s.parent
        setChild successor .right (some right)
        adopt (some right) (some successor)
        return s.parent : LinkedOperation ε α _) :=
      (relinks_adopt _ _).bind fun _ => (relinks_setChild successor .right _).bind fun _ =>
        (relinks_adopt _ _).bind fun _ => relinks_pure _
    dsimp only
    split
    · exact (relinks_setChild _ .left _).bind fun _ => hrest
    · exact hrest

theorem relinks_unlink (n : LinkedNode α) :
    Relinks (unlink id n : LinkedOperation ε α _) := by
  have hsingle : ∀ child : Option Handle, Relinks (do
      adopt child n.parent
      replaceChild n.parent id child
      return n.parent : LinkedOperation ε α _) := fun child =>
    (relinks_adopt _ _).bind fun _ => (relinks_replaceChild _ _ id).bind fun _ => relinks_pure _
  unfold unlink
  split
  · next left right _ _ =>
    exact (Relinks.of_reads Operation.Reads.get).bind fun x =>
      (Relinks.of_reads (reads_extreme right .left _)).bind fun successor =>
      (relinks_detachSuccessor successor right).bind fun _ =>
      (relinks_setChild successor .left _).bind fun _ =>
      (relinks_adopt _ _).bind fun _ =>
      (relinks_alter successor fun _ => by rfl).bind fun _ =>
      (relinks_replaceChild _ _ id).bind fun _ => relinks_pure _
  · exact hsingle _

end Links

/-! ## Occupying and emptying cells -/

theorem slots_put (h : x.node? id = some n) (m : LinkedNode α) :
    (x.put id m).slots = x.slots := by
  obtain ⟨-, hc⟩ := node?_eq_some_iff.mp h
  refine congrArg (Slots.mk · x.vacant) (Array.ext_getElem? fun i => ?_)
  simp only [put, Array.getElem?_map, Array.getElem?_modify]
  by_cases hi : id.slot = i
  · subst hi
    simp [hc, Cell.slot]
  · rw [if_neg hi]

/-- A new node has come into a cell, and `slots` are the slots then. -/
structure Occupied (x : Linked α) (id : Handle) (n : LinkedNode α) (slots : Slots)
    (x' : Linked α) : Prop where
  owner_eq : x'.owner = x.owner
  slots_eq : x'.slots = slots
  size_eq : x'.size = x.size
  root_eq : x'.root = x.root
  self : x'.node? id = some n
  other : ∀ k, k ≠ id → x'.node? k = x.node? k

/-- The vacant cell of a slot takes a node in its generation. -/
theorem reoccupy {slot generation : Nat} {vacant : List Nat}
    (hc : x.cells[slot]? = some ⟨generation, none⟩) (n : LinkedNode α) :
    x.Occupied ⟨x.owner, slot, generation⟩ n
      ⟨x.slots.cells.setIfInBounds slot ⟨generation, true⟩, vacant⟩
      { x.put ⟨x.owner, slot, generation⟩ n with vacant := vacant } where
  owner_eq := rfl
  slots_eq := by
    obtain ⟨hlt, -⟩ := Array.getElem?_eq_some_iff.mp hc
    refine congrArg (Slots.mk · vacant) (Array.ext_getElem? fun i => ?_)
    simp only [put, slots, Array.getElem?_map, Array.getElem?_modify,
      Array.getElem?_setIfInBounds, Array.size_map]
    by_cases hi : slot = i
    · subst hi
      rw [if_pos rfl, if_pos rfl, if_pos hlt, hc]
      rfl
    · rw [if_neg hi, if_neg hi]
  size_eq := rfl
  root_eq := rfl
  self := node?_eq_some_iff.mpr ⟨rfl, by simp only [put, Array.getElem?_modify, if_true, hc]; rfl⟩
  other k hk := by
    let id : Handle := ⟨x.owner, slot, generation⟩
    have hother : (x.put id n).node? k = x.node? k :=
      node?_modify_of_ne (show id.owner = x.owner from rfl) hc rfl (.inl rfl) hk
    exact hother

/-- A new cell behind the others takes a node in the first generation. -/
theorem openNew (n : LinkedNode α) :
    x.Occupied ⟨x.owner, x.cells.size, 0⟩ n ⟨x.slots.cells.push ⟨0, true⟩, x.vacant⟩
      { x with cells := x.cells.push ⟨0, some n⟩ } where
  owner_eq := rfl
  slots_eq := by simp [slots, Cell.slot]
  size_eq := rfl
  root_eq := rfl
  self := node?_eq_some_iff.mpr ⟨rfl, by simp⟩
  other k hk := by
    refine Option.ext fun m => ?_
    rw [node?_eq_some_iff, node?_eq_some_iff]
    simp only [Array.getElem?_push]
    by_cases hslot : k.slot = x.cells.size
    · have hgen : ¬ (k.owner = x.owner ∧ 0 = k.generation) := by
        rintro ⟨hko, hkg⟩
        exact hk (by cases k; simp_all)
      rw [if_pos hslot, hslot, Array.getElem?_eq_none (Nat.le_refl _)]
      simp only [Option.some.injEq, Cell.mk.injEq]
      grind
    · rw [if_neg hslot]

/-- Where a slot can be taken, a new node gets its handle. -/
theorem outcome_occupy {s : Slots} (ht : (Slots.take x.owner).outcome x.slots = (.ok id, s))
    (n : LinkedNode α) :
    ∃ x', (occupy n : LinkedOperation IndexError α _).outcome x = (.ok id, x') ∧
      x.Occupied id n s x' := by
  rw [occupy, Operation.outcome_get_bind]
  obtain ⟨slot, generation, vacant, hv, hslot, rfl, rfl⟩ | ⟨hv, hroom, rfl, rfl⟩ :=
    Slots.of_outcome_take ht
  · rw [getElem?_slots] at hslot
    obtain ⟨c, hc, hcell⟩ := Option.map_eq_some_iff.mp hslot
    obtain rfl : c = ⟨generation, none⟩ := by
      rcases c with ⟨g, node⟩
      simpa [Cell.slot] using hcell
    refine ⟨_, ?_, reoccupy hc n⟩
    replace hv : x.vacant = slot :: vacant := hv
    simp only [hv, Operation.outcome_set_bind, hc]
    rfl
  · replace hv : x.vacant = [] := hv
    rw [size_cells_slots] at hroom ⊢
    refine ⟨_, ?_, hv ▸ openNew n⟩
    simp only [hv]
    rw [if_pos hroom]
    rfl

/-- Where no slot can be taken, neither can a cell. -/
theorem outcome_occupy_of_stopped {fault : Fault} {s : Slots}
    (ht : (Slots.take x.owner).outcome x.slots = (.fault fault, s)) (n : LinkedNode α) :
    (occupy n : LinkedOperation IndexError α _).outcome x =
      (.fault fault, { x with vacant := s.vacant }) := by
  rw [Slots.take, Operation.outcome_get_bind] at ht
  rw [occupy, Operation.outcome_get_bind]
  cases hv : x.vacant with
  | nil =>
      simp only [show x.slots.vacant = [] from hv, size_cells_slots] at ht
      split at ht
      · cases ht
      · next hfull =>
        cases ht
        simp only [if_neg hfull, Operation.outcome_note_bind, Operation.outcome_stop]
        rfl
  | cons slot vacant =>
      simp only [show x.slots.vacant = slot :: vacant from hv, Operation.outcome_set_bind,
        getElem?_slots, size_cells_slots] at ht
      simp only [Operation.outcome_set_bind]
      rcases hc : x.cells[slot]? with _ | ⟨generation, _ | n⟩
      · simp only [hc, Option.map_none, Operation.outcome_stop] at ht
        cases ht
        rfl
      · simp only [hc, Option.map_some, Cell.slot, Option.isSome_none, Bool.false_eq_true, if_false,
          Operation.outcome_set_bind, Operation.outcome_pure] at ht
        cases ht
      · simp only [hc, Option.map_some, Cell.slot, Option.isSome_some, if_true] at ht
        cases ht
        rfl

theorem outcome_vacate (h : x.node? id = some n) :
    (vacate id : LinkedOperation ε α _).outcome x = (.ok n.value, x.release id.slot) := by
  rw [vacate, Operation.outcome_bind_ok (outcome_resolve h), Operation.outcome_modify_bind,
    Operation.outcome_pure]

theorem slots_release (x : Linked α) (slot : Nat) :
    (x.release slot).slots = x.slots.release slot := by
  refine congrArg (Slots.mk · (slot :: x.vacant)) (Array.ext_getElem? fun i => ?_)
  simp only [release, slots, Array.getElem?_map, Array.getElem?_modify]
  split
  · cases x.cells[i]? <;> rfl
  · rfl

/-- Emptying a cell hurts no node but the one in it. -/
theorem node?_release_of_ne (h : x.node? id = some n) (hk : k ≠ id) :
    (x.release id.slot).node? k = x.node? k := by
  obtain ⟨howner, hc⟩ := node?_eq_some_iff.mp h
  exact node?_modify_of_ne howner hc rfl (.inr rfl) hk

theorem slots_clear (x : Linked α) : x.clear.owner = x.owner ∧ x.clear.slots = x.slots.clear := by
  have hfold : ∀ (l : List Nat) (x : Linked α),
      (l.foldl (fun x slot =>
          if (x.cells.getD slot default).node.isSome then x.release slot else x) x).owner =
        x.owner ∧
      (l.foldl (fun x slot =>
          if (x.cells.getD slot default).node.isSome then x.release slot else x) x).slots =
        l.foldl (fun slots slot =>
          if (slots.cells.getD slot default).occupied then slots.release slot else slots)
          x.slots := by
    intro l
    induction l with
    | nil => exact fun x => ⟨rfl, rfl⟩
    | cons slot l ih =>
        intro x
        obtain ⟨howner, hslots⟩ := ih
          (if (x.cells.getD slot default).node.isSome then x.release slot else x)
        rw [List.foldl_cons, List.foldl_cons, howner, hslots, getD_slots]
        show _ ∧ _ = l.foldl _ (if (x.cells.getD slot default).node.isSome then _ else _)
        split
        · exact ⟨rfl, by rw [slots_release]⟩
        · exact ⟨rfl, rfl⟩
  obtain ⟨howner, hslots⟩ := hfold (List.range x.cells.size) x
  refine ⟨howner, ?_⟩
  rw [Slots.clear, size_cells_slots]
  exact hslots

end Linked

end KernelMemory
