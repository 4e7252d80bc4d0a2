import KernelMemory.Proofs.Linked.Audit

/-!
# The structure of linked indexes

What the links of an index look like does not depend on its keying. Whatever the comparison
answers, every run leaves a tree: each node is reached along one way of links, its children
link back to it, and its height and balance are right. An index and a linked index that are
taken through the same run stay in step, so that all of this is read off the drawn tree; the
statements below are about links only.

An audit can then find one kind of defect, and finds it where it is: neighbours that the
comparison does not put in order.
-/

namespace KernelMemory

/-! ## Ways down a tree -/

namespace Tree

variable {α : Type}

/-- The subtree on a side. -/
def child : Side → Tree α → Tree α
  | _, nil => nil
  | .left, node left _ _ _ _ => left
  | .right, node _ _ _ _ right => right

/-- The subtree at the end of a way down. -/
def under : Tree α → List Side → Tree α
  | t, [] => t
  | t, side :: way => (t.child side).under way

theorem Balanced.child {t : Tree α} (h : t.Balanced) (side : Side) : (t.child side).Balanced := by
  cases t with
  | nil => exact h
  | node left x v height right =>
      cases side with
      | left => exact h.1
      | right => exact h.2.1

theorem Balanced.under {t : Tree α} (h : t.Balanced) (way : List Side) :
    (t.under way).Balanced := by
  induction way generalizing t with
  | nil => exact h
  | cons side way ih => exact ih (h.child side)

theorem size_child_le (t : Tree α) (side : Side) : (t.child side).size ≤ t.size := by
  cases t with
  | nil => exact Nat.le_refl 0
  | node left x v height right => cases side <;> simp only [child, size] <;> omega

theorem size_under_le (t : Tree α) (way : List Side) : (t.under way).size ≤ t.size := by
  induction way generalizing t with
  | nil => exact Nat.le_refl _
  | cons side way ih => exact (ih (t.child side)).trans (t.size_child_le side)

/-- A balanced tree that slot numbers suffice for is not higher than this. -/
theorem Balanced.height_le {t : Tree α} (h : t.Balanced) (hroom : t.size < Slots.capacity) :
    t.height ≤ 65 := by
  have hpow := h.two_pow_le
  rcases Nat.lt_or_ge 65 t.height with hhigh | hlow
  · have hmono := Nat.pow_le_pow_right (n := 2) (by decide) (show 33 ≤ t.height / 2 by omega)
    simp only [Slots.capacity] at hroom
    omega
  · exact hlow

theorem mem_handles_of_child {t : Tree α} {side : Side} {id : Handle}
    (h : id ∈ (t.child side).handles) : id ∈ t.handles := by
  cases t with
  | nil => exact h
  | node left x v height right =>
      cases side with
      | left => simp [show id ∈ left.handles from h]
      | right => simp [show id ∈ right.handles from h]

/-- What a way down ends at is a node of the tree. -/
theorem mem_handles_of_under {t : Tree α} {way : List Side} {id : Handle}
    (h : (t.under way).root? = some id) : id ∈ t.handles := by
  induction way generalizing t with
  | nil => exact mem_handles_of_root? h
  | cons side way ih => exact mem_handles_of_child (ih h)

theorem exists_under {t : Tree α} {id : Handle} (h : id ∈ t.handles) :
    ∃ way, (t.under way).root? = some id := by
  induction t with
  | nil => simp at h
  | node left x v height right ihl ihr =>
      rw [handles_node, List.mem_append, List.mem_cons] at h
      rcases h with h | rfl | h
      · obtain ⟨way, hway⟩ := ihl h
        exact ⟨.left :: way, hway⟩
      · exact ⟨[], rfl⟩
      · obtain ⟨way, hway⟩ := ihr h
        exact ⟨.right :: way, hway⟩

theorem nodup_handles_child {t : Tree α} (hn : t.handles.Nodup) (side : Side) :
    (t.child side).handles.Nodup := by
  cases t with
  | nil => exact hn
  | node left x v height right =>
      rw [handles_node, List.nodup_append, List.nodup_cons] at hn
      cases side with
      | left => exact hn.1
      | right => exact hn.2.1.2

theorem not_mem_child_of_root? {t : Tree α} (hn : t.handles.Nodup) {id : Handle}
    (h : t.root? = some id) (side : Side) : id ∉ (t.child side).handles := by
  cases t with
  | nil => cases h
  | node left x v height right =>
      obtain rfl := Option.some.inj h
      rw [handles_node, List.nodup_append, List.nodup_cons] at hn
      cases side with
      | left => exact fun hid => hn.2.2 x hid x (by simp) rfl
      | right => exact hn.2.1.1

theorem side_unique {t : Tree α} (hn : t.handles.Nodup) {side side' : Side} {id : Handle}
    (h : id ∈ (t.child side).handles) (h' : id ∈ (t.child side').handles) : side = side' := by
  cases t with
  | nil => cases h
  | node left x v height right =>
      cases side with
      | left =>
          cases side' with
          | left => rfl
          | right => exact absurd h' (not_mem_right_of_mem_left hn h)
      | right =>
          cases side' with
          | left => exact absurd h (not_mem_right_of_mem_left hn h')
          | right => rfl

/-- Where handles are distinct, there is one way down to each. -/
theorem under_unique {t : Tree α} (hn : t.handles.Nodup) {way way' : List Side} {id : Handle}
    (h : (t.under way).root? = some id) (h' : (t.under way').root? = some id) : way = way' := by
  induction way generalizing t way' with
  | nil =>
      cases way' with
      | nil => rfl
      | cons side' way' =>
          have hid := mem_handles_of_under (t := t.child side') h'
          exact absurd hid (not_mem_child_of_root? hn h side')
  | cons side way ih =>
      cases way' with
      | nil =>
          have hid := mem_handles_of_under (t := t.child side) h
          exact absurd hid (not_mem_child_of_root? hn h' side)
      | cons side' way' =>
          obtain rfl := side_unique hn (mem_handles_of_under (t := t.child side) h)
            (mem_handles_of_under (t := t.child side') h')
          rw [ih (nodup_handles_child hn side) h h']

end Tree

namespace Linked

variable {α κ : Type} {x : Linked α} {ix : Index α} {t : Tree α} {base : Option Handle}

/-! ## Links -/

/-- What a link leads to along the links of a way down. -/
def follow (x : Linked α) : Option Handle → List Side → Option Handle
  | link, [] => link
  | link, side :: way => x.follow ((link.bind x.node?).bind (·.child side)) way

/-- A node is what an AVL tree asks of it, and its children know that it is above them. -/
structure Proper (x : Linked α) (id : Handle) (n : LinkedNode α) : Prop where
  height_eq : n.height = 1 + max (x.heightAt n.left) (x.heightAt n.right)
  left_le : x.heightAt n.left ≤ x.heightAt n.right + 1
  right_le : x.heightAt n.right ≤ x.heightAt n.left + 1
  linked_back : ∀ side child, n.child side = some child →
    ∃ m, x.node? child = some m ∧ m.parent = some id
  /-- Heights stay far below the range of 32 bits. -/
  low : n.height ≤ 65

/-- The links form a balanced tree of all nodes that there are. -/
structure Tidy (x : Linked α) : Prop where
  top : ∀ id, x.root = some id → ∃ n, x.node? id = some n ∧ n.parent = none
  proper : ∀ way id, x.follow x.root way = some id → ∃ n, x.node? id = some n ∧ x.Proper id n
  once : ∀ way way' id, x.follow x.root way = some id → x.follow x.root way' = some id →
    way = way'
  counted : ∃ ids : List Handle, ids.Nodup ∧
    (∀ id, id ∈ ids ↔ ∃ way, x.follow x.root way = some id) ∧
    ids.length = x.size ∧ ids.length = x.occupied

theorem Draws.child (h : x.Draws base t) (side : Side) :
    ((t.root?.bind x.node?).bind (·.child side)) = (t.child side).root? ∧
      ∃ base', x.Draws base' (t.child side) := by
  cases t with
  | nil => exact ⟨rfl, base, trivial⟩
  | node left id v height right =>
      obtain ⟨hid, hl, hr⟩ := h
      cases side with
      | left => exact ⟨by simp [Tree.root?, hid, Tree.child, LinkedNode.child], some id, hl⟩
      | right => exact ⟨by simp [Tree.root?, hid, Tree.child, LinkedNode.child], some id, hr⟩

/-- Links lead where the drawn tree does. -/
theorem Draws.follow_eq (h : x.Draws base t) (way : List Side) :
    x.follow t.root? way = (t.under way).root? ∧ ∃ base', x.Draws base' (t.under way) := by
  induction way generalizing t base with
  | nil => exact ⟨rfl, base, h⟩
  | cons side way ih =>
      obtain ⟨hlink, base', hchild⟩ := h.child side
      rw [follow, hlink]
      exact ih hchild

theorem Draws.heightAt_eq (h : x.Draws base t) : x.heightAt t.root? = t.height := by
  cases t with
  | nil => rfl
  | node left id v height right => simp [heightAt, Tree.root?, h.1]

theorem Draws.listing_eq (h : x.Draws base t) {steps : Nat} (hsteps : t.size ≤ steps) :
    x.listing steps t.root? = t.toList := by
  induction t generalizing base steps with
  | nil => cases steps <;> rfl
  | node left id v height right ihl ihr =>
      obtain ⟨hid, hl, hr⟩ := h
      obtain ⟨steps, rfl, hlsteps, hrsteps⟩ := Tree.exists_steps hsteps
      show x.listing (steps + 1) (some id) = _
      rw [listing, hid]
      exact congrArg₂ (fun l r => l ++ (id, v) :: r) (ihl hl hlsteps) (ihr hr hrsteps)

theorem Draws.proper (h : x.Draws base t) (hb : t.Balanced) (hroom : t.size < Slots.capacity)
    {id : Handle} (hroot : t.root? = some id) : ∃ n, x.node? id = some n ∧ x.Proper id n := by
  have hlow := hb.height_le hroom
  cases t with
  | nil => cases hroot
  | node left k v height right =>
      obtain rfl := Option.some.inj hroot
      obtain ⟨hid, hl, hr⟩ := h
      obtain ⟨-, -, hheight, hlr, hrl⟩ := hb
      refine ⟨_, hid, ?_, ?_, ?_, ?_, hlow⟩
      · rw [hl.heightAt_eq, hr.heightAt_eq]
        exact hheight
      · rw [hl.heightAt_eq, hr.heightAt_eq]
        exact hlr
      · rw [hl.heightAt_eq, hr.heightAt_eq]
        exact hrl
      · intro side child hchild
        cases side with
        | left =>
            obtain ⟨m, hm, hparent, -⟩ := hl.exists_root hchild
            exact ⟨m, hm, hparent⟩
        | right =>
            obtain ⟨m, hm, hparent, -⟩ := hr.exists_root hchild
            exact ⟨m, hm, hparent⟩

/-- What a linked index shows of a balanced tree. -/
theorem Mirrors.tidy (h : x.Mirrors ix) (hix : ix.Sound) (hroom : x.size < Slots.capacity) :
    x.Tidy where
  top id hid := by
    obtain ⟨n, hn, hparent, -⟩ := h.shows.draws.exists_root (h.shows.root_eq.symm.trans hid)
    exact ⟨n, hn, hparent⟩
  proper way id hid := by
    rw [h.shows.root_eq] at hid
    obtain ⟨hfollow, base, hunder⟩ := h.shows.draws.follow_eq way
    refine hunder.proper (hix.balanced.under way) ?_ (hfollow.symm.trans hid)
    have hle := ix.tree.size_under_le way
    rw [h.size_eq, hix.size_eq] at hroom
    omega
  once way way' id hid hid' := by
    rw [h.shows.root_eq] at hid hid'
    exact Tree.under_unique hix.nodup ((h.shows.draws.follow_eq way).1.symm.trans hid)
      ((h.shows.draws.follow_eq way').1.symm.trans hid')
  counted := by
    refine ⟨ix.tree.handles, hix.nodup, fun id => ?_, ?_, ?_⟩
    · rw [h.shows.root_eq]
      constructor
      · intro hid
        obtain ⟨way, hway⟩ := Tree.exists_under hid
        exact ⟨way, (h.shows.draws.follow_eq way).1.trans hway⟩
      · rintro ⟨way, hway⟩
        exact Tree.mem_handles_of_under ((h.shows.draws.follow_eq way).1.symm.trans hway)
    · rw [Tree.length_handles, h.size_eq, hix.size_eq]
    · rw [occupied_eq (h.serves hix)]

theorem Mirrors.toList_eq (h : x.Mirrors ix) (hix : ix.Sound) : x.toList = ix.toList := by
  rw [toList, h.shows.root_eq]
  exact h.shows.draws.listing_eq (size_le_cells (h.serves hix))

/-! ## Runs -/

/-- Carries out a call on the links. -/
def perform (keying : Keying α κ) : Index.Call α → LinkedOperation IndexError α Unit
  | .insert value => do let _ ← insert keying value
  | .remove id => do let _ ← remove id
  | .overwrite id value => Operation.modify fun x => x.set id value
  | .clear => Operation.modify clear

/-- An index and a linked index that the same run has led to, without ever holding as many
values as there are slot numbers. -/
inductive InStep (keying : Keying α κ) : Index α → Linked α → Prop
  | empty (owner : Nat) : InStep keying (.empty owner) (.empty owner)
  | step {ix : Index α} {x : Linked α} (h : InStep keying ix x) (c : Index.Call α)
      (hroom : ((perform keying c).run x).state.size < Slots.capacity) :
      InStep keying ((c.perform keying).run ix).state ((perform keying c).run x).state

theorem Mirrors.perform (h : x.Mirrors ix) (hix : ix.Sound) (keying : Keying α κ)
    (c : Index.Call α) :
    ((Linked.perform keying c).outcome x).1 = ((c.perform keying).outcome ix).1 ∧
      ((Linked.perform keying c).outcome x).2.Mirrors ((c.perform keying).outcome ix).2 := by
  cases c with
  | insert value =>
      obtain ⟨x', hout, hmirrors⟩ := h.insert hix keying value
      unfold Linked.perform Index.Call.perform
      rw [Operation.outcome_bind, Operation.outcome_bind, hout]
      rcases hix' : (Index.insert keying value).outcome ix with ⟨verdict, ix'⟩
      rw [hix'] at hmirrors
      cases verdict <;> exact ⟨rfl, hmirrors⟩
  | remove id =>
      obtain ⟨x', hout, hmirrors⟩ := h.remove hix id
      unfold Linked.perform Index.Call.perform
      rw [Operation.outcome_bind, Operation.outcome_bind, hout]
      rcases hix' : (Index.remove id).outcome ix with ⟨verdict, ix'⟩
      rw [hix'] at hmirrors
      cases verdict <;> exact ⟨rfl, hmirrors⟩
  | overwrite id value => exact ⟨rfl, h.set hix id value⟩
  | clear => exact ⟨rfl, h.clear⟩

theorem InStep.mirrors {keying : Keying α κ} (h : InStep keying ix x) :
    ix.Sound ∧ x.Mirrors ix ∧ x.size < Slots.capacity := by
  induction h with
  | empty owner => exact ⟨Index.sound_empty owner, mirrors_empty owner,
      (by decide : 0 < Slots.capacity)⟩
  | step _ c hroom ih =>
      obtain ⟨hix, hmirrors, -⟩ := ih
      rw [Operation.state_run, Operation.state_run] at *
      exact ⟨hix.perform keying c, (hmirrors.perform hix keying c).2, hroom⟩

/-- The links that a run leads to, also one that has come to the end of the slot numbers. -/
inductive Reachable (keying : Keying α κ) : Linked α → Prop
  | empty (owner : Nat) : Reachable keying (.empty owner)
  | step {x : Linked α} (h : Reachable keying x) (c : Index.Call α) :
      Reachable keying ((perform keying c).run x).state

theorem Reachable.exists_mirrors {keying : Keying α κ} (h : Reachable keying x) :
    ∃ ix : Index α, ix.Sound ∧ x.Mirrors ix := by
  induction h with
  | empty owner => exact ⟨.empty owner, Index.sound_empty owner, mirrors_empty owner⟩
  | step _ c ih =>
      obtain ⟨ix, hix, hmirrors⟩ := ih
      rw [Operation.state_run]
      exact ⟨_, hix.perform keying c, (hmirrors.perform hix keying c).2⟩

/-- As long as a slot number is left, no call ends with a fault. -/
theorem Mirrors.not_fault (h : x.Mirrors ix) (hix : ix.Sound) (hroom : x.size < Slots.capacity)
    (keying : Keying α κ) (c : Index.Call α) (f : Fault) :
    ((Linked.perform keying c).outcome x).1 ≠ .fault f := by
  rw [(h.perform hix keying c).1]
  rw [h.size_eq] at hroom
  cases c with
  | insert value =>
      unfold Index.Call.perform
      rcases hix.insert_cases keying value with
        ⟨found, -, hout⟩ | ⟨slots, -, hfull⟩ | ⟨id, ix', pre, post, hout, -⟩
      · rw [Operation.outcome_bind_error hout]
        simp
      · exact absurd hfull (Nat.not_le.mpr hroom)
      · rw [Operation.outcome_bind_ok hout]
        simp
  | remove id =>
      unfold Index.Call.perform
      rcases hix.remove_cases id with ⟨-, hout⟩ | ⟨value, ix', pre, post, hout, -⟩
      · rw [Operation.outcome_bind_error hout]
        simp
      · rw [Operation.outcome_bind_ok hout]
        simp
  | overwrite id value => simp [Index.Call.perform]
  | clear => simp [Index.Call.perform]

/-- Whatever the keying compares, a run leaves the links of an index a balanced tree, in step
with the index that knows no links. No call can fail on a link, for every call answers what
it does there. An audit passes exactly if all neighbours are in order, and otherwise reports
the first two that are not. -/
theorem structure_of_every_run {keying : Keying α κ} (h : InStep keying ix x) :
    (∀ value, ((insert keying value).outcome x).1 = ((Index.insert keying value).outcome ix).1) ∧
    (∀ id, ((remove id).outcome x).1 = ((Index.remove id).outcome ix).1) ∧
    (∀ c f, ((perform keying c).outcome x).1 ≠ .fault f) ∧
    x.Tidy ∧
    x.toList = ix.toList ∧
    (audit keying).outcome x = (Operation.ofExcept (ix.audit keying)).outcome x ∧
    ((audit keying).outcome x = (.ok (), x) ↔ x.toList.IsChain (Index.Follows keying)) ∧
    ∀ pre p q post, x.toList = pre ++ p :: q :: post →
      (pre ++ [p]).IsChain (Index.Follows keying) → ¬ Index.Follows keying p q →
      (audit keying).outcome x = (.error (.outOfOrder q.1 p.1), x) := by
  obtain ⟨hix, hmirrors, hroom⟩ := h.mirrors
  have haudit := hmirrors.audit hix keying
  have hlist := hmirrors.toList_eq hix
  refine ⟨fun value => ?_, fun id => ?_, hmirrors.not_fault hix hroom keying,
    hmirrors.tidy hix hroom, hlist, ?_, ?_, ?_⟩
  · obtain ⟨x', hout, -⟩ := hmirrors.insert hix keying value
    rw [hout]
  · obtain ⟨x', hout, -⟩ := hmirrors.remove hix id
    rw [hout]
  · rw [haudit, hix.audit_eq_firstDisorder?]
    cases Index.firstDisorder? keying ix.toList <;> rfl
  · rw [haudit, hlist, ← Index.firstDisorder?_eq_none_iff]
    cases Index.firstDisorder? keying ix.toList <;> simp
  · intro pre p q post hsplit hpre hpq
    rw [haudit, ← hlist, hsplit, Index.firstDisorder?_of_split hpre hpq]

/-- Three equal values under a comparison that puts every probe above every key: the third
comes in with a rotation, and no two neighbours are in order. -/
theorem structure_of_unordered_run :
    let keying : Keying Nat Nat := ⟨id, fun _ _ => .gt, toString⟩
    let x₁ := ((perform keying (.insert 3)).run (empty 7)).state
    let x₂ := ((perform keying (.insert 3)).run x₁).state
    let x₃ := ((perform keying (.insert 3)).run x₂).state
    x₃.Tidy ∧ x₃.root = some ⟨7, 1, 0⟩ ∧
      (audit keying).outcome x₃ = (.error (.outOfOrder ⟨7, 1, 0⟩ ⟨7, 0, 0⟩), x₃) := by
  intro keying x₁ x₂ x₃
  have h₀ : InStep keying (.empty 7) (.empty 7) := .empty 7
  have h₃ := ((h₀.step (.insert 3) (by decide)).step (.insert 3) (by decide)).step (.insert 3)
    (by decide)
  obtain ⟨-, -, -, htidy, -, -, -, haudit⟩ := structure_of_every_run h₃
  exact ⟨htidy, by decide, haudit [] (⟨7, 0, 0⟩, 3) (⟨7, 1, 0⟩, 3) [(⟨7, 2, 0⟩, 3)] (by decide)
    (List.IsChain.singleton _) (by simp [Index.Follows, keying])⟩

end Linked

end KernelMemory
