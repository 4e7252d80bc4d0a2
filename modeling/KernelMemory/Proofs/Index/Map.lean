import KernelMemory.Proofs.Index.Sound
import KernelMemory.Proofs.Tree.Path

/-!
# Values seen through a function

What an index does depends on its values only as far as a probe looks at them. So if every
value is replaced by what a function makes of it, and a probe of the new values answers what
the old probe answered, all shapes, handles and slots stay what they were. An index whose
values carry more than the keying reads can therefore be compared with one whose values do
not, change by change.
-/

namespace KernelMemory

namespace Tree

variable {α β : Type} (f : α → β)

def map : Tree α → Tree β
  | nil => nil
  | node left id v height right => node left.map id (f v) height right.map

@[simp] theorem height_map (t : Tree α) : (t.map f).height = t.height := by
  cases t <;> rfl

@[simp] theorem balance_map (t : Tree α) : (t.map f).balance = t.balance := by
  cases t with
  | nil => rfl
  | node left id v height right => simp [map, balance]

theorem toList_map (t : Tree α) :
    (t.map f).toList = t.toList.map fun p => (p.1, f p.2) := by
  induction t with
  | nil => rfl
  | node left id v height right ihl ihr => simp [map, ihl, ihr]

@[simp] theorem handles_map (t : Tree α) : (t.map f).handles = t.handles := by
  rw [handles, toList_map, List.map_map]
  rfl

theorem balanced_map {t : Tree α} : (t.map f).Balanced ↔ t.Balanced := by
  induction t with
  | nil => rfl
  | node left id v height right ihl ihr => simp only [map, Balanced, ihl, ihr, height_map]

/-! ## Reading -/

theorem find?_map (t : Tree α) (id : Handle) : (t.map f).find? id = (t.find? id).map f := by
  induction t with
  | nil => rfl
  | node left k v height right ihl ihr =>
      simp only [map, find?, ihl, ihr]
      split
      · rfl
      · cases left.find? id <;> rfl

@[simp] theorem first?_map (t : Tree α) : (t.map f).first? = t.first? := by
  induction t with
  | nil => rfl
  | node left k v height right ihl ihr => simp only [map, first?, ihl]

@[simp] theorem last?_map (t : Tree α) : (t.map f).last? = t.last? := by
  induction t with
  | nil => rfl
  | node left k v height right ihl ihr => simp only [map, last?, ihr]

@[simp] theorem after_map (t : Tree α) (id : Handle) (bound : Option Handle) :
    (t.map f).after id bound = t.after id bound := by
  induction t generalizing bound with
  | nil => rfl
  | node left k v height right ihl ihr => simp only [map, after, ihl, ihr, first?_map]

@[simp] theorem before_map (t : Tree α) (id : Handle) (bound : Option Handle) :
    (t.map f).before id bound = t.before id bound := by
  induction t generalizing bound with
  | nil => rfl
  | node left k v height right ihl ihr => simp only [map, before, ihl, ihr, last?_map]

theorem search_map (t : Tree α) (probe : β → Ordering) (mode : SearchMode) :
    (t.map f).search probe mode =
      (t.search (probe ∘ f) mode).map fun p => (p.1, f p.2) := by
  induction t with
  | nil => rfl
  | node left k v height right ihl ihr =>
      simp only [map, search, ihl, ihr, Function.comp_apply]
      cases probe (f v) with
      | eq => rfl
      | lt =>
          cases left.search (probe ∘ f) mode with
          | some found => rfl
          | none => cases mode <;> rfl
      | gt =>
          cases right.search (probe ∘ f) mode with
          | some found => rfl
          | none => cases mode <;> rfl

/-! ## Overwriting -/

theorem map_set (t : Tree α) (id : Handle) (new : α) :
    (t.set id new).map f = (t.map f).set id (f new) := by
  induction t with
  | nil => rfl
  | node left k v height right ihl ihr =>
      simp only [map, set]
      split
      · rfl
      · simp only [map, ihl, ihr]

/-- Overwriting a value with itself changes nothing. -/
theorem set_self {t : Tree α} (hn : t.handles.Nodup) {id : Handle} {v : α}
    (h : t.find? id = some v) : t.set id v = t := by
  induction t with
  | nil => rfl
  | node left k w height right ihl ihr =>
      rw [handles_node, List.nodup_append, List.nodup_cons] at hn
      rw [find?] at h
      rw [set]
      by_cases hk : k = id
      · rw [if_pos hk] at h ⊢
        rw [Option.some.inj h]
      · rw [if_neg hk] at h ⊢
        cases hl : left.find? id with
        | some x =>
            rw [hl, Option.some_or, Option.some.injEq] at h
            subst h
            have hmem := mem_handles.mpr ⟨x, mem_of_find? hl⟩
            have hright : id ∉ right.handles := fun hid =>
              hn.2.2 id hmem id (List.mem_cons_of_mem _ hid) rfl
            rw [ihl hn.1 hl, set_of_not_mem hright]
        | none =>
            rw [hl, Option.none_or] at h
            rw [set_of_not_mem (find?_eq_none_iff.mp hl), ihr hn.2.1.2 h]

theorem find?_set (t : Tree α) (id k : Handle) (new : α) :
    (t.set id new).find? k = if k = id then (t.find? id).map fun _ => new else t.find? k := by
  induction t with
  | nil => simp [set, find?]
  | node left x v height right ihl ihr =>
      rw [set]
      by_cases hx : x = id
      · rw [if_pos hx]
        subst hx
        by_cases hk : k = x
        · subst hk
          simp [find?]
        · simp [find?, hk, Ne.symm hk]
      · rw [if_neg hx]
        by_cases hk : k = id
        · subst hk
          rw [find?, find?, if_neg hx, if_neg hx, ihl, ihr, if_pos rfl, if_pos rfl, if_pos rfl]
          cases left.find? k <;> rfl
        · rw [if_neg hk] at ihl ihr ⊢
          rw [find?, find?, ihl, ihr]

/-! ## Changing -/

theorem map_join (left : Tree α) (id : Handle) (v : α) (right : Tree α) :
    (join left id v right).map f = join (left.map f) id (f v) (right.map f) := by
  simp only [join, map, height_map]

theorem map_rotateLeft (t : Tree α) : t.rotateLeft.map f = (t.map f).rotateLeft := by
  cases t with
  | nil => rfl
  | node left id v height right =>
      cases right with
      | nil => rfl
      | node _ _ _ _ _ => simp only [rotateLeft, map, map_join]

theorem map_rotateRight (t : Tree α) : t.rotateRight.map f = (t.map f).rotateRight := by
  cases t with
  | nil => rfl
  | node left id v height right =>
      cases left with
      | nil => rfl
      | node _ _ _ _ _ => simp only [rotateRight, map, map_join]

end Tree

namespace Change

variable {α β : Type} (f : α → β)

def map (c : Change α) : Change β :=
  ⟨c.tree.map f, c.rotations, c.climbs⟩

end Change

namespace Tree

variable {α β : Type} (f : α → β)

theorem map_restore (left : Tree α) (id : Handle) (v : α) (was : Nat) (right : Tree α) :
    (restore left id v was right).map f =
      restore (left.map f) id (f v) was (right.map f) := by
  simp only [restore, height_map, balance_map, ← map_join, ← map_rotateLeft, ← map_rotateRight]
  split
  · split <;> simp only [Change.map]
  · split
    · split <;> simp only [Change.map]
    · simp only [Change.map]

end Tree

namespace Change

variable {α β : Type} (f : α → β)

theorem map_ontoLeft (c : Change α) (id : Handle) (v : α) (was : Nat) (right : Tree α) :
    (c.ontoLeft id v was right).map f = (c.map f).ontoLeft id (f v) was (right.map f) := by
  unfold ontoLeft
  cases hc : c.climbs with
  | true =>
      simp only [map, hc, if_true, ← Tree.map_restore]
  | false => simp only [map, hc, Bool.false_eq_true, if_false, Tree.map]

theorem map_ontoRight (left : Tree α) (id : Handle) (v : α) (was : Nat) (c : Change α) :
    (ontoRight left id v was c).map f = ontoRight (left.map f) id (f v) was (c.map f) := by
  unfold ontoRight
  cases hc : c.climbs with
  | true =>
      simp only [map, hc, if_true, ← Tree.map_restore]
  | false => simp only [map, hc, Bool.false_eq_true, if_false, Tree.map]

end Change

namespace Detached

variable {α β : Type} (f : α → β)

def map (d : Detached α) : Detached β :=
  ⟨d.handle, f d.value, d.rest.map f⟩

end Detached

namespace Tree

variable {α β : Type} (f : α → β)

theorem map_insert (t : Tree α) (probe : β → Ordering) (id : Handle) (new : α) :
    (t.insert (probe ∘ f) id new).map f = (t.map f).insert probe id (f new) := by
  induction t with
  | nil => rfl
  | node left k v height right ihl ihr =>
      simp only [insert, map, Function.comp_apply]
      cases probe (f v) <;> simp only [Change.map_ontoLeft, Change.map_ontoRight, ihl, ihr]

theorem popFirst?_map (t : Tree α) : (t.map f).popFirst? = t.popFirst?.map (Detached.map f) := by
  induction t with
  | nil => rfl
  | node left k v height right ihl ihr =>
      simp only [map, popFirst?, ihl]
      cases left.popFirst? with
      | none => rfl
      | some d => simp only [Option.map_some, Detached.map, Change.map_ontoLeft]

theorem map_unroot (left : Tree α) (height : Nat) (right : Tree α) :
    (left.unroot height right).map f = (left.map f).unroot height (right.map f) := by
  cases left with
  | nil => rfl
  | node l k v h r =>
      simp only [unroot, map, popFirst?_map]
      cases right.popFirst? with
      | none => rfl
      | some d => simp only [Option.map_some, Detached.map, Change.map_ontoRight, map]

theorem remove?_map (t : Tree α) (id : Handle) :
    (t.map f).remove? id = (t.remove? id).map fun r => (f r.1, r.2.map f) := by
  induction t with
  | nil => rfl
  | node left k v height right ihl ihr =>
      simp only [map, remove?, ihl, ihr]
      split
      · simp only [Option.map_some, map_unroot]
      · cases left.remove? id with
        | some r => simp only [Option.map_some, Change.map_ontoLeft]
        | none =>
            cases right.remove? id with
            | some r => simp only [Option.map_none, Option.map_some, Change.map_ontoRight]
            | none => rfl

end Tree

namespace Index

variable {α β κ : Type} (f : α → β)

def map (ix : Index α) : Index β :=
  ⟨ix.owner, ix.slots, ix.tree.map f, ix.size⟩

@[simp] theorem map_clear (ix : Index α) : ix.clear.map f = (ix.map f).clear := rfl

theorem toList_map (ix : Index α) :
    (ix.map f).toList = ix.toList.map fun p => (p.1, f p.2) :=
  Tree.toList_map f ix.tree

theorem get?_map (ix : Index α) (id : Handle) : (ix.map f).get? id = (ix.get? id).map f :=
  Tree.find?_map f ix.tree id

@[simp] theorem successor?_map (ix : Index α) (id : Handle) :
    (ix.map f).successor? id = ix.successor? id :=
  congrArg Option.join (Tree.after_map f ix.tree id none)

@[simp] theorem predecessor?_map (ix : Index α) (id : Handle) :
    (ix.map f).predecessor? id = ix.predecessor? id :=
  congrArg Option.join (Tree.before_map f ix.tree id none)

theorem get?_modify (ix : Index α) (id k : Handle) (g : α → α) :
    (ix.modify id g).get? k = if k = id then (ix.get? id).map g else ix.get? k := by
  unfold modify
  cases hv : ix.get? id with
  | none =>
      by_cases hk : k = id
      · rw [if_pos hk, hk]
        exact hv
      · rw [if_neg hk]
  | some v =>
      have hset := Tree.find?_set ix.tree id k (g v)
      rwa [show ix.tree.find? id = some v from hv] at hset

/-- A change of the values behind the function is one of the values it gives. -/
theorem map_modify (ix : Index α) (id : Handle) {g : α → α} {g' : β → β}
    (hg : ∀ v, f (g v) = g' (f v)) : (ix.modify id g).map f = (ix.map f).modify id g' := by
  unfold modify
  rw [get?_map]
  cases ix.get? id with
  | none => rfl
  | some v =>
      simp only [Option.map_some, map, set, Tree.map_set, hg]

/-- A change that the function does not see is none. -/
theorem map_modify_self {ix : Index α} (hn : ix.tree.handles.Nodup) (id : Handle) {g : α → α}
    (hg : ∀ v, f (g v) = f v) : (ix.modify id g).map f = ix.map f := by
  unfold modify
  cases hv : ix.get? id with
  | none => rfl
  | some v =>
      have hfind : (ix.tree.map f).find? id = some (f v) := by
        rw [Tree.find?_map, show ix.tree.find? id = some v from hv, Option.map_some]
      have hself := Tree.set_self (by rwa [Tree.handles_map]) hfind
      simp only [map, set, Tree.map_set, hg, hself]

/-! ## Inserting and removing -/

theorem sound_map {ix : Index α} : (ix.map f).Sound ↔ ix.Sound := by
  have hbalanced : (ix.map f).tree.Balanced ↔ ix.tree.Balanced := Tree.balanced_map f
  have hhandles : (ix.map f).tree.handles = ix.tree.handles := Tree.handles_map f ix.tree
  have hsize : (ix.map f).tree.size = ix.tree.size := by
    rw [← Tree.length_handles, hhandles, Tree.length_handles]
  constructor
  · intro h
    exact ⟨hbalanced.mp h.balanced, h.size_eq.trans hsize, hhandles ▸ h.serves⟩
  · intro h
    exact ⟨hbalanced.mpr h.balanced, h.size_eq.trans hsize.symm, hhandles.symm ▸ h.serves⟩

variable {κ' : Type}

/-- Inserting a value does to the values behind the function what inserting its image does to
their images, if both keyings place it alike. -/
theorem outcome_insert_map (keying : Keying α κ) (keying' : Keying β κ') (value : α)
    (hk : keying'.locate (keying'.key (f value)) ∘ f = keying.locate (keying.key value))
    (ix : Index α) :
    (insert keying' (f value)).outcome (ix.map f) =
      (((insert keying value).outcome ix).1, ((insert keying value).outcome ix).2.map f) := by
  have hsearch : (ix.map f).tree.search (keying'.locate (keying'.key (f value))) .exact =
      (ix.tree.search (keying.locate (keying.key value)) .exact).map fun p => (p.1, f p.2) := by
    rw [← hk]
    exact Tree.search_map f ix.tree _ .exact
  cases hs : ix.tree.search (keying.locate (keying.key value)) .exact with
  | some found =>
      rw [hs] at hsearch
      rw [outcome_insert_of_found hs, outcome_insert_of_found hsearch]
  | none =>
      rw [hs] at hsearch
      rw [outcome_insert_of_absent hs, outcome_insert_of_absent hsearch]
      simp only [map, ← Tree.map_insert, hk]
      rcases (Slots.take ix.owner).outcome ix.slots with ⟨id | e | f, slots⟩ <;> rfl

theorem outcome_remove_map (ix : Index α) (id : Handle) :
    (remove id).outcome (ix.map f) =
      (((f <$> remove id).outcome ix).1, ((f <$> remove id).outcome ix).2.map f) := by
  by_cases hid : id ∈ ix.tree.handles
  · obtain ⟨v, c, hr⟩ := Tree.exists_remove? hid
    have hr' : (ix.map f).tree.remove? id = some (f v, c.map f) := by
      rw [map, Tree.remove?_map, hr, Option.map_some]
    rw [Operation.outcome_map_ok (outcome_remove_of_found hr), outcome_remove_of_found hr']
    rfl
  · have hid' : id ∉ (ix.map f).tree.handles := by rwa [map, Tree.handles_map]
    rw [outcome_remove_of_stale hid', show f <$> remove id = remove id >>= pure ∘ f from rfl,
      Operation.outcome_bind_error (outcome_remove_of_stale hid)]

end Index

end KernelMemory
