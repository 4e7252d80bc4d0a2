import KernelMemory.Proofs.Index.Sound

/-!
# Runs of an index

An index starts empty and is then changed by its calls in any order, with any arguments,
refused or not. Every call keeps it sound, whatever the keying is, and as long as it never
holds as many values as there are slot numbers, no call can fail for lack of slots. So all
that is left to say of an index that a run reaches is what its sequence of values is.
-/

namespace KernelMemory

namespace Index

variable {α κ : Type}

inductive Call (α : Type)
  | insert (value : α)
  | remove (id : Handle)
  /-- Writes through a handle; nothing asks that the value fits between its neighbours. -/
  | overwrite (id : Handle) (value : α)
  | clear
  deriving DecidableEq

namespace Call

/-- Carries out a call. What it answers does not matter to a run. -/
def perform (keying : Keying α κ) : Call α → Operation (Index α) IndexError Unit
  | insert value => do let _ ← Index.insert keying value
  | remove id => do let _ ← Index.remove id
  | overwrite id value => Operation.modify fun ix => ix.set id value
  | clear => Operation.modify Index.clear

end Call

/-- The indexes that a run reaches without ever holding as many values as there are slot
numbers. -/
inductive Reachable (allowed : Call α → Prop) (keying : Keying α κ) : Index α → Prop
  | empty (owner : Nat) : Reachable allowed keying (.empty owner)
  | step {ix : Index α} (hix : Reachable allowed keying ix) (c : Call α) (hc : allowed c)
      (hroom : ((c.perform keying).run ix).state.size < Slots.capacity) :
      Reachable allowed keying ((c.perform keying).run ix).state

/-! ## One call -/

/-- Writing through a handle that names no value writes nothing. -/
theorem set_of_stale {ix : Index α} {id : Handle} (h : id ∉ ix.tree.handles) (value : α) :
    ix.set id value = ix := by
  rw [Index.set, Tree.set_of_not_mem h]

theorem Sound.overwrite {ix : Index α} (h : ix.Sound) (id : Handle) (value : α) :
    (ix.set id value).Sound := by
  by_cases hid : id ∈ ix.tree.handles
  · obtain ⟨v, hmem⟩ := Tree.mem_handles.mp hid
    obtain ⟨pre, post, hl⟩ := List.append_of_mem hmem
    exact h.set hl value
  · rw [set_of_stale hid]
    exact h

/-- A handle that names a value is removed with it, and any other one is refused. -/
theorem Sound.remove_cases {ix : Index α} (h : ix.Sound) (id : Handle) :
    id ∉ ix.tree.handles ∧ (remove id).outcome ix = (.error (.stale id), ix) ∨
      ∃ value ix' pre post, (remove id).outcome ix = (.ok value, ix') ∧
        ix.Lost id value pre post ix' := by
  by_cases hid : id ∈ ix.tree.handles
  · obtain ⟨value, hmem⟩ := Tree.mem_handles.mp hid
    obtain ⟨pre, post, hl⟩ := List.append_of_mem hmem
    obtain ⟨ix', hout, hlost⟩ := h.outcome_remove hl
    exact .inr ⟨value, ix', pre, post, hout, hlost⟩
  · exact .inl ⟨hid, outcome_remove_of_stale hid⟩

theorem sound_insert {ix : Index α} (h : ix.Sound) (keying : Keying α κ) (value : α) :
    ((Index.insert keying value).outcome ix).2.Sound := by
  rcases h.insert_cases keying value with
    ⟨found, -, hout⟩ | ⟨slots, hout, -⟩ | ⟨id, ix', pre, post, hout, hg, -⟩
  · rw [hout]
    exact h
  · rw [hout]
    exact h
  · rw [hout]
    exact hg.sound

theorem sound_remove {ix : Index α} (h : ix.Sound) (id : Handle) :
    ((Index.remove id).outcome ix).2.Sound := by
  rcases h.remove_cases id with ⟨-, hout⟩ | ⟨value, ix', pre, post, hout, hlost⟩
  · rw [hout]
    exact h
  · rw [hout]
    exact hlost.sound

theorem Sound.perform {ix : Index α} (h : ix.Sound) (keying : Keying α κ) (c : Call α) :
    ((c.perform keying).outcome ix).2.Sound := by
  cases c with
  | insert value => exact (Operation.state_map _ _ ix).symm ▸ sound_insert h keying value
  | remove id => exact (Operation.state_map _ _ ix).symm ▸ sound_remove h id
  | overwrite id value => exact h.overwrite id value
  | clear => exact h.clear

theorem size_slots_perform {ix : Index α} (h : ix.slots.cells.size ≤ Slots.capacity)
    (keying : Keying α κ) (c : Call α) :
    ((c.perform keying).outcome ix).2.slots.cells.size ≤ Slots.capacity := by
  cases c with
  | insert value => exact (Operation.state_map _ _ ix).symm ▸ size_slots_insert h keying value
  | remove id => exact (Operation.state_map _ _ ix).symm ▸ size_slots_remove h id
  | overwrite id value => exact h
  | clear => exact Nat.le_trans (Nat.le_of_eq (Slots.size_clear ix.slots)) h

/-! ## Every run -/

theorem Reachable.sound {allowed : Call α → Prop} {keying : Keying α κ} {ix : Index α}
    (hix : Reachable allowed keying ix) : ix.Sound := by
  induction hix with
  | empty owner => exact sound_empty owner
  | step _ c _ _ ih =>
      rw [Operation.state_run]
      exact ih.perform keying c

theorem Reachable.room {allowed : Call α → Prop} {keying : Keying α κ} {ix : Index α}
    (hix : Reachable allowed keying ix) : ix.size < Slots.capacity := by
  cases hix with
  | empty owner => exact (by decide : 0 < Slots.capacity)
  | step _ _ _ hroom => exact hroom

end Index

end KernelMemory
