import KernelMemory.Index.Slots
import KernelMemory.Proofs.Outcome
import Mathlib.Data.List.Nodup
import Mathlib.Data.List.Perm.Subperm

/-!
# Slots and handles

The slots of an index and the handles in its tree say the same thing twice. `Slots.Serves`
states it once: a handle is in use exactly if its slot is occupied and in the generation
that the handle carries, and the vacant list holds every other slot once. Taking a slot
then names a handle that is not in use, and releasing one takes exactly its handle out of
use. The two checks of a vacant slot never fail: only lack of slot numbers can refuse a slot,
and then as many handles are in use as there are slot numbers. More slots than that are never
opened.
-/

namespace KernelMemory

namespace Slots

/-! ## How a slot is taken -/

section Taking

variable {s s' : Slots} {owner : Nat} {id : Handle}

/-- The first vacant slot is taken, or a new one if none is vacant. None is taken if the numbers
have run out, or if what stands first in the vacant list is no vacant slot. -/
theorem outcome_take_cases (s : Slots) (owner : Nat) :
    (∃ slot generation vacant, s.vacant = slot :: vacant ∧
      s.cells[slot]? = some ⟨generation, false⟩ ∧
      (take owner).outcome s = (.ok ⟨owner, slot, generation⟩,
        ⟨s.cells.setIfInBounds slot ⟨generation, true⟩, vacant⟩)) ∨
    (s.vacant = [] ∧ s.cells.size < capacity ∧
      (take owner).outcome s = (.ok ⟨owner, s.cells.size, 0⟩, ⟨s.cells.push ⟨0, true⟩, []⟩)) ∨
    (s.vacant = [] ∧ capacity ≤ s.cells.size ∧
      (take owner).outcome s = (.fault (.slotsExhausted s.cells.size), s)) ∨
    ∃ slot vacant fault, s.vacant = slot :: vacant ∧
      (∀ generation, s.cells[slot]? ≠ some ⟨generation, false⟩) ∧
      (take owner).outcome s = (.fault fault, { s with vacant := vacant }) := by
  rw [take, Operation.outcome_get_bind]
  cases hv : s.vacant with
  | nil =>
      rcases Nat.lt_or_ge s.cells.size capacity with hroom | hfull
      · refine .inr (.inl ⟨rfl, hroom, ?_⟩)
        simp only [if_pos hroom, Operation.outcome_set_bind, Operation.outcome_pure]
      · refine .inr (.inr (.inl ⟨rfl, hfull, ?_⟩))
        simp only [if_neg (Nat.not_lt.mpr hfull), Operation.outcome_note_bind,
          Operation.outcome_stop]
  | cons slot vacant =>
      simp only [Operation.outcome_set_bind]
      rcases hcell : s.cells[slot]? with _ | ⟨generation, _ | _⟩
      · exact .inr (.inr (.inr ⟨slot, vacant, _, rfl, by simp [hcell], rfl⟩))
      · exact .inl ⟨slot, generation, vacant, rfl, hcell, rfl⟩
      · exact .inr (.inr (.inr ⟨slot, vacant, _, rfl, by simp [hcell], rfl⟩))

/-- A slot that was taken is the first vacant one, or a new one if none is. -/
theorem of_outcome_take (ht : (take owner).outcome s = (.ok id, s')) :
    (∃ slot generation vacant, s.vacant = slot :: vacant ∧
      s.cells[slot]? = some ⟨generation, false⟩ ∧ id = ⟨owner, slot, generation⟩ ∧
      s' = ⟨s.cells.setIfInBounds slot ⟨generation, true⟩, vacant⟩) ∨
    (s.vacant = [] ∧ s.cells.size < capacity ∧ id = ⟨owner, s.cells.size, 0⟩ ∧
      s' = ⟨s.cells.push ⟨0, true⟩, []⟩) := by
  rcases s.outcome_take_cases owner with
    ⟨slot, generation, vacant, hv, hcell, hout⟩ | ⟨hv, hroom, hout⟩ | ⟨-, -, hout⟩ |
      ⟨slot, vacant, fault, -, -, hout⟩
  · cases hout.symm.trans ht
    exact .inl ⟨slot, generation, vacant, hv, hcell, rfl, rfl⟩
  · cases hout.symm.trans ht
    exact .inr ⟨hv, hroom, rfl, rfl⟩
  · cases hout.symm.trans ht
  · cases hout.symm.trans ht

end Taking

/-- The handles in use are those that the occupied slots stand for. -/
structure Serves (s : Slots) (owner : Nat) (handles : List Handle) : Prop where
  nodup : handles.Nodup
  mem_iff : ∀ id, id ∈ handles ↔
    id.owner = owner ∧ s.cells[id.slot]? = some ⟨id.generation, true⟩
  vacant_nodup : s.vacant.Nodup
  vacant_iff : ∀ slot, slot ∈ s.vacant ↔
    ∃ generation, s.cells[slot]? = some ⟨generation, false⟩

namespace Serves

variable {s s' : Slots} {owner : Nat} {handles handles' : List Handle} {id : Handle}

theorem empty (owner : Nat) : Slots.empty.Serves owner [] where
  nodup := List.nodup_nil
  mem_iff id := by simp [Slots.empty]
  vacant_nodup := List.nodup_nil
  vacant_iff slot := by simp [Slots.empty]

theorem congr (h : s.Serves owner handles) (hn : handles'.Nodup)
    (hm : ∀ id, id ∈ handles' ↔ id ∈ handles) : s.Serves owner handles' where
  nodup := hn
  mem_iff id := (hm id).trans (h.mem_iff id)
  vacant_nodup := h.vacant_nodup
  vacant_iff := h.vacant_iff

theorem eq_of_slot_eq (h : s.Serves owner handles) {a b : Handle} (ha : a ∈ handles)
    (hb : b ∈ handles) (hslot : a.slot = b.slot) : a = b := by
  obtain ⟨hao, hac⟩ := (h.mem_iff a).mp ha
  obtain ⟨hbo, hbc⟩ := (h.mem_iff b).mp hb
  rw [hslot, hbc] at hac
  simp only [Option.some.injEq, Slot.mk.injEq, and_true] at hac
  cases a
  cases b
  simp_all

/-! ## Counting slots -/

theorem nodup_slots (h : s.Serves owner handles) : (handles.map Handle.slot).Nodup :=
  List.Nodup.map_on (fun _ ha _ hb hslot => h.eq_of_slot_eq ha hb hslot) h.nodup

/-- No more handles are in use than there are slots. -/
theorem length_le (h : s.Serves owner handles) : handles.length ≤ s.cells.size := by
  have hsub : handles.map Handle.slot ⊆ List.range s.cells.size := by
    intro slot hslot
    obtain ⟨id, hid, rfl⟩ := List.mem_map.mp hslot
    obtain ⟨hlt, -⟩ := Array.getElem?_eq_some_iff.mp ((h.mem_iff id).mp hid).2
    exact List.mem_range.mpr hlt
  simpa using (h.nodup_slots.subperm hsub).length_le

/-- As many slots are occupied as handles are in use. -/
theorem countP_occupied (h : s.Serves owner handles) :
    s.cells.countP Slot.occupied = handles.length := by
  have hcells : s.cells.toList =
      (List.range s.cells.size).map fun slot => s.cells.getD slot default :=
    List.ext_getElem (by simp) fun i hi _ => by
      have hlt : i < s.cells.size := by simpa using hi
      simp [Array.getD, hlt]
  have hperm : (handles.map Handle.slot).Perm
      ((List.range s.cells.size).filter fun slot => (s.cells.getD slot default).occupied) := by
    refine (List.perm_ext_iff_of_nodup h.nodup_slots (List.nodup_range.filter _)).mpr ?_
    intro slot
    rw [List.mem_map, List.mem_filter, List.mem_range]
    constructor
    · rintro ⟨id, hid, rfl⟩
      obtain ⟨hlt, hget⟩ := Array.getElem?_eq_some_iff.mp ((h.mem_iff id).mp hid).2
      exact ⟨hlt, by simp [Array.getD, hlt, hget]⟩
    · rintro ⟨hlt, hocc⟩
      simp only [Array.getD, hlt, dif_pos, Array.getInternal_eq_getElem] at hocc
      refine ⟨⟨owner, slot, s.cells[slot].generation⟩, (h.mem_iff _).mpr ⟨rfl, ?_⟩, rfl⟩
      rw [Array.getElem?_eq_getElem hlt, ← hocc]
  rw [← Array.countP_toList, hcells, List.countP_map, List.countP_eq_length_filter]
  exact hperm.length_eq.symm.trans (List.length_map _)

/-! ## Taking a slot -/

theorem not_mem_of_getElem?_ne (h : s.Serves owner handles)
    (hcell : s.cells[id.slot]? ≠ some ⟨id.generation, true⟩) : id ∉ handles := by
  intro hmem
  exact hcell ((h.mem_iff id).mp hmem).2

/-- A vacant slot is occupied again, with the generation it has. -/
theorem reoccupy (h : s.Serves owner handles) {slot generation : Nat} {vacant : List Nat}
    (hv : s.vacant = slot :: vacant) (hcell : s.cells[slot]? = some ⟨generation, false⟩) :
    (⟨owner, slot, generation⟩ : Handle) ∉ handles ∧
      Serves ⟨s.cells.setIfInBounds slot ⟨generation, true⟩, vacant⟩ owner
        (⟨owner, slot, generation⟩ :: handles) := by
  obtain ⟨hlt, -⟩ := Array.getElem?_eq_some_iff.mp hcell
  have hfresh : (⟨owner, slot, generation⟩ : Handle) ∉ handles :=
    h.not_mem_of_getElem?_ne (by simp [hcell])
  have hvac := h.vacant_nodup
  rw [hv, List.nodup_cons] at hvac
  refine ⟨hfresh, List.nodup_cons.mpr ⟨hfresh, h.nodup⟩, ?_, hvac.2, ?_⟩
  · intro x
    rw [List.mem_cons, h.mem_iff x, Array.getElem?_setIfInBounds]
    by_cases hx : slot = x.slot
    · rw [if_pos hx, if_pos (hx ▸ hlt), ← hx, hcell]
      cases x
      simp at hx
      simp [hx, eq_comm]
    · rw [if_neg hx]
      have : x ≠ ⟨owner, slot, generation⟩ := fun e => hx (by rw [e])
      simp [this]
  · intro x
    rw [Array.getElem?_setIfInBounds]
    have hmem := h.vacant_iff x
    rw [hv, List.mem_cons] at hmem
    by_cases hx : slot = x
    · subst hx
      simp [hlt, hvac.1]
    · rw [if_neg hx, ← hmem]
      simp [Ne.symm hx]

/-- Where no slot is vacant, a new one is opened behind the others. -/
theorem openNew (h : s.Serves owner handles) (hv : s.vacant = []) :
    (⟨owner, s.cells.size, 0⟩ : Handle) ∉ handles ∧
      Serves ⟨s.cells.push ⟨0, true⟩, []⟩ owner (⟨owner, s.cells.size, 0⟩ :: handles) := by
  have hnone : s.cells[s.cells.size]? = none := by simp
  have hfresh : (⟨owner, s.cells.size, 0⟩ : Handle) ∉ handles :=
    h.not_mem_of_getElem?_ne (by simp)
  refine ⟨hfresh, List.nodup_cons.mpr ⟨hfresh, h.nodup⟩, ?_, List.nodup_nil, ?_⟩
  · intro x
    rw [List.mem_cons, h.mem_iff x, Array.getElem?_push]
    by_cases hx : x.slot = s.cells.size
    · rw [if_pos hx, hx, hnone]
      cases x
      simp at hx
      simp [hx, eq_comm]
    · rw [if_neg hx]
      have : x ≠ ⟨owner, s.cells.size, 0⟩ := fun e => hx (by rw [e])
      simp [this]
  · intro x
    have hmem := h.vacant_iff x
    rw [hv] at hmem
    rw [Array.getElem?_push]
    by_cases hx : x = s.cells.size
    · simp [hx]
    · rw [if_neg hx, ← hmem]

/-- Where no slot is vacant, every slot names a handle in use. -/
theorem size_le_length (h : s.Serves owner handles) (hv : s.vacant = []) :
    s.cells.size ≤ handles.length := by
  have hsub : List.range s.cells.size ⊆ handles.map Handle.slot := by
    intro slot hslot
    have hlt := List.mem_range.mp hslot
    cases hcell : s.cells[slot] with
    | mk generation occupied =>
        have hget : s.cells[slot]? = some ⟨generation, occupied⟩ := by
          rw [Array.getElem?_eq_getElem hlt, hcell]
        cases occupied with
        | true =>
            exact List.mem_map.mpr
              ⟨⟨owner, slot, generation⟩, (h.mem_iff _).mpr ⟨rfl, hget⟩, rfl⟩
        | false =>
            have := (h.vacant_iff slot).mpr ⟨generation, hget⟩
            simp [hv] at this
  simpa using (List.nodup_range.subperm hsub).length_le

theorem take (h : s.Serves owner handles) (ht : (Slots.take owner).outcome s = (.ok id, s')) :
    id ∉ handles ∧ s'.Serves owner (id :: handles) := by
  obtain ⟨slot, generation, vacant, hv, hcell, rfl, rfl⟩ | ⟨hv, -, rfl, rfl⟩ :=
    of_outcome_take ht
  · exact h.reoccupy hv hcell
  · exact h.openNew hv

/-- A slot can be taken unless every slot number names a handle in use. -/
theorem take_cases (h : s.Serves owner handles) :
    (∃ id s', (Slots.take owner).outcome s = (.ok id, s')) ∨
      (Slots.take owner).outcome s = (.fault (.slotsExhausted s.cells.size), s) ∧
        capacity ≤ handles.length := by
  rcases s.outcome_take_cases owner with
    ⟨slot, generation, vacant, -, -, hout⟩ | ⟨-, -, hout⟩ | ⟨hv, hfull, hout⟩ |
      ⟨slot, vacant, fault, hv, hcell, -⟩
  · exact .inl ⟨_, _, hout⟩
  · exact .inl ⟨_, _, hout⟩
  · exact .inr ⟨hout, Nat.le_trans hfull (h.size_le_length hv)⟩
  · -- a slot on the vacant list is open and holds no value
    obtain ⟨generation, hget⟩ := (h.vacant_iff slot).mp (by simp [hv])
    exact absurd hget (hcell generation)

/-! ## Releasing slots -/

theorem release (h : s.Serves owner handles) (hid : id ∈ handles) (hn : handles'.Nodup)
    (hm : ∀ x, x ∈ handles' ↔ x ∈ handles ∧ x ≠ id) :
    (s.release id.slot).Serves owner handles' := by
  obtain ⟨howner, hcell⟩ := (h.mem_iff id).mp hid
  have hfresh : id.slot ∉ s.vacant := by
    intro hv
    obtain ⟨generation, hg⟩ := (h.vacant_iff id.slot).mp hv
    simp [hcell] at hg
  refine ⟨hn, ?_, List.nodup_cons.mpr ⟨hfresh, h.vacant_nodup⟩, ?_⟩
  · intro x
    rw [hm x, Slots.release, Array.getElem?_modify]
    by_cases hx : id.slot = x.slot
    · rw [if_pos hx, ← hx, hcell]
      refine ⟨fun ⟨hxm, hxne⟩ => absurd (h.eq_of_slot_eq hid hxm hx).symm hxne, fun ⟨_, hc⟩ => ?_⟩
      simp [Slot.freed] at hc
    · rw [if_neg hx, ← h.mem_iff x]
      exact ⟨And.left, fun hxm => ⟨hxm, fun e => hx (by rw [e])⟩⟩
  · intro x
    show x ∈ id.slot :: s.vacant ↔ _
    rw [Slots.release, Array.getElem?_modify, List.mem_cons]
    by_cases hx : id.slot = x
    · rw [if_pos hx, ← hx, hcell]
      simp [Slot.freed]
    · rw [if_neg hx, ← h.vacant_iff x]
      simp [Ne.symm hx]

/-- One step of clearing takes the handle of one slot out of use, if there is one. -/
theorem clear_step (h : s.Serves owner handles) (slot : Nat) :
    (if (s.cells.getD slot default).occupied then s.release slot else s).Serves owner
      (handles.filter fun id => id.slot ≠ slot) := by
  have hn := h.nodup.filter fun id => decide (id.slot ≠ slot)
  split
  · next hocc =>
    have hlt : slot < s.cells.size := by
      rcases Nat.lt_or_ge slot s.cells.size with hlt | hge
      · exact hlt
      · rw [Array.getD, dif_neg (Nat.not_lt.mpr hge)] at hocc
        exact absurd hocc (by decide)
    rcases hcell : s.cells[slot] with ⟨generation, occupied⟩
    simp only [Array.getD, hlt, dif_pos, Array.getInternal_eq_getElem, hcell] at hocc
    subst hocc
    have hid : (⟨owner, slot, generation⟩ : Handle) ∈ handles :=
      (h.mem_iff _).mpr ⟨rfl, by rw [Array.getElem?_eq_getElem hlt, hcell]⟩
    refine h.release hid hn ?_
    intro x
    rw [List.mem_filter, decide_eq_true_eq]
    exact and_congr_right fun hx =>
      not_congr ⟨fun e => h.eq_of_slot_eq hx hid e, fun e => by rw [e]⟩
  · next hvac =>
    refine h.congr hn ?_
    intro x
    rw [List.mem_filter, decide_eq_true_eq]
    refine ⟨And.left, fun hx => ⟨hx, fun e => hvac ?_⟩⟩
    obtain ⟨hlt, hget⟩ := Array.getElem?_eq_some_iff.mp ((h.mem_iff x).mp hx).2
    subst e
    simp [Array.getD, hlt, hget]

theorem clear (h : s.Serves owner handles) : s.clear.Serves owner [] := by
  have hfold : ∀ (slots : List Nat) {s : Slots} {handles : List Handle},
      s.Serves owner handles →
      (slots.foldl (fun slots slot =>
        if (slots.cells.getD slot default).occupied then slots.release slot else slots)
        s).Serves owner (handles.filter fun id => id.slot ∉ slots) := by
    intro slots
    induction slots with
    | nil => intro s handles h; simpa using h
    | cons slot slots ih =>
        intro s handles h
        have hnext := ih (h.clear_step slot)
        rw [List.filter_filter] at hnext
        refine hnext.congr (h.nodup.filter _) ?_
        intro x
        simp [and_comm]
  refine (hfold (List.range s.cells.size) h).congr List.nodup_nil ?_
  intro x
  simp only [List.not_mem_nil, List.mem_filter, List.mem_range, false_iff, not_and]
  intro hx
  obtain ⟨hlt, -⟩ := Array.getElem?_eq_some_iff.mp ((h.mem_iff x).mp hx).2
  simpa using hlt

end Serves

/-! ## Generations -/

section Generations

variable {s s' : Slots} {owner : Nat} {id : Handle}

/-- The generation that a slot has come to. A slot that is not open yet is in its first one. -/
def generation (s : Slots) (slot : Nat) : Nat :=
  (s.cells.getD slot default).generation

theorem generation_eq (s : Slots) (slot : Nat) :
    s.generation slot = (s.cells[slot]?.map Slot.generation).getD 0 := by
  rw [generation, Array.getD_eq_getD_getElem?]
  cases s.cells[slot]? <;> rfl

/-- A handle carries the generation that its slot is in, and taking the slot does not move it
on. -/
theorem generation_take (ht : (take owner).outcome s = (.ok id, s')) :
    id.owner = owner ∧ id.generation = s.generation id.slot ∧
      ∀ slot, s'.generation slot = s.generation slot := by
  obtain ⟨taken, generation, vacant, -, hcell, rfl, rfl⟩ | ⟨-, -, rfl, rfl⟩ := of_outcome_take ht
  · obtain ⟨hlt, -⟩ := Array.getElem?_eq_some_iff.mp hcell
    have hgen : s.generation taken = generation := by rw [generation_eq, hcell]; rfl
    refine ⟨rfl, hgen.symm, fun slot => ?_⟩
    rw [generation_eq, Array.getElem?_setIfInBounds]
    by_cases hslot : taken = slot
    · subst hslot
      rw [if_pos rfl, if_pos hlt, hgen]
      rfl
    · rw [if_neg hslot, ← generation_eq]
  · have hnew : s.generation s.cells.size = 0 := by simp [generation_eq]
    refine ⟨rfl, hnew.symm, fun slot => ?_⟩
    rw [generation_eq, Array.getElem?_push]
    by_cases hslot : slot = s.cells.size
    · rw [if_pos hslot, hslot, hnew]
      rfl
    · rw [if_neg hslot, ← generation_eq]

theorem generation_release {freed : Nat} (h : freed < s.cells.size) (slot : Nat) :
    (s.release freed).generation slot =
      if freed = slot then (s.generation slot + 1) % Slot.generations else s.generation slot := by
  rw [generation_eq, release, Array.getElem?_modify]
  by_cases hslot : freed = slot
  · subst hslot
    simp [generation_eq, h, Slot.freed]
  · rw [if_neg hslot, if_neg hslot, generation_eq]

theorem getElem?_clear_step (s : Slots) (freed slot : Nat) :
    (if (s.cells.getD freed default).occupied then s.release freed else s).cells[slot]? =
      s.cells[slot]?.map fun c => if slot = freed ∧ c.occupied then c.freed else c := by
  by_cases hslot : slot = freed
  · subst hslot
    rw [Array.getD_eq_getD_getElem?]
    rcases hc : s.cells[slot]? with _ | ⟨generation, _ | _⟩
    · simpa [show (default : Slot).occupied = false from rfl] using hc
    · simp [hc]
    · simp [hc, release, Array.getElem?_modify]
  · have hsame : (s.release freed).cells[slot]? = s.cells[slot]? := by
      rw [release, Array.getElem?_modify, if_neg (Ne.symm hslot)]
    split <;> simp [hsame, hslot]

/-- Clearing frees every occupied slot once. -/
theorem getElem?_clear (s : Slots) (slot : Nat) :
    s.clear.cells[slot]? = s.cells[slot]?.map fun c => if c.occupied then c.freed else c := by
  -- the slots visited so far have been freed, those still to come are as they were
  have hfold : ∀ (slots : List Nat) (s : Slots), slots.Nodup →
      (slots.foldl (fun slots slot =>
        if (slots.cells.getD slot default).occupied then slots.release slot else slots)
        s).cells[slot]? =
      s.cells[slot]?.map fun c => if slot ∈ slots ∧ c.occupied then c.freed else c := by
    intro slots
    induction slots with
    | nil => simp
    | cons first slots ih =>
        intro s hn
        obtain ⟨hfirst, hn⟩ := List.nodup_cons.mp hn
        rw [List.foldl_cons, ih _ hn, getElem?_clear_step, Option.map_map]
        refine congrArg (Option.map · s.cells[slot]?) (funext fun c => ?_)
        by_cases hslot : slot = first
        · simp [hslot, hfirst]
        · simp [hslot]
  rw [clear, hfold _ s List.nodup_range]
  by_cases hlt : slot < s.cells.size <;> simp [hlt]

end Generations

/-! ## Opened slots -/

section Opened

variable {s : Slots}

/-- A slot is opened only while a number is left for it. -/
theorem size_outcome_take (owner : Nat) (h : s.cells.size ≤ capacity) :
    ((take owner).outcome s).2.cells.size ≤ capacity := by
  rcases s.outcome_take_cases owner with
    ⟨slot, generation, vacant, -, -, hout⟩ | ⟨-, hroom, hout⟩ | ⟨-, -, hout⟩ |
      ⟨slot, vacant, fault, -, -, hout⟩
  · rw [hout, Array.size_setIfInBounds]
    exact h
  · rw [hout, Array.size_push]
    exact hroom
  · rw [hout]
    exact h
  · rw [hout]
    exact h

@[simp] theorem size_release (s : Slots) (slot : Nat) :
    (s.release slot).cells.size = s.cells.size :=
  Array.size_modify

@[simp] theorem size_clear (s : Slots) : s.clear.cells.size = s.cells.size := by
  refine List.foldlRecOn (motive := fun (slots : Slots) => slots.cells.size = s.cells.size)
    (List.range s.cells.size) _ rfl fun slots hslots slot _ => ?_
  split
  · rw [size_release, hslots]
  · exact hslots

end Opened

end Slots

end KernelMemory
