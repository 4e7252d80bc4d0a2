import KernelMemory.Proofs.Index.Refinement

/-!
# Histories of handles

What a handle stands for is a matter of what has happened to it: that it was issued with a
value, that it was removed, that the index was cleared. A history lists these events, the last
one first, and says on its own which handles are live and how often a slot has been freed.

A slot carries no more of this than its generation, which is the number of times it has been
freed, modulo `2 ^ 32`, and a handle carries the generation of its slot from the time that it
was issued. Hence a handle whose slot has been freed since, but not `2 ^ 32` times, is in an
earlier generation than every live one in that slot.
-/

namespace KernelMemory

namespace Index

variable {α κ : Type}

/-- Something that happens to the handles of an index. -/
inductive Event (α : Type)
  | issued (id : Handle) (value : α)
  | removed (id : Handle)
  | cleared
  deriving DecidableEq

/-- The events of an index, last first. -/
abbrev History (α : Type) : Type :=
  List (Event α)

namespace History

/-- The handles that nothing has happened to since they were issued, and their values. -/
def live : History α → List (Handle × α)
  | [] => []
  | .issued id value :: past => (id, value) :: live past
  | .removed id :: past => (live past).filter fun p => p.1 ≠ id
  | .cleared :: _ => []

/-- Number of times that a slot has been freed: with its handle, or with all others. -/
def frees (slot : Nat) : History α → Nat
  | [] => 0
  | .issued _ _ :: past => frees slot past
  | .removed id :: past => if id.slot = slot then frees slot past + 1 else frees slot past
  | .cleared :: past =>
    if ∃ p ∈ live past, p.1.slot = slot then frees slot past + 1 else frees slot past

variable {past after before : History α} {id : Handle} {v w : α} {owner : Nat}

/-- A handle that is live has been issued with its value. -/
theorem issued_of_mem_live (h : (id, v) ∈ live past) : .issued id v ∈ past := by
  induction past with
  | nil => cases h
  | cons e past ih =>
      cases e with
      | issued k w =>
          rcases List.mem_cons.mp h with heq | hmem
          · obtain ⟨rfl, rfl⟩ := Prod.mk.inj heq
            exact List.mem_cons_self
          · exact List.mem_cons_of_mem _ (ih hmem)
      | removed k => exact List.mem_cons_of_mem _ (ih (List.mem_of_mem_filter h))
      | cleared => cases h

theorem frees_le_cons (slot : Nat) (e : Event α) (past : History α) :
    frees slot past ≤ frees slot (e :: past) := by
  cases e with
  | issued k w => exact Nat.le_refl _
  | removed k => rw [frees]; split <;> omega
  | cleared => rw [frees]; split <;> omega

/-- The histories that an index can have: it issues a handle in a slot without a live one, in
the generation that the slot is in, and removes a live one only. -/
inductive Coherent (owner : Nat) : History α → Prop
  | nil : Coherent owner []
  | issued {past : History α} (h : Coherent owner past) {id : Handle} (value : α)
      (howner : id.owner = owner)
      (hgeneration : id.generation = frees id.slot past % Slot.generations)
      (hslot : ∀ p ∈ live past, p.1.slot ≠ id.slot) : Coherent owner (.issued id value :: past)
  | removed {past : History α} (h : Coherent owner past) {id : Handle} {value : α}
      (hlive : (id, value) ∈ live past) : Coherent owner (.removed id :: past)
  | cleared {past : History α} (h : Coherent owner past) : Coherent owner (.cleared :: past)

namespace Coherent

theorem of_append (h : Coherent owner (after ++ before)) : Coherent owner before := by
  induction after with
  | nil => exact h
  | cons e after ih => cases h <;> exact ih ‹_›

theorem owner_eq (h : Coherent owner past) (hissued : .issued id v ∈ past) :
    id.owner = owner := by
  induction h with
  | nil => cases hissued
  | issued _ value howner _ _ ih =>
      rcases List.mem_cons.mp hissued with heq | hmem
      · obtain ⟨rfl, rfl⟩ := Event.issued.inj heq
        exact howner
      · exact ih hmem
  | removed _ _ ih => exact ih (by simpa using hissued)
  | cleared _ ih => exact ih (by simpa using hissued)

/-- No two live handles are in one slot. -/
theorem nodup_slots (h : Coherent owner past) :
    ((live past).map fun p => p.1.slot).Nodup := by
  induction h with
  | nil => exact List.nodup_nil
  | issued _ value _ _ hslot ih =>
      refine List.nodup_cons.mpr ⟨fun hmem => ?_, ih⟩
      obtain ⟨p, hp, heq⟩ := List.mem_map.mp hmem
      exact hslot p hp heq
  | removed _ _ ih => exact ih.sublist (List.filter_sublist.map _)
  | cleared _ _ => exact List.nodup_nil

theorem nodup_handles (h : Coherent owner past) : ((live past).map Prod.fst).Nodup := by
  refine List.Nodup.of_map Handle.slot ?_
  rw [List.map_map]
  exact h.nodup_slots

theorem eq_of_slot_eq (h : Coherent owner past) {p q : Handle × α} (hp : p ∈ live past)
    (hq : q ∈ live past) (hslot : p.1.slot = q.1.slot) : p = q :=
  List.inj_on_of_nodup_map h.nodup_slots hp hq hslot

/-- A live handle is in the generation that its slot is in. -/
theorem generation_eq (h : Coherent owner past) (hlive : (id, v) ∈ live past) :
    id.generation = frees id.slot past % Slot.generations := by
  induction h with
  | nil => cases hlive
  | issued _ value _ hgeneration _ ih =>
      rcases List.mem_cons.mp hlive with heq | hmem
      · obtain ⟨rfl, rfl⟩ := Prod.mk.inj heq
        exact hgeneration
      · exact ih hmem
  | removed hpast hremoved ih =>
      obtain ⟨hmem, hne⟩ := List.mem_filter.mp hlive
      rw [frees, if_neg fun hslot => ?_]
      · exact ih hmem
      · have heq := hpast.eq_of_slot_eq hremoved hmem hslot
        exact of_decide_eq_true hne (congrArg Prod.fst heq).symm
  | cleared _ _ => cases hlive

/-- After it was issued, a handle is either live, and its slot has not been freed, or it has
been removed or cleared, and its slot freed: by induction on what has happened since. -/
theorem fate (h : Coherent owner (after ++ .issued id v :: before)) :
    (.removed id ∉ after ∧ .cleared ∉ after ∧
        (id, v) ∈ live (after ++ .issued id v :: before) ∧
        frees id.slot (after ++ .issued id v :: before) = frees id.slot before) ∨
      ((.removed id ∈ after ∨ .cleared ∈ after) ∧
        frees id.slot before < frees id.slot (after ++ .issued id v :: before)) := by
  induction after with
  | nil => exact .inl ⟨by simp, by simp, List.mem_cons_self, rfl⟩
  | cons e after ih =>
      have hrest : Coherent owner (after ++ .issued id v :: before) :=
        of_append (show Coherent owner ([e] ++ (after ++ .issued id v :: before)) from h)
      rcases ih hrest with ⟨hremoved, hcleared, hlive, hfrees⟩ | ⟨hgone, hfrees⟩
      · cases e with
        | issued k w =>
            exact .inl ⟨by simp [hremoved], by simp [hcleared], List.mem_cons_of_mem _ hlive,
              hfrees⟩
        | removed k =>
            by_cases hk : k = id
            · refine .inr ⟨.inl (by simp [hk]), ?_⟩
              rw [List.cons_append, frees, if_pos (by rw [hk]), hfrees]
              exact Nat.lt_succ_self _
            · cases h with
              | removed _ hk' =>
                  have hslot : k.slot ≠ id.slot := fun hslot =>
                    hk (congrArg Prod.fst (hrest.eq_of_slot_eq hk' hlive hslot))
                  refine .inl ⟨by simp [hremoved, Ne.symm hk], by simp [hcleared], ?_, ?_⟩
                  · exact List.mem_filter.mpr ⟨hlive, by simp [Ne.symm hk]⟩
                  · rw [List.cons_append, frees, if_neg hslot, hfrees]
        | cleared =>
            refine .inr ⟨.inr List.mem_cons_self, ?_⟩
            rw [List.cons_append, frees, if_pos ⟨_, hlive, rfl⟩, hfrees]
            exact Nat.lt_succ_self _
      · exact .inr ⟨hgone.imp (List.mem_cons_of_mem _) (List.mem_cons_of_mem _),
          Nat.lt_of_lt_of_le hfrees (frees_le_cons _ _ _)⟩

/-- As long as the generations of its slot have not come round since a handle was issued, it is
live exactly if it has been neither removed nor cleared, and then with its value. -/
theorem mem_live_iff (h : Coherent owner past) (hpast : past = after ++ .issued id v :: before)
    (hround : frees id.slot past < frees id.slot before + Slot.generations) :
    (id, w) ∈ live past ↔ (.removed id ∉ after ∧ .cleared ∉ after) ∧ w = v := by
  subst hpast
  rcases h.fate with ⟨hremoved, hcleared, hlive, -⟩ | ⟨hgone, hfrees⟩
  · constructor
    · intro hw
      exact ⟨⟨hremoved, hcleared⟩, congrArg Prod.snd (h.eq_of_slot_eq hw hlive rfl)⟩
    · rintro ⟨-, rfl⟩
      exact hlive
  · constructor
    · intro hw
      -- a handle that is live now is in the generation of its slot, which has moved on
      have hthen : id.generation = frees id.slot before % Slot.generations := by
        cases h.of_append with
        | issued _ _ _ hgeneration _ => exact hgeneration
      have hnow := h.generation_eq hw
      have hsub := Nat.sub_mod_eq_zero_of_mod_eq (hnow.symm.trans hthen)
      rw [Nat.mod_eq_of_lt (by omega)] at hsub
      omega
    · rintro ⟨⟨hremoved, hcleared⟩, -⟩
      exact absurd hgone (not_or.mpr ⟨hremoved, hcleared⟩)

end Coherent

end History

/-! ## What an index keeps of its history -/

variable {ix ix' : Index α} {past : History α} {id : Handle} {value : α}
variable {pre post : List (Handle × α)}

/-- The index holds what is live, and its slots are in the generations that their frees have
brought them to. -/
structure Tracks (ix : Index α) (past : History α) : Prop where
  sound : ix.Sound
  coherent : History.Coherent ix.owner past
  perm : ix.toList.Perm (History.live past)
  generation_eq : ∀ slot, ix.slots.generation slot = History.frees slot past % Slot.generations

theorem tracks_empty (owner : Nat) : (empty owner : Index α).Tracks [] where
  sound := sound_empty owner
  coherent := .nil
  perm := .nil
  generation_eq slot := by simp [Slots.generation_eq, empty, Slots.empty, History.frees]

theorem outcome_take_of_insert {keying : Keying α κ} (hix : ix.Sound)
    (h : (insert keying value).outcome ix = (.ok id, ix')) :
    (Slots.take ix.owner).outcome ix.slots = (.ok id, ix'.slots) := by
  cases hs : ix.tree.search (keying.locate (keying.key value)) .exact with
  | some found =>
      rw [outcome_insert_of_found hs] at h
      exact nomatch (Prod.mk.inj h).1
  | none =>
      rcases hix.serves.take_cases with ⟨k, slots, ht⟩ | ⟨ht, -⟩
      · rw [outcome_insert_of_taken hs ht] at h
        obtain ⟨hid, rfl⟩ := Prod.mk.inj h
        rw [ht, ← Verdict.ok.inj hid]
      · rw [outcome_insert_of_stopped hs ht] at h
        exact nomatch (Prod.mk.inj h).1

theorem slots_of_remove (h : (remove id).outcome ix = (.ok value, ix')) :
    ix'.slots = ix.slots.release id.slot := by
  by_cases hid : id ∈ ix.tree.handles
  · obtain ⟨v, c, hr⟩ := Tree.exists_remove? hid
    rw [outcome_remove_of_found hr] at h
    rw [← (Prod.mk.inj h).2]
  · rw [outcome_remove_of_stale hid] at h
    exact nomatch (Prod.mk.inj h).1

theorem Tracks.gained (h : ix.Tracks past) {keying : Keying α κ}
    (hout : (insert keying value).outcome ix = (.ok id, ix'))
    (hg : ix.Gained id value pre post ix') : ix'.Tracks (.issued id value :: past) := by
  obtain ⟨howner, hgeneration, hslots⟩ := Slots.generation_take (outcome_take_of_insert h.sound hout)
  have hperm : ix'.toList.Perm ((id, value) :: ix.toList) := by
    rw [hg.after, hg.before]
    exact List.perm_middle
  refine ⟨hg.sound, ?_, hperm.trans (h.perm.cons _), fun slot => ?_⟩
  · rw [hg.owner_eq]
    refine h.coherent.issued value howner (hgeneration.trans (h.generation_eq _)) ?_
    intro p hp hslot
    have hp' : p ∈ ix.toList := h.perm.mem_iff.mpr hp
    have hmem : ∀ q ∈ (id, value) :: ix.toList, q.1 ∈ ix'.tree.handles := fun q hq =>
      List.mem_map_of_mem (hperm.mem_iff.mpr hq)
    obtain rfl : p.1 = id := hg.sound.serves.eq_of_slot_eq
      (hmem p (List.mem_cons_of_mem _ hp')) (hmem (id, value) List.mem_cons_self) hslot
    exact hg.fresh (List.mem_map_of_mem hp')
  · rw [hslots slot, h.generation_eq slot]
    rfl

theorem Tracks.lost (h : ix.Tracks past) (hout : (remove id).outcome ix = (.ok value, ix'))
    (hlost : ix.Lost id value pre post ix') : ix'.Tracks (.removed id :: past) := by
  have hmem : (id, value) ∈ ix.toList := by simp [hlost.before]
  refine ⟨hlost.sound, ?_, ?_, fun slot => ?_⟩
  · rw [hlost.owner_eq]
    exact h.coherent.removed (h.perm.mem_iff.mp hmem)
  · rw [hlost.toList_eq_filter h.sound]
    exact h.perm.filter _
  · obtain ⟨-, hcell⟩ := (h.sound.serves.mem_iff id).mp (List.mem_map_of_mem hmem)
    obtain ⟨hlt, -⟩ := Array.getElem?_eq_some_iff.mp hcell
    rw [slots_of_remove hout, Slots.generation_release hlt, h.generation_eq, History.frees]
    split
    · rw [Nat.mod_add_mod]
    · rfl

theorem Tracks.clear (h : ix.Tracks past) : ix.clear.Tracks (.cleared :: past) where
  sound := h.sound.clear
  coherent := h.coherent.cleared
  perm := .nil
  generation_eq slot := by
    have hlive : (∃ p ∈ History.live past, p.1.slot = slot) ↔
        ∃ generation, ix.slots.cells[slot]? = some ⟨generation, true⟩ := by
      constructor
      · rintro ⟨p, hp, rfl⟩
        have hid : p.1 ∈ ix.tree.handles := List.mem_map_of_mem (h.perm.mem_iff.mpr hp)
        exact ⟨_, ((h.sound.serves.mem_iff p.1).mp hid).2⟩
      · rintro ⟨generation, hcell⟩
        have hid := (h.sound.serves.mem_iff ⟨ix.owner, slot, generation⟩).mpr ⟨rfl, hcell⟩
        obtain ⟨v, hmem⟩ := Tree.mem_handles.mp hid
        exact ⟨_, h.perm.mem_iff.mp hmem, rfl⟩
    have hgeneration := h.generation_eq slot
    rw [Slots.generation_eq] at hgeneration ⊢
    show (ix.slots.clear.cells[slot]?.map Slot.generation).getD 0 = _
    rw [Slots.getElem?_clear, History.frees]
    rcases hcell : ix.slots.cells[slot]? with _ | ⟨generation, _ | _⟩
    · rw [if_neg (by simp [hlive, hcell]), ← hgeneration, hcell]
      rfl
    · rw [if_neg (by simp [hlive, hcell]), ← hgeneration, hcell]
      rfl
    · rw [if_pos (by simp [hlive, hcell]), ← Nat.mod_add_mod, ← hgeneration, hcell]
      rfl

end Index

end KernelMemory
