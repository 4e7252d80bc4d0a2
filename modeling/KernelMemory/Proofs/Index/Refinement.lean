import Mathlib.Data.List.Pairwise
import Mathlib.Order.Compare
import KernelMemory.Proofs.Index.Run

/-!
# An index as a sorted list

Where a keying orders its keys, an index that is changed by inserting, removing and clearing
alone is a sorted list of handles and values. Inserting puts a pair at its place in the list
or refuses it for the stored pair of the same key; removing takes out the pair of a handle.
The shape of the tree does not show: no rotation, and no successor moved into the place of
a removed node, changes what any other handle names.

Overwriting is left out here, since it can put any value between any two neighbours.
-/

namespace KernelMemory

namespace Index

variable {α κ : Type}

/-- The keys of a sequence ascend. -/
def Ascending (keying : Keying α κ) (l : List (Handle × α)) : Prop :=
  l.Pairwise fun p q => keying.compare (keying.key p.2) (keying.key q.2) = .lt

/-- The calls that leave the stored values as they are. -/
def Call.KeepsOrder : Call α → Prop
  | .insert _ | .remove _ | .clear => True
  | .overwrite _ _ => False

/-- A pair between those it lies above and those it lies below. -/
theorem Ascending.gained {keying : Keying α κ} {pre post : List (Handle × α)}
    (h : Ascending keying (pre ++ post)) (id : Handle) {value : α}
    (hpre : ∀ p ∈ pre, keying.compare (keying.key p.2) (keying.key value) = .lt)
    (hpost : ∀ p ∈ post, keying.compare (keying.key value) (keying.key p.2) = .lt) :
    Ascending keying (pre ++ (id, value) :: post) := by
  obtain ⟨hl, hr, hlr⟩ := List.pairwise_append.mp h
  refine List.pairwise_append.mpr ⟨hl, List.pairwise_cons.mpr ⟨hpost, hr⟩, ?_⟩
  intro p hp q hq
  rcases List.mem_cons.mp hq with rfl | hq
  · exact hpre p hp
  · exact hlr p hp q hq

theorem Ascending.lost {keying : Keying α κ} {pre post : List (Handle × α)} {p : Handle × α}
    (h : Ascending keying (pre ++ p :: post)) : Ascending keying (pre ++ post) :=
  h.sublist ((List.Sublist.refl pre).append (List.sublist_cons_self p post))

/-! ## The other handles -/

theorem Gained.get?_eq {ix ix' : Index α} {id : Handle} {value : α}
    {pre post : List (Handle × α)} (hix : ix.Sound) (h : ix.Gained id value pre post ix') :
    ix.get? id = none ∧ ix'.get? id = some value ∧
      ∀ other, other ≠ id → ix'.get? other = ix.get? other := by
  refine ⟨Tree.find?_eq_none_iff.mpr h.fresh, h.sound.get?_of_split h.after, ?_⟩
  intro other hne
  refine Option.ext fun v => ?_
  rw [h.sound.get?_eq_some_iff, hix.get?_eq_some_iff, h.after, h.before]
  simp [hne]

theorem Lost.toList_eq_filter {ix ix' : Index α} {id : Handle} {value : α}
    {pre post : List (Handle × α)} (hix : ix.Sound) (h : ix.Lost id value pre post ix') :
    ix'.toList = ix.toList.filter (·.1 ≠ id) := by
  have hn : (ix.toList.map Prod.fst).Nodup := hix.nodup
  have hperm : (ix.toList.map Prod.fst).Perm (id :: (pre ++ post).map Prod.fst) := by
    rw [h.before]
    exact List.perm_middle.map Prod.fst
  obtain ⟨hid, -⟩ := List.nodup_cons.mp (hperm.nodup_iff.mp hn)
  have hother : ∀ p ∈ pre ++ post, p.1 ≠ id := by
    rintro p hp rfl
    exact hid (List.mem_map_of_mem hp)
  rw [h.after, h.before, List.filter_append, List.filter_cons_of_neg (by simp),
    ← List.filter_append]
  exact (List.filter_eq_self.mpr fun p hp => by simpa using hother p hp).symm

theorem Lost.get?_eq {ix ix' : Index α} {id : Handle} {value : α}
    {pre post : List (Handle × α)} (hix : ix.Sound) (h : ix.Lost id value pre post ix') :
    ix'.get? id = none ∧ ∀ other, other ≠ id → ix'.get? other = ix.get? other := by
  have hmem : ∀ {other v}, ix'.get? other = some v ↔
      (other, v) ∈ ix.toList ∧ other ≠ id := by
    intro other v
    rw [h.sound.get?_eq_some_iff, h.toList_eq_filter hix, List.mem_filter]
    simp
  constructor
  · exact Option.eq_none_iff_forall_ne_some.mpr fun v hv => (hmem.mp hv).2 rfl
  · intro other hne
    refine Option.ext fun v => ?_
    rw [hmem, hix.get?_eq_some_iff]
    exact and_iff_left hne

/-! ## Ordered keys -/

section Ordered

variable {keying : Keying α κ} [Std.TransCmp keying.compare]

/-- Every probe by a key sorts a sequence of ascending keys. -/
theorem Ascending.sorts {l : List (Handle × α)} (h : Ascending keying l) (probe : κ) :
    Tree.Sorts (keying.locate probe) l := by
  refine List.Pairwise.imp ?_ h
  intro p q hpq
  refine ⟨fun hlt => Std.TransCmp.lt_trans hlt hpq, ?_⟩
  intro hgt
  exact Std.TransCmp.gt_trans hgt (Std.OrientedCmp.gt_of_lt hpq)

/-- In a sequence of ascending keys, no two pairs are equal to one probe. -/
theorem Ascending.eq_of_eq {l : List (Handle × α)} (h : Ascending keying l) {probe : κ}
    {p q : Handle × α} (hp : p ∈ l) (hq : q ∈ l) (hpe : keying.locate probe p.2 = .eq)
    (hqe : keying.locate probe q.2 = .eq) : p = q := by
  let Distinct := fun a b : Handle × α =>
    keying.compare (keying.key a.2) (keying.key b.2) ≠ .eq
  have hsym : Std.Symm Distinct := ⟨fun a b hab hba => hab (Std.OrientedCmp.eq_symm hba)⟩
  have hdistinct : l.Pairwise Distinct := h.imp fun hlt heq => by simp [hlt] at heq
  by_contra hne
  exact hdistinct.forall hp hq hne (Std.TransCmp.eq_trans (Std.OrientedCmp.eq_symm hpe) hqe)

/-! ## One call -/

theorem outcome_insert_of_equal {ix : Index α} (hasc : Ascending keying ix.toList)
    {value : α} {p : Handle × α} (hp : p ∈ ix.toList)
    (heq : keying.compare (keying.key value) (keying.key p.2) = .eq) :
    (insert keying value).outcome ix = (.error (.collision p.1), ix) := by
  cases hs : ix.tree.search (keying.locate (keying.key value)) .exact with
  | none =>
      exact absurd heq ((Tree.search_exact_eq_none_iff (hasc.sorts _)).mp hs p hp)
  | some found =>
      have hfound : found = p :=
        hasc.eq_of_eq (Tree.mem_of_search hs) hp (Tree.eq_of_search_exact hs) heq
      rw [outcome_insert_of_found hs, hfound]

/-- A value whose key no stored one equals comes in at its place, unless the slots have run
out. -/
theorem Sound.insert_new_cases {ix : Index α} (hix : ix.Sound)
    (hasc : Ascending keying ix.toList) {value : α}
    (hne : ∀ p ∈ ix.toList, keying.compare (keying.key value) (keying.key p.2) ≠ .eq) :
    (∃ slots, (insert keying value).outcome ix = (.fault (.slotsExhausted slots), ix) ∧
        Slots.capacity ≤ ix.size) ∨
      ∃ id ix' pre post, (insert keying value).outcome ix = (.ok id, ix') ∧
        ix.Gained id value pre post ix' ∧
        (∀ p ∈ pre, keying.compare (keying.key p.2) (keying.key value) = .lt) ∧
        ∀ p ∈ post, keying.compare (keying.key value) (keying.key p.2) = .lt := by
  rcases hix.outcome_insert (hasc.sorts _) hne with
    hfull | ⟨id, ix', pre, post, hout, hg, hpre, hpost⟩
  · exact .inl hfull
  · exact .inr ⟨id, ix', pre, post, hout, hg,
      fun p hp => Std.OrientedCmp.lt_of_gt (hpre p hp), hpost⟩

theorem Ascending.perform {ix : Index α} (hasc : Ascending keying ix.toList)
    (hix : ix.Sound) {c : Call α} (hc : c.KeepsOrder) :
    Ascending keying ((c.perform keying).outcome ix).2.toList := by
  cases c with
  | insert value =>
      unfold Call.perform
      by_cases hne : ∀ p ∈ ix.toList,
          keying.compare (keying.key value) (keying.key p.2) ≠ .eq
      · rcases hix.insert_new_cases hasc hne with
          ⟨slots, hout, -⟩ | ⟨id, ix', pre, post, hout, hg, hpre, hpost⟩
        · rw [Operation.outcome_bind_fault hout]
          exact hasc
        · rw [Operation.outcome_bind_ok hout]
          show Ascending keying ix'.toList
          rw [hg.before] at hasc
          rw [hg.after]
          exact hasc.gained id hpre hpost
      · push Not at hne
        obtain ⟨p, hp, heq⟩ := hne
        rw [Operation.outcome_bind_error (outcome_insert_of_equal hasc hp heq)]
        exact hasc
  | remove id =>
      unfold Call.perform
      rcases hix.remove_cases id with ⟨-, hout⟩ | ⟨value, ix', pre, post, hout, hlost⟩
      · rw [Operation.outcome_bind_error hout]
        exact hasc
      · rw [Operation.outcome_bind_ok hout]
        show Ascending keying ix'.toList
        rw [hlost.before] at hasc
        rw [hlost.after]
        exact hasc.lost
  | overwrite id value => exact hc.elim
  | clear => exact List.Pairwise.nil

/-! ## Every run -/

theorem Reachable.ascending {ix : Index α} (hix : Reachable Call.KeepsOrder keying ix) :
    Ascending keying ix.toList := by
  induction hix with
  | empty owner => exact List.Pairwise.nil
  | step hix c hc _ ih =>
      rw [Operation.state_run]
      exact ih.perform hix.sound hc

/-- An index that a run of inserting, removing and clearing reaches is a sorted list whose
handles name its pairs, and it stays one. A value with a new key goes to its sorted place
under a handle not in use; one with a stored key is refused with the handle of that pair, and
nothing changes. Removing by the handle of a pair answers its value and takes out this pair;
any other handle is stale, and nothing changes. Neither touches what other handles name. -/
theorem refines_sorted_list {ix : Index α} (hix : Reachable Call.KeepsOrder keying ix) :
    Ascending keying ix.toList ∧
    (∀ id v, ix.get? id = some v ↔ (id, v) ∈ ix.toList) ∧
    (∀ value,
      (∀ p ∈ ix.toList, keying.compare (keying.key value) (keying.key p.2) = .eq →
        (insert keying value).outcome ix = (.error (.collision p.1), ix)) ∧
      ((∀ p ∈ ix.toList, keying.compare (keying.key value) (keying.key p.2) ≠ .eq) →
        ∃ id ix' pre post, (insert keying value).outcome ix = (.ok id, ix') ∧
          (∀ p ∈ ix.toList, p.1 ≠ id) ∧
          ix.toList = pre ++ post ∧ ix'.toList = pre ++ (id, value) :: post ∧
          (∀ p ∈ pre, keying.compare (keying.key p.2) (keying.key value) = .lt) ∧
          (∀ p ∈ post, keying.compare (keying.key value) (keying.key p.2) = .lt) ∧
          ix'.get? id = some value ∧
          ∀ other, other ≠ id → ix'.get? other = ix.get? other)) ∧
    ∀ id,
      (∀ value, (id, value) ∈ ix.toList →
        ∃ ix', (remove id).outcome ix = (.ok value, ix') ∧
          ix'.toList = ix.toList.filter (·.1 ≠ id) ∧
          ix'.get? id = none ∧ ∀ other, other ≠ id → ix'.get? other = ix.get? other) ∧
      ((∀ p ∈ ix.toList, p.1 ≠ id) → (remove id).outcome ix = (.error (.stale id), ix)) := by
  have hsound := hix.sound
  have hasc := hix.ascending
  refine ⟨hasc, fun id v => hsound.get?_eq_some_iff, fun value => ⟨?_, ?_⟩,
    fun id => ⟨?_, ?_⟩⟩
  · intro p hp heq
    exact outcome_insert_of_equal hasc hp heq
  · intro hne
    rcases hsound.insert_new_cases hasc hne with
      ⟨slots, -, hfull⟩ | ⟨id, ix', pre, post, hout, hg, hpre, hpost⟩
    · exact absurd hfull (Nat.not_le.mpr hix.room)
    · obtain ⟨-, hnew, hother⟩ := hg.get?_eq hsound
      refine ⟨id, ix', pre, post, hout, ?_, hg.before, hg.after, hpre, hpost, hnew, hother⟩
      rintro p hp rfl
      exact hg.fresh (Tree.mem_handles.mpr ⟨p.2, hp⟩)
  · intro value hmem
    obtain ⟨pre, post, hl⟩ := List.append_of_mem hmem
    obtain ⟨ix', hout, hlost⟩ := hsound.outcome_remove hl
    obtain ⟨hgone, hother⟩ := hlost.get?_eq hsound
    exact ⟨ix', hout, hlost.toList_eq_filter hsound, hgone, hother⟩
  · intro hstale
    refine outcome_remove_of_stale fun hid => ?_
    obtain ⟨v, hmem⟩ := Tree.mem_handles.mp hid
    exact hstale _ hmem rfl

end Ordered

end Index

end KernelMemory
