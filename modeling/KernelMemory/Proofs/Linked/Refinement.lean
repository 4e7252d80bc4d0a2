import KernelMemory.Proofs.Index.Refinement
import KernelMemory.Proofs.Linked.Handles

/-!
# A linked index as a sorted list

`Index.refines_sorted_list` says of an index without links that it is a sorted list of handles
and values. A linked index is changed in step with it, so the links come to no more than that
list: neither a rotation nor the relinking of a successor can be told from it.

Two things have to be read off the links for that. One is what a handle resolves to. The other
is that a refused call leaves every cell and every link as it is. That there is an equal list
before and after it would not be enough, since many links stand for one list.
-/

namespace KernelMemory

namespace Linked

variable {α κ : Type} {x : Linked α} {ix ix' : Index α} {keying : Keying α κ} {value : α}

/-- The links that a run of inserting, removing and clearing leads to, without ever holding as
many values as there are slot numbers. -/
inductive OrderedRun (keying : Keying α κ) : Linked α → Prop
  | empty (owner : Nat) : OrderedRun keying (.empty owner)
  | step {x : Linked α} (h : OrderedRun keying x) (c : Index.Call α) (hc : c.KeepsOrder)
      (hroom : ((perform keying c).run x).state.size < Slots.capacity) :
      OrderedRun keying ((perform keying c).run x).state

/-- The same calls lead to an index without links that holds the same. -/
theorem OrderedRun.exists_mirrors (h : OrderedRun keying x) :
    ∃ ix, Index.Reachable Index.Call.KeepsOrder keying ix ∧ x.Mirrors ix := by
  induction h with
  | empty owner => exact ⟨.empty owner, .empty owner, mirrors_empty owner⟩
  | step _ c hc hroom ih =>
      obtain ⟨ix, hix, hmirrors⟩ := ih
      have hnext := (hmirrors.perform hix.sound keying c).2
      refine ⟨((c.perform keying).run ix).state, hix.step c hc ?_, hnext⟩
      rw [Operation.state_run, ← hnext.size_eq]
      exact hroom

theorem Mirrors.get?_eq (h : x.Mirrors ix) (hix : ix.Sound) (id : Handle) :
    x.get? id = ix.get? id := by
  refine Option.ext fun v => ?_
  rw [hix.get?_eq_some_iff]
  exact (h.mem_toList_iff hix).symm

/-- A refused value comes into no cell. -/
theorem Mirrors.outcome_insert_of_error (h : x.Mirrors ix) (hix : ix.Sound) {e : IndexError}
    (hout : (Index.insert keying value).outcome ix = (.error e, ix')) :
    (Linked.insert keying value).outcome x = (.error e, x) := by
  rcases hix.insert_cases keying value with
    ⟨found, hs, hfound⟩ | ⟨slots, hfull, -⟩ | ⟨id, ix'', pre, post, hok, -⟩
  · rw [hfound] at hout
    rw [insert_eq_graft, Operation.outcome_bind_error (h.outcome_graft_of_found hix hs),
      Verdict.error.inj (Prod.mk.inj hout).1]
  · exact nomatch hfull.symm.trans hout
  · exact nomatch hok.symm.trans hout

section Ordered

variable [Std.TransCmp keying.compare]

/-- The links that a run of inserting, removing and clearing leads to are those of a sorted list
whose handles name its pairs. A value with a new key goes to its sorted place under a handle not
in use; one with a stored key is refused with the handle of that pair, and no link changes.
Removing by the handle of a pair answers its value and takes out this pair; any other handle is
stale, and no link changes. Neither touches what other handles name. -/
theorem acts_as_sorted_list (h : OrderedRun keying x) :
    Index.Ascending keying x.toList ∧
    (∀ id v, x.get? id = some v ↔ (id, v) ∈ x.toList) ∧
    (∀ value,
      (∀ p ∈ x.toList, keying.compare (keying.key value) (keying.key p.2) = .eq →
        (insert keying value).outcome x = (.error (.collision p.1), x)) ∧
      ((∀ p ∈ x.toList, keying.compare (keying.key value) (keying.key p.2) ≠ .eq) →
        ∃ id x' pre post, (insert keying value).outcome x = (.ok id, x') ∧
          (∀ p ∈ x.toList, p.1 ≠ id) ∧
          x.toList = pre ++ post ∧ x'.toList = pre ++ (id, value) :: post ∧
          (∀ p ∈ pre, keying.compare (keying.key p.2) (keying.key value) = .lt) ∧
          (∀ p ∈ post, keying.compare (keying.key value) (keying.key p.2) = .lt) ∧
          x'.get? id = some value ∧
          ∀ other, other ≠ id → x'.get? other = x.get? other)) ∧
    ∀ id,
      (∀ value, (id, value) ∈ x.toList →
        ∃ x', (remove id).outcome x = (.ok value, x') ∧
          x'.toList = x.toList.filter (·.1 ≠ id) ∧
          x'.get? id = none ∧ ∀ other, other ≠ id → x'.get? other = x.get? other) ∧
      ((∀ p ∈ x.toList, p.1 ≠ id) → (remove id).outcome x = (.error (.stale id), x)) := by
  obtain ⟨ix, hreachable, hmirrors⟩ := h.exists_mirrors
  obtain ⟨hasc, hget, hinsert, hremove⟩ := Index.refines_sorted_list hreachable
  have hix := hreachable.sound
  simp only [hmirrors.toList_eq hix, hmirrors.get?_eq hix]
  refine ⟨hasc, hget, fun value => ⟨fun p hp heq => ?_, fun hne => ?_⟩,
    fun id => ⟨fun value hmem => ?_, fun hstale => ?_⟩⟩
  · exact hmirrors.outcome_insert_of_error hix ((hinsert value).1 p hp heq)
  · obtain ⟨id, ix', pre, post, hout, hfresh, hbefore, hafter, hpre, hpost, hnew, hother⟩ :=
      (hinsert value).2 hne
    obtain ⟨x', hout', hmirrors'⟩ := hmirrors.insert hix keying value
    have hix' := Index.sound_insert hix keying value
    rw [hout] at hout' hmirrors' hix'
    refine ⟨id, x', pre, post, hout', hfresh, hbefore, ?_, hpre, hpost, ?_, fun other hne' => ?_⟩
    · rw [hmirrors'.toList_eq hix', hafter]
    · rw [hmirrors'.get?_eq hix', hnew]
    · rw [hmirrors'.get?_eq hix', hother other hne']
  · obtain ⟨ix', hout, hlist, hgone, hother⟩ := (hremove id).1 value hmem
    obtain ⟨x', hout', hmirrors'⟩ := hmirrors.remove hix id
    have hix' := Index.sound_remove hix id
    rw [hout] at hout' hmirrors' hix'
    refine ⟨x', hout', ?_, ?_, fun other hne => ?_⟩
    · rw [hmirrors'.toList_eq hix', hlist]
    · rw [hmirrors'.get?_eq hix', hgone]
    · rw [hmirrors'.get?_eq hix', hother other hne]
  · have hid : id ∉ ix.tree.handles := fun hid => by
      obtain ⟨v, hmem⟩ := Tree.mem_handles.mp hid
      exact hstale _ hmem rfl
    exact (rejects_of_node?_eq_none (hmirrors.node?_eq_none hix hid)).remove_eq

end Ordered

/-- Three integers come in, the third with a rotation; the one on top is equal to a fourth,
and goes. -/
theorem acts_as_sorted_list_integers :
    let x₀ : Linked Int := empty 7
    let x₁ := ((perform Keying.integers (.insert 5)).run x₀).state
    let x₂ := ((perform Keying.integers (.insert 1)).run x₁).state
    let x₃ := ((perform Keying.integers (.insert 3)).run x₂).state
    (insert Keying.integers 3).outcome x₃ = (.error (.collision ⟨7, 2, 0⟩), x₃) ∧
    ∃ x₄, (remove ⟨7, 2, 0⟩).outcome x₃ = (.ok 3, x₄) ∧
      x₄.toList = [(⟨7, 1, 0⟩, 1), (⟨7, 0, 0⟩, 5)] ∧
      x₄.get? ⟨7, 0, 0⟩ = x₃.get? ⟨7, 0, 0⟩ := by
  intro x₀ x₁ x₂ x₃
  have hinst : Std.TransCmp Keying.integers.compare :=
    inferInstanceAs (Std.TransCmp (Ord.compare : Int → Int → Ordering))
  have h₁ : OrderedRun Keying.integers x₁ :=
    (OrderedRun.empty 7).step (.insert 5) trivial (by decide)
  have h₂ : OrderedRun Keying.integers x₂ := h₁.step (.insert 1) trivial (by decide)
  have h₃ : OrderedRun Keying.integers x₃ := h₂.step (.insert 3) trivial (by decide)
  obtain ⟨-, -, hinsert, hremove⟩ := acts_as_sorted_list h₃
  obtain ⟨x₄, hout, hlist, -, hother⟩ := (hremove ⟨7, 2, 0⟩).1 3 (by decide)
  exact ⟨(hinsert 3).1 (⟨7, 2, 0⟩, 3) (by decide) (by decide), x₄, hout,
    hlist.trans (by decide), hother ⟨7, 0, 0⟩ (by decide)⟩

end Linked

end KernelMemory
