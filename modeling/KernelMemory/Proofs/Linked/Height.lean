import KernelMemory.Proofs.Linked.Growth
import Mathlib.Analysis.SpecialFunctions.Log.Base

/-!
# Height of linked indexes

The height of an index is logarithmic in the number of its values, in every run: the links draw a
balanced tree, and there are never more values than slot numbers, so the bounds of
`Proofs/Tree/Height.lean` apply. What they are good for is that no walk is longer than that.

A loop along the links takes one from its steps for each node that it comes to, and ends with a
fault if it would have to come to one more. So a bound on the nodes of a way down is said as a
congruence: with any number of steps from the bound on, the loop answers what it answers with the
number that it is called with, and does not end for lack of steps. The nodes of a way up are
listed, by `Rises`, and there the bound is on the list.
-/

namespace KernelMemory

namespace Tree

variable {α : Type} {t : Tree α}

theorem Balanced.height_le_logb (h : t.Balanced) (hroom : t.size ≤ Slots.capacity) :
    (t.height : ℝ) ≤ 1.44 * Real.logb 2 (t.size + 2) := by
  have hpow : (2 : ℝ) ^ (25 * t.height) ≤ ((t.size : ℝ) + 2) ^ 36 := by
    exact_mod_cast h.two_pow_le_pow hroom
  have hlog := Real.logb_le_logb_of_le one_lt_two (by positivity) hpow
  rw [Real.logb_pow, Real.logb_pow, Real.logb_self_eq_one one_lt_two] at hlog
  push_cast at hlog
  linarith

/-- A way down that leads to a node makes fewer turns than the longest one has nodes. -/
theorem length_lt_depth {way : List Side} {id : Handle} (h : (t.under way).root? = some id) :
    way.length < t.depth := by
  induction way generalizing t with
  | nil =>
      cases t with
      | nil => cases h
      | node left x v height right => exact Nat.lt_of_lt_of_le Nat.zero_lt_one (Nat.le_add_right ..)
  | cons side way ih =>
      have hchild := ih (t := t.child side) h
      cases t with
      | nil => cases hchild
      | node left x v height right =>
          rw [depth, List.length_cons]
          cases side with
          | left => simp only [child] at hchild; omega
          | right => simp only [child] at hchild; omega

end Tree

namespace Linked

variable {α κ ε β : Type} {x x' y : Linked α} {ix : Index α} {id : Handle} {value : α} {n : Nat}
variable {keying : Keying α κ}

/-! ## Numbers of values -/

theorem Mirrors.size_cells_perform (h : x.Mirrors ix) (hix : ix.Sound) (keying : Keying α κ)
    (c : Index.Call α) (hroom : x.cells.size ≤ Slots.capacity) :
    ((Linked.perform keying c).outcome x).2.cells.size ≤ Slots.capacity := by
  have hmirrors := (h.perform hix keying c).2
  rw [← size_cells_slots, h.slots_eq] at hroom
  rw [← size_cells_slots, hmirrors.slots_eq]
  exact Index.size_slots_perform hroom keying c

/-- There are never more values than slot numbers. -/
theorem Reachable.size_le (h : Reachable keying x) : x.size ≤ Slots.capacity := by
  have hcells : x.cells.size ≤ Slots.capacity := by
    induction h with
    | empty owner => exact Nat.zero_le _
    | step h c ih =>
        obtain ⟨ix, hix, hmirrors⟩ := h.exists_mirrors
        exact hmirrors.size_cells_perform hix keying c ih
  obtain ⟨ix, hix, hmirrors⟩ := h.exists_mirrors
  rw [hmirrors.size_eq, hix.size_eq]
  exact (size_le_cells (hmirrors.serves hix)).trans hcells

/-! ## Ways down -/

/-- The loop comes to `n` nodes at most: with as many steps, or more, it answers what it does with
the number of cells. -/
def EndsWithin (loop : Nat → LinkedOperation ε α β) (n : Nat) (x : Linked α) : Prop :=
  ∀ steps, n ≤ steps → (loop steps).outcome x = (loop x.cells.size).outcome x ∧
    ∀ id, ((loop steps).outcome x).1 ≠ .fault (.endlessWalk id)

theorem endsWithin_of_outcome {loop : Nat → LinkedOperation ε α β} {verdict : Verdict ε β}
    (hcells : n ≤ x.cells.size) (hloop : ∀ steps, n ≤ steps → (loop steps).outcome x = (verdict, y))
    (hverdict : ∀ id, verdict ≠ .fault (.endlessWalk id)) : EndsWithin loop n x := by
  intro steps hsteps
  rw [hloop steps hsteps, hloop x.cells.size hcells]
  exact ⟨rfl, hverdict⟩

theorem Mirrors.depth_eq (h : x.Mirrors ix) (hix : ix.Sound) : ix.tree.depth = x.height := by
  rw [hix.balanced.depth_eq, h.shows.height_eq]

theorem Mirrors.height_le_cells (h : x.Mirrors ix) (hix : ix.Sound) : x.height ≤ x.cells.size := by
  rw [← h.depth_eq hix]
  exact ix.tree.depth_le_size.trans (size_le_cells (h.serves hix))

theorem Mirrors.endsWithin_seek (h : x.Mirrors ix) (hix : ix.Sound) (probe : α → Ordering)
    (mode : SearchMode) :
    EndsWithin (fun steps => (seek probe mode steps none x.root : LinkedOperation ε α _)) x.height
      x := by
  have hloop := fun steps (hsteps : x.height ≤ steps) =>
    outcome_seek (ε := ε) h.shows.draws probe mode ((h.depth_eq hix).trans_le hsteps) none
  rw [h.shows.root_eq]
  exact endsWithin_of_outcome (h.height_le_cells hix) hloop (fun _ hverdict => nomatch hverdict)

theorem Mirrors.endsWithin_descend (h : x.Mirrors ix) (hix : ix.Sound) (probe : α → Ordering) :
    EndsWithin (fun steps => descend probe steps none x.root) x.height x := by
  have hloop := fun steps (hsteps : x.height ≤ steps) =>
    Linked.outcome_descend h.shows.draws probe ((h.depth_eq hix).trans_le hsteps) []
  rw [h.shows.root_eq]
  cases hs : ix.tree.search probe .exact with
  | some found =>
      simp only [hs] at hloop
      exact endsWithin_of_outcome (h.height_le_cells hix) hloop (fun _ hverdict => nomatch hverdict)
  | none =>
      simp only [hs] at hloop
      exact endsWithin_of_outcome (h.height_le_cells hix) hloop (fun _ hverdict => nomatch hverdict)

/-! ## Ways up -/

/-- A removal that answers walks up from a place that is not the deepest there was. -/
theorem Mirrors.rises_of_remove (h : x.Mirrors ix) (hix : ix.Sound)
    (hremove : (Linked.remove id).outcome x = (.ok value, x')) :
    ∃ start x₁ walk, (prune id).outcome x = (.ok (value, start), x₁) ∧
      x₁.Rises start walk x' ∧ walk.length < x.height ∧ x.height ≤ x'.height + 1 := by
  rw [remove_eq_prune] at hremove
  by_cases hid : id ∈ ix.tree.handles
  · obtain ⟨x₁, v, place, sub, hprune, hverdict, hpending, hshort⟩ := h.outcome_prune hix hid
    obtain ⟨x₂, hrises, hmirrors, hrun⟩ := hpending.run_rebalanceFrom (Index.sound_remove hix id)
    rw [Operation.outcome_bind_ok hprune,
      Operation.outcome_bind_ok (Operation.outcome_of_run hrun), Operation.outcome_pure] at hremove
    obtain ⟨hv, rfl⟩ := Prod.mk.inj hremove
    obtain rfl : v = value := Verdict.ok.inj hv
    refine ⟨_, x₁, _, hprune, hrises, ?_, ?_⟩
    · rw [← h.depth_eq hix]
      exact (Path.length_settlings_le _ _).trans_lt hshort
    · obtain ⟨w, c, hc⟩ := Tree.exists_remove? hid
      rw [Index.outcome_remove_of_found hc] at hmirrors
      rw [h.shows.height_eq, hmirrors.shows.height_eq]
      exact (Tree.remove?_settles hix.balanced hc).le_height_succ
  · rw [Operation.outcome_bind_error (h.outcome_prune_of_stale hix hid)] at hremove
    exact nomatch hremove

/-! ## Every run -/

/-- No way down or up the links comes to more than `n` nodes. -/
structure Shallow (keying : Keying α κ) (x : Linked α) (n : Nat) : Prop where
  follow : ∀ way id, x.follow x.root way = some id → way.length < n
  seek : ∀ probe mode,
    EndsWithin (fun steps => (seek probe mode steps none x.root : LinkedOperation IndexError α _))
      n x
  descend : ∀ probe, EndsWithin (fun steps => descend probe steps none x.root) n x
  /-- The walk after an insertion, which may also be measured by the height that it leaves. -/
  insert : ∀ value id x', (insert keying value).outcome x = (.ok id, x') →
    ∃ start x₁ walk, (graft keying value).outcome x = (.ok (id, start), x₁) ∧
      x₁.Rises start walk x' ∧ walk.length ≤ n ∧ walk.length ≤ x'.height
  remove : ∀ value id x', (remove id).outcome x = (.ok value, x') →
    ∃ start x₁ walk, (prune id).outcome x = (.ok (value, start), x₁) ∧
      x₁.Rises start walk x' ∧ walk.length ≤ n ∧ walk.length ≤ x'.height

theorem Mirrors.shallow (h : x.Mirrors ix) (hix : ix.Sound) (keying : Keying α κ) :
    x.Shallow keying x.height where
  follow way id hid := by
    rw [h.shows.root_eq, (h.shows.draws.follow_eq way).1] at hid
    rw [← h.depth_eq hix]
    exact Tree.length_lt_depth hid
  seek probe mode := h.endsWithin_seek hix probe mode
  descend probe := h.endsWithin_descend hix probe
  insert value id x' hinsert := by
    obtain ⟨x₁, path, hplug, hgraft, hrises, hshows, -⟩ := h.rises_of_insert hix hinsert
    have hgrows := h.grows hix hplug hshows
    refine ⟨_, x₁, _, hgraft, hrises, hgrows.length_le, hgrows.length_le.trans ?_⟩
    rcases hgrows.height_eq with hheight | hheight <;> omega
  remove value id x' hremove := by
    obtain ⟨start, x₁, walk, hprune, hrises, hlength, hheight⟩ := h.rises_of_remove hix hremove
    exact ⟨start, x₁, walk, hprune, hrises, by omega, by omega⟩

/-- In every run, under every keying, there are at least as many values as the Fibonacci number of
the height says, so the height is at most `1.44` binary logarithms. No way down of a search or an
insertion and no walk upwards comes to more nodes than that. -/
theorem height_of_every_run (h : Reachable keying x) :
    x.toList.length = x.size ∧
    Nat.fib (x.height + 2) ≤ x.size + 1 ∧
    (x.height : ℝ) ≤ 1.44 * Real.logb 2 (x.size + 2) ∧
    x.Shallow keying x.height := by
  obtain ⟨ix, hix, hmirrors⟩ := h.exists_mirrors
  have hsize : ix.tree.size = x.size := by rw [hmirrors.size_eq, hix.size_eq]
  have hheight : ix.tree.height = x.height := hmirrors.shows.height_eq.symm
  have hroom : ix.tree.size ≤ Slots.capacity := hsize.trans_le h.size_le
  refine ⟨?_, ?_, ?_, hmirrors.shallow hix keying⟩
  · rw [hmirrors.toList_eq hix, Index.toList, Tree.length_toList, hsize]
  · rw [← hsize, ← hheight]
    exact hix.balanced.fib_le
  · rw [← hsize, ← hheight]
    exact hix.balanced.height_le_logb hroom

/-- Five values without the deepest one: of this height, no tree is smaller. -/
theorem height_of_sparse_run :
    let x := (empty 7 : Linked Int).afterCalls Keying.integers
      [.insert 5, .insert 1, .insert 9, .insert 3, .insert 7, .remove ⟨7, 4, 0⟩]
    x.toList.length = 4 ∧ Nat.fib 5 = 4 + 1 ∧ (3 : ℝ) ≤ 1.44 * Real.logb 2 (4 + 2) ∧
      x.Shallow Keying.integers 3 := by
  intro x
  have hx : Reachable Keying.integers x := (Reachable.empty 7).afterCalls _
  have hsize : x.size = 4 := by decide +kernel
  have hheight : x.height = 3 := by decide +kernel
  obtain ⟨hlength, -, hlog, hshallow⟩ := height_of_every_run hx
  rw [hsize] at hlength hlog
  rw [hheight] at hlog hshallow
  exact ⟨hlength, rfl, by exact_mod_cast hlog, hshallow⟩

end Linked

end KernelMemory
