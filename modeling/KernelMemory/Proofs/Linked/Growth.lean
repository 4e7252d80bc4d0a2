import KernelMemory.Proofs.Linked.Layout

/-!
# Growth of linked indexes

An insertion hangs a leaf into a gap and walks up from there. The walk is the one along the path
from the gap, so what is known of a leaf that comes into a balanced tree is known of the links:
a node that comes into the case of a rotation is as high afterwards as it was before the leaf
came, and nothing above it is looked at.

What the walk does at a node is compared with the height that was stored there before the
insertion, and not with the one that the walk finds: these are the same because a walk writes
only to nodes that it has come to, and to what hangs below them.
-/

namespace KernelMemory

namespace Path

variable {α : Type} {path : Path α} {c : Change α}

/-- A walk comes to nodes of the path, and finds the heights of the path there. -/
theorem exists_frame_of_settlings {s : Settling} (hs : s ∈ path.settlings c) :
    ∃ f ∈ path, s.node = f.handle ∧ s.before = f.height := by
  induction path generalizing c with
  | nil => cases hs
  | cons f path ih =>
      rw [settlings] at hs
      rcases List.mem_cons.mp hs with rfl | hs
      · exact ⟨f, List.mem_cons_self .., rfl, rfl⟩
      · split at hs
        · obtain ⟨g, hg, hnode, hbefore⟩ := ih hs
          exact ⟨g, List.mem_cons_of_mem f hg, hnode, hbefore⟩
        · cases hs

end Path

namespace Linked

variable {α κ : Type} {x x₁ x' : Linked α} {ix : Index α} {id : Handle} {value : α}
variable {keying : Keying α κ} {start : Option Handle} {walk : List Settling} {s : Settling}

theorem Climbs.heightAt_eq {base hole : Option Handle} {path : Path α} {f : Frame α}
    (h : x.Climbs base hole path) (hf : f ∈ path) : x.heightAt (some f.handle) = f.height := by
  induction path generalizing hole with
  | nil => cases hf
  | cons g path ih =>
      obtain ⟨hid, -, hpath⟩ := h
      rcases List.mem_cons.mp hf with rfl | hf
      · simp [heightAt, hid]
      · exact ih hpath hf

theorem Shows.height_eq {t : Tree α} (h : x.Shows t) : x.height = t.height := by
  rw [height, h.root_eq, h.draws.heightAt_eq]

theorem quiet_graft (keying : Keying α κ) (value : α) : Operation.Quiet (graft keying value) :=
  Operation.Quiet.get.bind fun _ => (quiet_descend _ _ _ _).bind fun place =>
    (quiet_occupy _).bind fun id => (quiet_attach id place).bind fun _ =>
      (Operation.Quiet.modify _).bind fun _ => .pure _

/-- The change that a new leaf is. -/
abbrev leafChange (id : Handle) (value : α) : Change α :=
  ⟨.join .nil id value .nil, [], true⟩

/-- An insertion that answers walks up from the gap that it hung the leaf into. -/
theorem Mirrors.rises_of_insert (h : x.Mirrors ix) (hix : ix.Sound)
    (hinsert : (Linked.insert keying value).outcome x = (.ok id, x')) :
    ∃ x₁, ∃ path : Path α, path.plug .nil = ix.tree ∧
      (graft keying value).outcome x = (.ok (id, path.parent none), x₁) ∧
      x₁.Rises (path.parent none) (path.settlings (leafChange id value)) x' ∧
      x'.Shows (path.climb (leafChange id value)).tree ∧
      ((Linked.insert keying value).run x).journal =
        (path.settlings (leafChange id value)).flatMap Settling.records := by
  rw [insert_eq_graft] at hinsert ⊢
  cases hs : ix.tree.search (keying.locate (keying.key value)) .exact with
  | some found =>
      rw [Operation.outcome_bind_error (h.outcome_graft_of_found hix hs)] at hinsert
      exact nomatch hinsert
  | none =>
      rcases hix.serves.take_cases with ⟨k, slots, ht⟩ | ⟨ht, -⟩
      · obtain ⟨x₁, hgraft, hpending⟩ := h.outcome_graft_of_taken hix hs ht
        obtain ⟨x₂, hrises, hmirrors, hrun⟩ :=
          hpending.run_rebalanceFrom (Index.sound_insert hix keying value)
        rw [Operation.outcome_bind_ok hgraft,
          Operation.outcome_bind_ok (Operation.outcome_of_run hrun),
          Operation.outcome_pure] at hinsert
        obtain ⟨hid, rfl⟩ := Prod.mk.inj hinsert
        obtain rfl : k = id := Verdict.ok.inj hid
        refine ⟨x₁, _, ix.tree.plug_gap _, hgraft, hrises, ?_, ?_⟩
        · rw [hpending.tree_eq]
          exact hmirrors.shows
        · rw [(quiet_graft keying value).run_bind_ok hgraft, Operation.run_bind, hrun]
          exact List.append_nil _
      · rw [Operation.outcome_bind_fault (h.outcome_graft_of_stopped hix hs ht)] at hinsert
        exact nomatch hinsert

/-- A walk after an insertion, against the heights that there were before it. -/
structure Grows (x : Linked α) (walk : List Settling) (x' : Linked α) : Prop where
  before_eq : ∀ s ∈ walk, x.heightAt (some s.node) = s.before
  /-- A node on the way comes out as it was, or it grows by one level without a rotation. -/
  after_eq : ∀ s ∈ walk, s.after = s.before ∨ s.case = none ∧ s.after = s.before + 1
  height_eq : x'.height = x.height ∨ x'.height = x.height + 1
  length_le : walk.length ≤ x.height

theorem Mirrors.grows (h : x.Mirrors ix) (hix : ix.Sound) {path : Path α}
    (hplug : path.plug .nil = ix.tree)
    (hshows : x'.Shows (path.climb (leafChange id value)).tree) :
    x.Grows (path.settlings (leafChange id value)) x' := by
  have hbalanced : (path.plug .nil).Balanced := hplug ▸ hix.balanced
  obtain ⟨hwalk, hheight⟩ := Path.climb_of_grown (c := leafChange id value) hbalanced rfl
    (Tree.grown_leaf id value)
  have hbefore : (path.plug .nil).height = x.height := by rw [hplug, h.shows.height_eq]
  rw [hbefore, ← hshows.height_eq] at hheight
  refine ⟨fun s hs => ?_, hwalk, hheight, ?_⟩
  · obtain ⟨f, hf, hnode, hbefore⟩ := Path.exists_frame_of_settlings hs
    have hleads := (shows_plug_iff.mp (hplug ▸ h.shows : x.Shows (path.plug .nil))).2
    rw [hnode, hbefore, hleads.climbs.heightAt_eq hf]
  · have hdepth := path.length_add_depth_le .nil
    rw [hbalanced.depth_eq, hbefore] at hdepth
    exact (path.length_settlings_le _).trans (Nat.le_of_add_right_le hdepth)

/-- The node that a walk comes into a case at is its last one. -/
theorem Grows.last (h : x.Grows walk x') (hrises : x₁.Rises start walk x') (hs : s ∈ walk)
    (hcase : s.case ≠ none) :
    (∃ below, walk = below ++ [s] ∧ ∀ u ∈ below, u.case = none) ∧
      x'.heightAt (some s.top) = x.heightAt (some s.node) := by
  have hsame : s.after = s.before := (h.after_eq s hs).resolve_right fun hgrown => hcase hgrown.1
  obtain ⟨⟨below, rfl, hbelow⟩, hheight⟩ := hrises.last hs hsame
  refine ⟨⟨below, rfl, fun u hu => ?_⟩, by rw [hheight, hsame, h.before_eq s hs]⟩
  exact ((h.after_eq u (List.mem_append_left [s] hu)).resolve_left (hbelow u hu)).1

/-- Where no node but the last of a walk comes into a case, there is one record at most. -/
theorem length_records_le_one
    (h : ∀ s ∈ walk, s.case ≠ none →
      ∃ below, walk = below ++ [s] ∧ ∀ u ∈ below, u.case = none) :
    (walk.flatMap Settling.records).length ≤ 1 := by
  have hquiet : ∀ below : List Settling, (∀ u ∈ below, u.case = none) →
      below.flatMap Settling.records = [] := fun below hbelow =>
    List.flatMap_eq_nil_iff.mpr fun u hu => by rw [Settling.records, hbelow u hu]; rfl
  by_cases hcase : ∃ s ∈ walk, s.case ≠ none
  · obtain ⟨s, hs, hs_case⟩ := hcase
    obtain ⟨below, rfl, hbelow⟩ := h s hs hs_case
    rw [List.flatMap_append, hquiet below hbelow, List.nil_append, List.flatMap_singleton,
      Settling.records, List.length_map]
    cases s.case <;> simp
  · rw [hquiet walk fun u hu => by_contra fun hu_case => hcase ⟨u, hu, hu_case⟩]
    exact Nat.zero_le 1

/-- In every run, under every keying, an insertion that answers comes into the case of a rotation
at one node at most, which its records show. There the subtree comes out as high as it was before
the insertion, and this is the last node that the walk comes to; all others stay on top of theirs.
The whole index grows by one level at most. -/
theorem insert_rotates_at_most_once (h : Reachable keying x)
    (hinsert : (insert keying value).outcome x = (.ok id, x')) :
    ∃ start x₁ walk,
      (graft keying value).outcome x = (.ok (id, start), x₁) ∧ x₁.Rises start walk x' ∧
      ((insert keying value).run x).journal = walk.flatMap Settling.records ∧
      ((insert keying value).run x).journal.length ≤ 1 ∧
      (∀ s ∈ walk, s.case = none → s.top = s.node) ∧
      (∀ s ∈ walk, s.case ≠ none →
        (∃ below, walk = below ++ [s] ∧ ∀ u ∈ below, u.case = none) ∧
        x'.heightAt (some s.top) = x.heightAt (some s.node)) ∧
      (x'.height = x.height ∨ x'.height = x.height + 1) := by
  obtain ⟨ix, hix, hmirrors⟩ := h.exists_mirrors
  obtain ⟨x₁, path, hplug, hgraft, hrises, hshows, hjournal⟩ :=
    hmirrors.rises_of_insert hix hinsert
  have hgrows := hmirrors.grows hix hplug hshows
  refine ⟨_, x₁, _, hgraft, hrises, hjournal, ?_, fun s hs hcase => ?_,
    fun s hs hcase => hgrows.last hrises hs hcase, hgrows.height_eq⟩
  · rw [hjournal]
    exact length_records_le_one fun s hs hcase => (hgrows.last hrises hs hcase).1
  · obtain ⟨y, y', hsettled⟩ := hrises.exists_settled hs
    exact hsettled.top_eq hcase

/-- A value between two others comes under the higher one, and the lower one has a double
rotation over it. -/
theorem insert_rotates_between_two :
    let x := (empty 7 : Linked Int).afterCalls Keying.integers [.insert 10, .insert 30]
    let x' := ((insert Keying.integers 20).outcome x).2
    ∃ start x₁ walk, (graft Keying.integers 20).outcome x = (.ok (⟨7, 2, 0⟩, start), x₁) ∧
      x₁.Rises start walk x' ∧
      walk.flatMap Settling.records = [RotationCase.rightLeft.record ⟨7, 0, 0⟩] ∧
      (∀ s ∈ walk, s.case ≠ none →
        (∃ below, walk = below ++ [s] ∧ ∀ u ∈ below, u.case = none) ∧
        x'.heightAt (some s.top) = x.heightAt (some s.node)) ∧
      x'.root = some ⟨7, 2, 0⟩ ∧ x'.height = 2 ∧ x.height = 2 := by
  intro x x'
  have hx : Reachable Keying.integers x := (Reachable.empty 7).afterCalls _
  have hverdict : ((insert Keying.integers 20).outcome x).1 = .ok ⟨7, 2, 0⟩ := by
    decide +kernel
  have hinsert : (insert Keying.integers 20).outcome x = (.ok ⟨7, 2, 0⟩, x') := by
    rw [← hverdict]
  obtain ⟨start, x₁, walk, hgraft, hrises, hjournal, -, -, hcase, -⟩ :=
    insert_rotates_at_most_once hx hinsert
  have hrecords : walk.flatMap Settling.records = [RotationCase.rightLeft.record ⟨7, 0, 0⟩] := by
    rw [← hjournal]
    decide +kernel
  have hroot : x'.root = some ⟨7, 2, 0⟩ := by decide +kernel
  have hafter : x'.height = 2 := by decide +kernel
  have hbefore : x.height = 2 := by decide +kernel
  exact ⟨start, x₁, walk, hgraft, hrises, hrecords, hcase, hroot, hafter, hbefore⟩

end Linked

end KernelMemory
