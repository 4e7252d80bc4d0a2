import KernelMemory.Proofs.Index.History
import KernelMemory.Proofs.Linked.Structure

/-!
# Handles of linked indexes

A handle is a number of an index, a slot and a generation, and a client may use any such triple
on any index, at any time. Whatever the client does with it, the index first looks for a node
behind it, so there are two ways a use can end: the handle resolves, and every use of it finds
the one node, or it is rejected by all uses alike, and nothing changes.

Which of the two it is can be told from what the indexes have answered so far: a handle resolves
where it was issued, from then on until it is removed or cleared.
-/

namespace KernelMemory

namespace Linked

open Index (Event History)

variable {α κ ε : Type} {x : Linked α} {ix : Index α} {id : Handle} {v : α}
variable {past : History α}

/-! ## Uses of a handle -/

/-- Every use of the handle finds one node, and `v` in it. -/
structure Resolves (x : Linked α) (id : Handle) (v : α) : Prop where
  get?_eq : x.get? id = some v
  contains_eq : x.contains id = true
  /-- What is written through the handle is read through it, and through no other one. -/
  get?_set : ∀ new k, (x.set id new).get? k = if k = id then some new else x.get? k
  /-- The parent is the node with a link to this one; only the root has none. -/
  parent : x.parent? id = none ∧ x.root = some id ∨
    ∃ p n side, x.parent? id = some p ∧ x.node? p = some n ∧ n.child side = some id
  balance : ∃ b, x.balance? id = some b ∧ -1 ≤ b ∧ b ≤ 1
  /-- The nodes next to it are those of its neighbours in the sequence. -/
  next : ∃ pre post, x.toList = pre ++ (id, v) :: post ∧
    (next? .right id : LinkedOperation IndexError α _).outcome x =
      (.ok (post.head?.map Prod.fst), x) ∧
    (next? .left id : LinkedOperation IndexError α _).outcome x =
      (.ok (pre.getLast?.map Prod.fst), x)
  remove : ∃ x', (remove id).outcome x = (.ok v, x')

/-- No use of the handle finds anything, and none changes anything. -/
structure Rejects (x : Linked α) (id : Handle) : Prop where
  get?_eq : x.get? id = none
  contains_eq : x.contains id = false
  set_eq : ∀ new, x.set id new = x
  parent?_eq : x.parent? id = none
  balance?_eq : x.balance? id = none
  next?_eq : ∀ side,
    (next? side id : LinkedOperation IndexError α _).outcome x = (.ok none, x)
  remove_eq : (remove id).outcome x = (.error (.stale id), x)

theorem rejects_of_node?_eq_none (h : x.node? id = none) : x.Rejects id where
  get?_eq := by rw [get?, h]; rfl
  contains_eq := by rw [contains, h]; rfl
  set_eq new := by rw [Linked.set, h]
  parent?_eq := by rw [parent?, h]; rfl
  balance?_eq := by rw [balance?, h]; rfl
  next?_eq side := by rw [next?, Operation.outcome_get_bind, h, Operation.outcome_pure]
  remove_eq := by rw [Linked.remove, Operation.outcome_get_bind, h, Operation.outcome_refuse]

theorem get?_put (h : ∃ n, x.node? id = some n) (n : LinkedNode α) (k : Handle) :
    (x.put id n).get? k = if k = id then some n.value else x.get? k := by
  obtain ⟨m, hm⟩ := h
  by_cases hk : k = id
  · rw [if_pos hk, hk, get?, node?_put_self hm, Option.map_some]
  · rw [if_neg hk, get?, node?_put_of_ne hm n hk, get?]

theorem Mirrors.exists_balance? (h : x.Mirrors ix) (hix : ix.Sound)
    (hid : id ∈ ix.tree.handles) : ∃ b, x.balance? id = some b ∧ -1 ≤ b ∧ b ≤ 1 := by
  obtain ⟨way, hroot⟩ := Tree.exists_under hid
  obtain ⟨-, base, hdraws⟩ := h.shows.draws.follow_eq way
  have hbalanced := hix.balanced.under way
  cases hunder : ix.tree.under way with
  | nil =>
      rw [hunder] at hroot
      cases hroot
  | node left k w height right =>
      rw [hunder] at hroot hdraws hbalanced
      obtain rfl := Option.some.inj hroot
      obtain ⟨hk, hleft, hright⟩ := hdraws
      obtain ⟨-, -, -, hlr, hrl⟩ := hbalanced
      refine ⟨(right.height : Int) - left.height, ?_, by omega, by omega⟩
      rw [balance?, hk, Option.map_some, hleft.heightAt_eq, hright.heightAt_eq]

/-- Every pair of the sequence is a handle that resolves and its value. -/
theorem Mirrors.resolves (h : x.Mirrors ix) (hix : ix.Sound) (hmem : (id, v) ∈ ix.toList) :
    x.Resolves id v := by
  obtain ⟨pre, post, hl⟩ := List.append_of_mem hmem
  have hsteps := size_le_cells (h.serves hix)
  have hshows := h.shows
  obtain ⟨path, left, height, right, htree, -, -⟩ := Path.exists_place hix.nodup hl
  rw [htree] at hshows
  obtain ⟨⟨hid, -, -⟩, hleads⟩ := shows_plug_iff.mp hshows
  refine ⟨?_, ?_, fun new k => ?_, ?_, ?_, ⟨pre, post, ?_, ?_, ?_⟩, ?_⟩
  · rw [get?, hid, Option.map_some]
  · rw [contains, hid, Option.isSome_some]
  · rw [Linked.set, hid]
    exact get?_put ⟨_, hid⟩ _ k
  · rw [parent?, hid]
    cases path with
    | nil => exact .inl ⟨rfl, hleads.root_eq⟩
    | cons f path => exact .inr ⟨f.handle, _, f.side, rfl, hleads.climbs.1, Side.child_linked ..⟩
  · exact h.exists_balance? hix (Tree.mem_handles.mpr ⟨v, hmem⟩)
  · rw [h.toList_eq hix, hl]
  · exact h.shows.outcome_next? hix.nodup hsteps hl
  · exact h.shows.outcome_previous? hix.nodup hsteps hl
  · obtain ⟨x', hout, -⟩ := h.remove hix id
    obtain ⟨ix', hremove, -⟩ := hix.outcome_remove hl
    rw [hremove] at hout
    exact ⟨x', hout⟩

/-- What can be read through a handle stands in the sequence. -/
theorem Mirrors.mem_toList_iff (h : x.Mirrors ix) (hix : ix.Sound) :
    (id, v) ∈ ix.toList ↔ x.get? id = some v := by
  constructor
  · exact fun hmem => (h.resolves hix hmem).get?_eq
  · intro hv
    obtain ⟨n, hn, rfl⟩ := Option.map_eq_some_iff.mp hv
    have hid := (exists_node_iff (h.serves hix)).mp ⟨n, hn⟩
    obtain ⟨w, hmem⟩ := Tree.mem_handles.mp hid
    have hw := (h.resolves hix hmem).get?_eq
    rw [← Option.some.inj (hw.symm.trans hv)]
    exact hmem

/-! ## Histories -/

/-- The links hold what is live. -/
def Tracks (x : Linked α) (past : History α) : Prop :=
  ∃ ix, x.Mirrors ix ∧ ix.Tracks past

theorem tracks_empty (owner : Nat) : (empty owner : Linked α).Tracks [] :=
  ⟨.empty owner, mirrors_empty owner, Index.tracks_empty owner⟩

theorem Tracks.coherent (h : x.Tracks past) : History.Coherent x.owner past := by
  obtain ⟨ix, hmirrors, htracks⟩ := h
  rw [hmirrors.owner_eq]
  exact htracks.coherent

theorem Tracks.toList_perm (h : x.Tracks past) : x.toList.Perm (History.live past) := by
  obtain ⟨ix, hmirrors, htracks⟩ := h
  rw [hmirrors.toList_eq htracks.sound]
  exact htracks.perm

theorem Tracks.resolves_iff (h : x.Tracks past) :
    x.Resolves id v ↔ (id, v) ∈ History.live past := by
  obtain ⟨ix, hmirrors, htracks⟩ := h
  rw [← htracks.perm.mem_iff]
  constructor
  · exact fun hv => (hmirrors.mem_toList_iff htracks.sound).mpr hv.get?_eq
  · exact hmirrors.resolves htracks.sound

/-- A handle resolves or is rejected. -/
theorem Tracks.resolves_or_rejects (h : x.Tracks past) (id : Handle) :
    (∃ v, x.Resolves id v) ∨ x.Rejects id := by
  obtain ⟨ix, hmirrors, htracks⟩ := h
  by_cases hid : id ∈ ix.tree.handles
  · obtain ⟨v, hmem⟩ := Tree.mem_handles.mp hid
    exact .inl ⟨v, hmirrors.resolves htracks.sound hmem⟩
  · exact .inr (rejects_of_node?_eq_none (hmirrors.node?_eq_none htracks.sound hid))

/-! ## Requests -/

/-- What a client asks of an index by handles. -/
inductive Request (α : Type)
  | insert (value : α)
  | remove (id : Handle)
  | clear

/-- Carries out a request, and answers what has happened to the handles. -/
def serve (keying : Keying α κ) : Request α → LinkedOperation IndexError α (Event α)
  | .insert value => do
    let id ← insert keying value
    return .issued id value
  | .remove id => do
    let _ ← remove id
    return .removed id
  | .clear => do
    Operation.modify clear
    return .cleared

/-- Nothing has happened where a request was refused. -/
def recorded (verdict : Verdict IndexError (Event α)) (past : History α) : History α :=
  match verdict with
  | .ok e => e :: past
  | _ => past

/-- One request, whether it is refused or not. -/
theorem Tracks.serve (h : x.Tracks past) (keying : Keying α κ) (r : Request α) :
    ((serve keying r).outcome x).2.owner = x.owner ∧
      ((serve keying r).outcome x).2.Tracks (recorded ((serve keying r).outcome x).1 past) := by
  obtain ⟨ix, hmirrors, htracks⟩ := h
  have howner := hmirrors.owner_eq
  cases r with
  | insert value =>
      obtain ⟨x', hout, hmirrors'⟩ := hmirrors.insert htracks.sound keying value
      unfold Linked.serve
      rcases htracks.sound.insert_cases keying value with
        ⟨found, -, hix⟩ | ⟨slots, hix, -⟩ | ⟨id, ix', pre, post, hix, hg, -⟩
      · rw [hix] at hout hmirrors'
        rw [Operation.outcome_bind_error hout]
        exact ⟨hmirrors'.owner_eq.trans howner.symm, ix, hmirrors', htracks⟩
      · rw [hix] at hout hmirrors'
        rw [Operation.outcome_bind_fault hout]
        exact ⟨hmirrors'.owner_eq.trans howner.symm, ix, hmirrors', htracks⟩
      · rw [hix] at hout hmirrors'
        rw [Operation.outcome_bind_ok hout, Operation.outcome_pure]
        exact ⟨(hmirrors'.owner_eq.trans hg.owner_eq).trans howner.symm, ix', hmirrors',
          htracks.gained hix hg⟩
  | remove id =>
      obtain ⟨x', hout, hmirrors'⟩ := hmirrors.remove htracks.sound id
      unfold Linked.serve
      rcases htracks.sound.remove_cases id with ⟨-, hix⟩ | ⟨value, ix', pre, post, hix, hlost⟩
      · rw [hix] at hout hmirrors'
        rw [Operation.outcome_bind_error hout]
        exact ⟨hmirrors'.owner_eq.trans howner.symm, ix, hmirrors', htracks⟩
      · rw [hix] at hout hmirrors'
        rw [Operation.outcome_bind_ok hout, Operation.outcome_pure]
        exact ⟨(hmirrors'.owner_eq.trans hlost.owner_eq).trans howner.symm, ix', hmirrors',
          htracks.lost hix hlost⟩
  | clear =>
      exact ⟨hmirrors.clear.owner_eq.trans howner.symm, ix.clear, hmirrors.clear, htracks.clear⟩

/-! ## Many indexes -/

section Forest

variable {ι : Type} [DecidableEq ι] {β γ : ι → Type}

/-- Indexes with their own values and keyings that are asked in any order, and their
histories. -/
inductive Forest (keying : ∀ i, Keying (β i) (γ i)) (owner : ι → Nat) :
    (∀ i, Linked (β i)) → (∀ i, History (β i)) → Prop
  | empty : Forest keying owner (fun i => .empty (owner i)) fun _ => []
  | step {trees : ∀ i, Linked (β i)} {pasts : ∀ i, History (β i)}
      (h : Forest keying owner trees pasts) (i : ι) (r : Request (β i)) :
      Forest keying owner
        (Function.update trees i ((serve (keying i) r).run (trees i)).state)
        (Function.update pasts i
          (recorded ((serve (keying i) r).run (trees i)).verdict (pasts i)))

variable {keying : ∀ i, Keying (β i) (γ i)} {owner : ι → Nat}
variable {trees : ∀ i, Linked (β i)} {pasts : ∀ i, History (β i)}

theorem Forest.tracks (h : Forest keying owner trees pasts) (i : ι) :
    (trees i).owner = owner i ∧ (trees i).Tracks (pasts i) := by
  induction h with
  | empty => exact ⟨rfl, tracks_empty (owner i)⟩
  | @step trees pasts _ j r ih =>
      by_cases hi : i = j
      · subst hi
        obtain ⟨howner, htracks⟩ := ih
        obtain ⟨howner', htracks'⟩ := htracks.serve (keying i) r
        rw [Function.update_self, Function.update_self]
        exact ⟨howner'.trans howner, htracks'⟩
      · rw [Function.update_of_ne hi, Function.update_of_ne hi]
        exact ih

/-- Whatever has been asked of any number of indexes with different numbers, a handle that one
of them issued resolves there exactly as long as it is neither removed nor cleared, with the
value that it was issued with, unless the generations of its slot have come round since. A
handle that the index did not issue never resolves; where a handle does not, every use of it is
refused and changes nothing. No two nodes share a handle, in one index or in two. -/
theorem handle_resolves_while_live (hinjective : Function.Injective owner)
    (h : Forest keying owner trees pasts) (i : ι) :
    (∀ id v after before, pasts i = after ++ .issued id v :: before →
      History.frees id.slot (pasts i) < History.frees id.slot before + Slot.generations →
      ((∃ w, (trees i).Resolves id w) ↔ .removed id ∉ after ∧ .cleared ∉ after) ∧
      ∀ w, (trees i).Resolves id w → w = v) ∧
    (∀ id v, (trees i).Resolves id v → .issued id v ∈ pasts i) ∧
    (∀ j id v, j ≠ i → .issued id v ∈ pasts j → (trees i).Rejects id) ∧
    (∀ id, (¬ ∃ v, (trees i).Resolves id v) → (trees i).Rejects id) ∧
    (trees i).toList.Perm (History.live (pasts i)) ∧
    ((trees i).toList.map Prod.fst).Nodup ∧
    ∀ j, j ≠ i → ∀ p ∈ (trees i).toList, ∀ q ∈ (trees j).toList, p.1 ≠ q.1 := by
  obtain ⟨howner, htracks⟩ := h.tracks i
  have hforeign : ∀ j id v w, j ≠ i → .issued id v ∈ pasts j → .issued id w ∉ pasts i := by
    intro j id v w hji hj hi
    obtain ⟨howner', htracks'⟩ := h.tracks j
    refine hji (hinjective ?_)
    rw [← howner, ← howner', ← htracks.coherent.owner_eq hi, htracks'.coherent.owner_eq hj]
  have hrejects : ∀ id, (¬ ∃ v, (trees i).Resolves id v) → (trees i).Rejects id := fun id hid =>
    (htracks.resolves_or_rejects id).resolve_left hid
  have hissued : ∀ id v, (trees i).Resolves id v → .issued id v ∈ pasts i := fun id v hv =>
    History.issued_of_mem_live (htracks.resolves_iff.mp hv)
  refine ⟨fun id v after before hpast hround => ?_, hissued, fun j id v hji hj => ?_, hrejects,
    htracks.toList_perm, ?_, fun j hji p hp q hq heq => ?_⟩
  · have hiff := fun w => htracks.resolves_iff.trans
      (htracks.coherent.mem_live_iff (w := w) hpast hround)
    refine ⟨⟨fun ⟨w, hw⟩ => ((hiff w).mp hw).1, fun hkept => ⟨v, (hiff v).mpr ⟨hkept, rfl⟩⟩⟩, ?_⟩
    exact fun w hw => ((hiff w).mp hw).2
  · exact hrejects id fun ⟨w, hw⟩ => hforeign j id v w hji hj (hissued id w hw)
  · exact (htracks.toList_perm.map _).nodup_iff.mpr htracks.coherent.nodup_handles
  · have hlive := History.issued_of_mem_live (htracks.toList_perm.mem_iff.mp hp)
    have hlive' := History.issued_of_mem_live ((h.tracks j).2.toList_perm.mem_iff.mp hq)
    rw [← heq] at hlive'
    exact hforeign j _ _ _ hji hlive' hlive

/-- A slot is taken again after its handle was removed. The old handle stays rejected, the new
one resolves in its own index, and in no other one, although there is a node in the same
slot. -/
theorem handle_resolves_in_reused_slot :
    ∃ (trees : Bool → Linked Int) (pasts : Bool → History Int),
      Forest (fun _ => Keying.integers) (fun i => cond i 8 7) trees pasts ∧
      pasts false = [.issued ⟨7, 0, 1⟩ 6, .removed ⟨7, 0, 0⟩, .issued ⟨7, 0, 0⟩ 5] ∧
      (trees true).toList = [(⟨8, 0, 0⟩, 5)] ∧
      (trees false).Rejects ⟨7, 0, 0⟩ ∧ (trees true).Rejects ⟨7, 0, 1⟩ ∧
      ∃ v, (trees false).Resolves ⟨7, 0, 1⟩ v := by
  have h₀ : Forest (ι := Bool) (fun _ => Keying.integers) (fun i => cond i 8 7) _ _ := .empty
  have h := (((h₀.step false (.insert 5)).step false (.remove ⟨7, 0, 0⟩)).step false
    (.insert 6)).step true (.insert 5)
  have hinjective : Function.Injective fun i : Bool => cond i 8 7 := fun a b => by
    cases a <;> cases b <;> decide
  obtain ⟨hround, -, -, hrejects, -⟩ := handle_resolves_while_live hinjective h false
  obtain ⟨-, -, hforeign, -⟩ := handle_resolves_while_live hinjective h true
  have hold := (hround ⟨7, 0, 0⟩ 5 [.issued ⟨7, 0, 1⟩ 6, .removed ⟨7, 0, 0⟩] []
    (by decide +kernel) (by decide +kernel)).1
  have hnew := (hround ⟨7, 0, 1⟩ 6 [] [.removed ⟨7, 0, 0⟩, .issued ⟨7, 0, 0⟩ 5]
    (by decide +kernel) (by decide +kernel)).1
  refine ⟨_, _, h, by decide +kernel, by decide +kernel, hrejects _ fun hresolves => ?_,
    hforeign false ⟨7, 0, 1⟩ 6 (by decide) (by decide +kernel), hnew.mpr (by decide)⟩
  exact (hold.mp hresolves).1 (by decide)

end Forest

end Linked

end KernelMemory
