import KernelMemory.Index.Audit
import KernelMemory.Proofs.Index.Slots
import KernelMemory.Proofs.Outcome
import KernelMemory.Proofs.Tree.Balance
import KernelMemory.Proofs.Tree.Sequence

/-!
# Sound indexes

An index is sound if its tree is balanced, its size counts the nodes, and its slots serve
the handles in the tree. Every operation keeps this, whatever the keying is. What an
operation does besides is said in terms of the sequence of handles and values: where the
new pair goes, which pair is gone, which value is another one.
-/

namespace KernelMemory

theorem Tree.Balanced.audit_eq {α : Type} {t : Tree α} (h : t.Balanced) :
    t.audit = .ok t.height := by
  induction t with
  | nil => rfl
  | node left x v height right ihl ihr =>
      obtain ⟨hl, hr, rfl, hle, hge⟩ := h
      rw [audit, ihl hl, ihr hr]
      show (if _ ≠ _ then _ else if _ then _ else _) = _
      rw [if_neg (not_not_intro rfl), if_neg (by omega)]
      rfl

namespace Index

variable {α κ : Type}

/-- The tree, the size and the slots agree. -/
structure Sound (ix : Index α) : Prop where
  balanced : ix.tree.Balanced
  size_eq : ix.size = ix.tree.size
  serves : ix.slots.Serves ix.owner ix.tree.handles

theorem sound_empty (owner : Nat) : (empty owner : Index α).Sound :=
  ⟨Tree.balanced_nil, rfl, .empty owner⟩

theorem Sound.nodup {ix : Index α} (h : ix.Sound) : ix.tree.handles.Nodup :=
  h.serves.nodup

theorem Sound.length_toList {ix : Index α} (h : ix.Sound) : ix.toList.length = ix.size := by
  rw [toList, Tree.length_toList, h.size_eq]

/-! ## Reading -/

theorem Sound.get?_eq_some_iff {ix : Index α} (h : ix.Sound) {id : Handle} {v : α} :
    ix.get? id = some v ↔ (id, v) ∈ ix.toList :=
  Tree.find?_eq_some_iff h.nodup

theorem Sound.get?_of_split {ix : Index α} (h : ix.Sound) {id : Handle} {v : α}
    {pre post : List (Handle × α)} (hl : ix.toList = pre ++ (id, v) :: post) :
    ix.get? id = some v :=
  Tree.find?_of_split h.nodup hl

/-- The place of a handle that resolves. -/
theorem exists_split {ix : Index α} {id : Handle} {v : α} (h : ix.get? id = some v) :
    ∃ pre post, ix.toList = pre ++ (id, v) :: post :=
  List.append_of_mem (Tree.mem_of_find? h)

theorem Sound.successor?_eq {ix : Index α} (h : ix.Sound) {id : Handle} {v : α}
    {pre post : List (Handle × α)} (hl : ix.toList = pre ++ (id, v) :: post) :
    ix.successor? id = post.head?.map Prod.fst :=
  Tree.successor?_eq h.nodup hl

theorem Sound.predecessor?_eq {ix : Index α} (h : ix.Sound) {id : Handle} {v : α}
    {pre post : List (Handle × α)} (hl : ix.toList = pre ++ (id, v) :: post) :
    ix.predecessor? id = pre.getLast?.map Prod.fst :=
  Tree.predecessor?_eq h.nodup hl

/-! ## Overwriting -/

theorem Sound.toList_set {ix : Index α} (h : ix.Sound) {id : Handle} {v : α}
    {pre post : List (Handle × α)} (hl : ix.toList = pre ++ (id, v) :: post) (new : α) :
    (ix.set id new).toList = pre ++ (id, new) :: post :=
  Tree.toList_set h.nodup hl new

theorem Sound.set {ix : Index α} (h : ix.Sound) {id : Handle} {v : α}
    {pre post : List (Handle × α)} (hl : ix.toList = pre ++ (id, v) :: post) (new : α) :
    (ix.set id new).Sound := by
  have hset := h.toList_set hl new
  have hhandles : (ix.set id new).tree.handles = ix.tree.handles := by
    show (ix.set id new).toList.map Prod.fst = ix.toList.map Prod.fst
    rw [hset, hl]
    simp
  refine ⟨h.balanced.set id new, ?_, ?_⟩
  · show ix.size = (ix.set id new).tree.size
    rw [h.size_eq, ← Tree.length_toList, ← Tree.length_toList]
    show ix.toList.length = (ix.set id new).toList.length
    rw [hset, hl]
    simp
  · rw [hhandles]
    exact h.serves

theorem Sound.modify {ix : Index α} (h : ix.Sound) (id : Handle) (f : α → α) :
    (ix.modify id f).Sound := by
  unfold Index.modify
  cases hget : ix.get? id with
  | none => exact h
  | some v =>
      obtain ⟨pre, post, hl⟩ := exists_split hget
      exact h.set hl (f v)

@[simp] theorem slots_modify (ix : Index α) (id : Handle) (f : α → α) :
    (ix.modify id f).slots = ix.slots := by
  unfold Index.modify
  split <;> rfl

/-! ## Inserting -/

theorem outcome_noteRotations (rotations : List Rotation) (ix : Index α) :
    (noteRotations rotations).outcome ix = (.ok (), ix) := by
  induction rotations with
  | nil => rfl
  | cons r rest ih =>
      show (Operation.note _ _ >>= fun _ => noteRotations rest).outcome ix = _
      rw [Operation.outcome_note_bind]
      exact ih

theorem outcome_insert_of_found {keying : Keying α κ} {value : α} {ix : Index α}
    {found : Handle × α}
    (h : ix.tree.search (keying.locate (keying.key value)) .exact = some found) :
    (insert keying value).outcome ix = (.error (.collision found.1), ix) := by
  rw [insert, Operation.outcome_get_bind]
  simp only [h, Operation.outcome_refuse]

/-- Where the search meets nothing, it is the slot that decides how the insertion ends. -/
theorem outcome_insert_of_absent {keying : Keying α κ} {value : α} {ix : Index α}
    (h : ix.tree.search (keying.locate (keying.key value)) .exact = none) :
    (insert keying value).outcome ix =
      match (Slots.take ix.owner).outcome ix.slots with
      | (.ok id, slots) => (.ok id, ⟨ix.owner, slots,
          (ix.tree.insert (keying.locate (keying.key value)) id value).tree, ix.size + 1⟩)
      | (.error e, slots) => (.error e, { ix with slots := slots })
      | (.fault f, slots) => (.fault f, { ix with slots := slots }) := by
  rw [insert, Operation.outcome_get_bind]
  simp only [h]
  rw [Operation.outcome_bind, Operation.outcome_within]
  rcases (Slots.take ix.owner).outcome ix.slots with ⟨id | e | f, slots⟩
  · simp only [Operation.outcome_modify_bind]
    rw [Operation.outcome_bind_ok (outcome_noteRotations _ _), Operation.outcome_pure]
  · rfl
  · rfl

theorem outcome_insert_of_stopped {keying : Keying α κ} {value : α} {ix : Index α} {fault : Fault}
    (h : ix.tree.search (keying.locate (keying.key value)) .exact = none)
    (ht : (Slots.take ix.owner).outcome ix.slots = (.fault fault, ix.slots)) :
    (insert keying value).outcome ix = (.fault fault, ix) := by
  rw [outcome_insert_of_absent h, ht]

theorem outcome_insert_of_taken {keying : Keying α κ} {value : α} {ix : Index α} {id : Handle}
    {slots : Slots} (h : ix.tree.search (keying.locate (keying.key value)) .exact = none)
    (ht : (Slots.take ix.owner).outcome ix.slots = (.ok id, slots)) :
    (insert keying value).outcome ix =
      (.ok id, ⟨ix.owner, slots,
        (ix.tree.insert (keying.locate (keying.key value)) id value).tree, ix.size + 1⟩) := by
  rw [outcome_insert_of_absent h, ht]

/-- The pair `(id, value)`, with a handle that was not in use, has come in between `pre`
and `post`. -/
structure Gained (ix : Index α) (id : Handle) (value : α) (pre post : List (Handle × α))
    (ix' : Index α) : Prop where
  sound : ix'.Sound
  owner_eq : ix'.owner = ix.owner
  fresh : id ∉ ix.tree.handles
  before : ix.toList = pre ++ post
  after : ix'.toList = pre ++ (id, value) :: post

/-- Whatever the keying is, a value is refused for the stored one that the search meets, or
it comes in where the search ended. If its key sorts the stored ones, that is behind those it
does not lie below. Only lack of slots can prevent it. -/
theorem Sound.insert_cases {ix : Index α} (h : ix.Sound) (keying : Keying α κ) (value : α) :
    (∃ found, ix.tree.search (keying.locate (keying.key value)) .exact = some found ∧
        (insert keying value).outcome ix = (.error (.collision found.1), ix)) ∨
      (∃ slots, (insert keying value).outcome ix = (.fault (.slotsExhausted slots), ix) ∧
        Slots.capacity ≤ ix.size) ∨
      ∃ id ix' pre post, (insert keying value).outcome ix = (.ok id, ix') ∧
        ix.Gained id value pre post ix' ∧
        (Tree.Sorts (keying.locate (keying.key value)) ix.toList →
          (∀ p ∈ pre, keying.locate (keying.key value) p.2 ≠ .lt) ∧
          ∀ p ∈ post, keying.locate (keying.key value) p.2 = .lt) := by
  cases hs : ix.tree.search (keying.locate (keying.key value)) .exact with
  | some found => exact .inl ⟨found, rfl, outcome_insert_of_found hs⟩
  | none =>
      rcases h.serves.take_cases with ⟨id, slots, ht⟩ | ⟨ht, hfull⟩
      · obtain ⟨hfresh, hserves⟩ := h.serves.take ht
        obtain ⟨pre, post, hl, hins, hsides⟩ :=
          Tree.exists_toList_insert (keying.locate (keying.key value)) id value ix.tree
        have hperm : ((pre ++ (id, value) :: post).map Prod.fst).Perm
            (id :: ix.tree.handles) := by
          rw [Tree.handles, hl]
          exact List.perm_middle.map Prod.fst
        refine .inr (.inr ⟨id, ⟨ix.owner, slots, (ix.tree.insert _ id value).tree,
          ix.size + 1⟩, pre, post, outcome_insert_of_taken hs ht,
          ⟨⟨?_, ?_, ?_⟩, rfl, hfresh, hl, hins⟩, hsides⟩)
        · exact (Tree.insert_settles h.balanced _ id value).balanced
        · show ix.size + 1 = _
          rw [← Tree.length_toList, hins, h.size_eq, ← Tree.length_toList, hl]
          simp
          omega
        · refine hserves.congr ?_ ?_
          · rw [Tree.handles, hins]
            exact hperm.nodup_iff.mpr hserves.nodup
          · intro x
            rw [Tree.handles, hins]
            exact hperm.mem_iff
      · refine .inr (.inl ⟨ix.slots.cells.size, outcome_insert_of_stopped hs ht, ?_⟩)
        rwa [Tree.handles, List.length_map, Tree.length_toList, ← h.size_eq] at hfull

/-- A value that equals no stored one, and whose key sorts the stored ones, goes between
those it lies above and those it lies below. -/
theorem Sound.outcome_insert {ix : Index α} (h : ix.Sound) {keying : Keying α κ} {value : α}
    (hs : Tree.Sorts (keying.locate (keying.key value)) ix.toList)
    (hne : ∀ p ∈ ix.toList, keying.locate (keying.key value) p.2 ≠ .eq) :
    (∃ slots, (insert keying value).outcome ix = (.fault (.slotsExhausted slots), ix) ∧
        Slots.capacity ≤ ix.size) ∨
      ∃ id ix' pre post, (insert keying value).outcome ix = (.ok id, ix') ∧
        ix.Gained id value pre post ix' ∧
        (∀ p ∈ pre, keying.locate (keying.key value) p.2 = .gt) ∧
        ∀ p ∈ post, keying.locate (keying.key value) p.2 = .lt := by
  rcases h.insert_cases keying value with
    ⟨found, hfound, -⟩ | hfull | ⟨id, ix', pre, post, hout, hg, hsides⟩
  · have hnone := (Tree.search_exact_eq_none_iff hs).mpr hne
    rw [hfound] at hnone
    cases hnone
  · exact .inl hfull
  · obtain ⟨hpre, hpost⟩ := hsides hs
    refine .inr ⟨id, ix', pre, post, hout, hg, ?_, hpost⟩
    intro p hp
    have hmem : p ∈ ix.toList := by
      rw [hg.before]
      exact List.mem_append_left post hp
    have hequal := hne p hmem
    have hbelow := hpre p hp
    cases hcompare : keying.locate (keying.key value) p.2 with
    | lt => exact absurd hcompare hbelow
    | eq => exact absurd hcompare hequal
    | gt => rfl

/-! ## Removing -/

/-- The pair of `id` has gone from between `pre` and `post`. -/
structure Lost (ix : Index α) (id : Handle) (value : α) (pre post : List (Handle × α))
    (ix' : Index α) : Prop where
  sound : ix'.Sound
  owner_eq : ix'.owner = ix.owner
  before : ix.toList = pre ++ (id, value) :: post
  after : ix'.toList = pre ++ post

theorem Sound.outcome_remove {ix : Index α} (h : ix.Sound) {id : Handle} {value : α}
    {pre post : List (Handle × α)} (hl : ix.toList = pre ++ (id, value) :: post) :
    ∃ ix', (remove id).outcome ix = (.ok value, ix') ∧ ix.Lost id value pre post ix' := by
  have hid : id ∈ ix.tree.handles := Tree.mem_handles_of_split hl
  obtain ⟨v, c, hr⟩ := Tree.exists_remove? hid
  obtain ⟨pre', post', hl', hc⟩ := Tree.toList_remove? hr
  have hn : ((pre ++ (id, value) :: post).map Prod.fst).Nodup := by
    rw [← hl]
    exact h.nodup
  obtain ⟨rfl, rfl, rfl⟩ := Tree.split_unique hn (hl.symm.trans hl')
  have hperm : ((pre ++ (id, value) :: post).map Prod.fst).Perm
      (id :: (pre ++ post).map Prod.fst) := List.perm_middle.map Prod.fst
  have hcons : (id :: (pre ++ post).map Prod.fst).Nodup := hperm.nodup_iff.mp hn
  rw [List.nodup_cons] at hcons
  refine ⟨⟨ix.owner, ix.slots.release id.slot, c.tree, ix.size - 1⟩, ?_, ⟨?_, ?_, ?_⟩, rfl, hl,
    hc⟩
  · rw [remove, Operation.outcome_get_bind]
    simp only [hr, Operation.outcome_set_bind]
    rw [Operation.outcome_bind_ok (outcome_noteRotations _ _), Operation.outcome_pure]
  · exact (Tree.remove?_settles h.balanced hr).balanced
  · show ix.size - 1 = _
    rw [← Tree.length_toList, hc, h.size_eq, ← Tree.length_toList]
    show ix.toList.length - 1 = _
    rw [hl]
    simp
  · refine h.serves.release hid ?_ ?_
    · rw [Tree.handles, hc]
      exact hcons.2
    · intro x
      rw [Tree.handles, hc, Tree.handles]
      show _ ↔ x ∈ ix.toList.map Prod.fst ∧ x ≠ id
      rw [hl, hperm.mem_iff, List.mem_cons]
      exact ⟨fun hx => ⟨.inr hx, fun e => hcons.1 (e ▸ hx)⟩, fun hx => hx.1.resolve_left hx.2⟩

theorem outcome_remove_of_found {ix : Index α} {id : Handle} {value : α} {c : Change α}
    (h : ix.tree.remove? id = some (value, c)) :
    (remove id).outcome ix =
      (.ok value, ⟨ix.owner, ix.slots.release id.slot, c.tree, ix.size - 1⟩) := by
  rw [remove, Operation.outcome_get_bind]
  simp only [h, Operation.outcome_set_bind]
  rw [Operation.outcome_bind_ok (outcome_noteRotations _ _), Operation.outcome_pure]

theorem outcome_remove_of_stale {ix : Index α} {id : Handle} (h : id ∉ ix.tree.handles) :
    (remove id).outcome ix = (.error (.stale id), ix) := by
  rw [remove, Operation.outcome_get_bind]
  simp only [Tree.remove?_eq_none h, Operation.outcome_refuse]

/-! ## Opened slots -/

theorem size_slots_insert {ix : Index α} (h : ix.slots.cells.size ≤ Slots.capacity)
    (keying : Keying α κ) (value : α) :
    ((insert keying value).outcome ix).2.slots.cells.size ≤ Slots.capacity := by
  cases hs : ix.tree.search (keying.locate (keying.key value)) .exact with
  | some found =>
      rw [outcome_insert_of_found hs]
      exact h
  | none =>
      have htaken := Slots.size_outcome_take ix.owner h
      rw [outcome_insert_of_absent hs]
      rcases ht : (Slots.take ix.owner).outcome ix.slots with ⟨id | e | f, slots⟩ <;>
        rwa [ht] at htaken

theorem size_slots_remove {ix : Index α} (h : ix.slots.cells.size ≤ Slots.capacity)
    (id : Handle) : ((remove id).outcome ix).2.slots.cells.size ≤ Slots.capacity := by
  rw [remove, Operation.outcome_get_bind]
  cases ix.tree.remove? id with
  | none => exact h
  | some removed =>
      simp only [Operation.outcome_set_bind]
      rw [Operation.outcome_bind_ok (outcome_noteRotations _ _), Operation.outcome_pure]
      exact Nat.le_trans (Nat.le_of_eq (Slots.size_release _ _)) h

/-! ## Clearing -/

theorem Sound.clear {ix : Index α} (h : ix.Sound) : ix.clear.Sound :=
  ⟨Tree.balanced_nil, rfl, h.serves.clear⟩

/-! ## Auditing -/

/-- A sound index has no defect but, perhaps, values out of order. -/
theorem Sound.audit_eq {ix : Index α} (h : ix.Sound) {keying : Keying α κ}
    (hord : firstDisorder? keying ix.toList = none) : ix.audit keying = .ok () := by
  rw [audit, h.balanced.audit_eq]
  show (if ix.tree.size ≠ ix.size then _ else _) = _
  rw [if_neg (not_not_intro h.size_eq.symm), hord]

end Index

end KernelMemory
