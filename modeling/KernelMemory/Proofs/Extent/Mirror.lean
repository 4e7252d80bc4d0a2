import KernelMemory.Proofs.Agreement
import KernelMemory.Proofs.Extent.Links
import KernelMemory.Proofs.Extent.Mutation

/-!
# Linked maps and maps with lists

A linked map mirrors a map that keeps every size class as a list if both hold the same
extents under the same handles, and the lists are what the links of the linked one trace.
Then each operation of the one does to it what the same operation does to the other: it ends
with the same verdict, and the maps it leaves mirror each other again.

There are three changes with anything in them. The index may change while no class is
concerned; an extent may leave its class; and one may join the class of its length. The
operations are blocks of these, line for line the same in both maps.
-/

namespace KernelMemory

open Operation (Agree)

namespace ExtentMap

/-- No class lists the extent of a handle. -/
def Unlisted (m : ExtentMap) (id : Handle) : Prop :=
  ∀ e, m.get? id = some e → e.listedIn = none

theorem delist_of_unlisted {m : ExtentMap} {id : Handle} (h : m.Unlisted id) : m.delist id = m := by
  unfold delist
  cases hget : m.get? id with
  | none => rfl
  | some e => simp only [h e hget]

theorem delist_of_listed {m : ExtentMap} {id : Handle} {e : Extent} {index : Nat}
    (hget : m.get? id = some e) (hlisted : e.listedIn = some index) :
    m.delist id =
      { m with
        index := m.index.modify id fun e => { e with listedIn := none }
        classes := m.classes.unlink index id } := by
  have hget' : m.index.get? id = some e := hget
  unfold delist Index.modify
  simp only [hget, hlisted, hget']

theorem list_of_free {m : ExtentMap} {id : Handle} {e : Extent} (hget : m.get? id = some e)
    (hfree : e.usage.isFree = true) :
    m.list id =
      { m with
        index := m.index.modify id fun d => { d with listedIn := some (sizeClass e.length) }
        classes := m.classes.link (sizeClass e.length) id } := by
  have hget' : m.index.get? id = some e := hget
  unfold list Index.modify
  simp only [hget, hfree, if_true, hget']

theorem list_of_used {m : ExtentMap} {id : Handle} {e : Extent} (hget : m.get? id = some e)
    (hused : e.usage.isFree = false) :
    m.list id = m.modify id fun d => { d with listedIn := none } := by
  have hget' : m.index.get? id = some e := hget
  unfold list modify Index.modify
  simp only [hget, hused, Bool.false_eq_true, if_false, hget']

end ExtentMap

namespace LinkedMap

/-- The maps hold the same extents, and the links of the first trace the lists of the
second. -/
structure Mirrors (x : LinkedMap) (m : ExtentMap) : Prop where
  name_eq : x.name = m.name
  region_eq : x.region = m.region
  index_eq : x.index.map LinkedExtent.extent = m.index
  sound : x.index.Sound
  room : x.index.slots.cells.size ≤ Slots.capacity
  lists : m.classes.Lists m.toList
  class_eq : ∀ index < SizeClasses.count, x.classOf index =
    ⟨(m.classes.get index).head?, (m.classes.get index).length⟩
  threads : ∀ index, x.Threads (m.classes.get index)
  loose : ∀ id e, x.get? id = some e → e.extent.listedIn = none → e.before = none ∧ e.after = none

namespace Mirrors

variable {x : LinkedMap} {m : ExtentMap} {id k : Handle} {e : LinkedExtent} {index : Nat}

/-! ## Reading -/

theorem get?_eq (h : x.Mirrors m) (id : Handle) : m.get? id = x.extent? id := by
  rw [ExtentMap.get?, ← h.index_eq, Index.get?_map]
  rfl

theorem get?_of (h : x.Mirrors m) (hget : x.get? id = some e) : m.get? id = some e.extent := by
  rw [h.get?_eq, extent?, hget, Option.map_some]

theorem exists_of_get? (h : x.Mirrors m) {e : Extent} (hget : m.get? id = some e) :
    ∃ e', x.get? id = some e' ∧ e'.extent = e := by
  rw [h.get?_eq, extent?] at hget
  exact Option.map_eq_some_iff.mp hget

theorem size_eq (h : x.Mirrors m) : x.size = m.size := by
  rw [ExtentMap.size, ← h.index_eq]
  rfl

theorem index_sound (h : x.Mirrors m) : m.index.Sound := by
  rw [← h.index_eq]
  exact (Index.sound_map _).mpr h.sound

theorem holds (h : x.Mirrors m) : m.Holds m.toList :=
  ⟨h.index_sound, rfl, h.lists⟩

theorem mem_toList_iff (h : x.Mirrors m) {e : Extent} :
    (id, e) ∈ m.toList ↔ ∃ e', x.get? id = some e' ∧ e'.extent = e := by
  rw [ExtentMap.toList, ← h.index_sound.get?_eq_some_iff]
  exact ⟨h.exists_of_get?, fun ⟨e', hget, he⟩ => he ▸ h.get?_of hget⟩

/-- The members of a class are the extents that record it. -/
theorem mem_class_iff (h : x.Mirrors m) :
    id ∈ m.classes.get index ↔ ∃ e, x.get? id = some e ∧ e.extent.listedIn = some index := by
  rw [h.lists.mem_iff]
  constructor
  · rintro ⟨e, hmem, hlisted⟩
    obtain ⟨e', hget, rfl⟩ := h.mem_toList_iff.mp hmem
    exact ⟨e', hget, hlisted⟩
  · rintro ⟨e, hget, hlisted⟩
    exact ⟨e.extent, h.mem_toList_iff.mpr ⟨e, hget, rfl⟩, hlisted⟩

/-- No extent is in two classes. -/
theorem index_unique (h : x.Mirrors m) {other : Nat} (hi : id ∈ m.classes.get index)
    (ho : id ∈ m.classes.get other) : index = other := by
  obtain ⟨e, hget, hlisted⟩ := h.mem_class_iff.mp hi
  obtain ⟨e', hget', hlisted'⟩ := h.mem_class_iff.mp ho
  obtain rfl := Option.some.inj (hget.symm.trans hget')
  exact Option.some.inj (hlisted.symm.trans hlisted')

theorem not_mem_class (h : x.Mirrors m) (hu : m.Unlisted id) (index : Nat) :
    id ∉ m.classes.get index := by
  intro hmem
  obtain ⟨e, hget, hlisted⟩ := h.mem_class_iff.mp hmem
  rw [hu e.extent (h.get?_of hget)] at hlisted
  cases hlisted

theorem length_class_le_size (h : x.Mirrors m) (index : Nat) :
    (m.classes.get index).length ≤ x.size := by
  have hsub : m.classes.get index ⊆ x.index.tree.handles := by
    intro id hid
    obtain ⟨e, hget, -⟩ := h.mem_class_iff.mp hid
    exact Tree.mem_handles.mpr ⟨e, Tree.mem_of_find? hget⟩
  refine Nat.le_trans ((h.lists.nodup index).subperm hsub).length_le ?_
  rw [Tree.length_handles, ← h.sound.size_eq]
  exact Nat.le_refl _

/-- There are no more extents than slot numbers. -/
theorem size_le (h : x.Mirrors m) : m.size ≤ Slots.capacity := by
  have hserved := h.sound.serves.length_le
  rw [Tree.length_handles, ← h.sound.size_eq] at hserved
  rw [← h.size_eq]
  exact Nat.le_trans hserved h.room

/-- The counter of a class stays far below its bound. -/
theorem length_class_le (h : x.Mirrors m) (index : Nat) :
    (m.classes.get index).length ≤ Slots.capacity :=
  Nat.le_trans (h.length_class_le_size index) (h.size_eq ▸ h.size_le)

/-! ## Outside the classes -/

/-- Extents in no class may come, go and change. -/
theorem withIndex (h : x.Mirrors m) {ix : Index LinkedExtent} (hs : ix.Sound)
    (hroom : ix.slots.cells.size ≤ Slots.capacity)
    (hlisted : ∀ k e, e.extent.listedIn.isSome → (ix.get? k = some e ↔ x.get? k = some e))
    (hloose : ∀ k e, ix.get? k = some e → e.extent.listedIn = none →
      e.before = none ∧ e.after = none) :
    (x.withIndex ix).Mirrors { m with index := ix.map LinkedExtent.extent } where
  name_eq := h.name_eq
  region_eq := h.region_eq
  index_eq := rfl
  sound := hs
  room := hroom
  lists := by
    refine h.lists.congr fun id e he => ?_
    rw [h.mem_toList_iff, ExtentMap.toList, Index.toList_map, List.mem_map]
    constructor
    · rintro ⟨⟨k, e'⟩, hmem, heq⟩
      obtain ⟨rfl, rfl⟩ := Prod.mk.inj heq
      exact ⟨e', (hlisted k e' he).mp (hs.get?_eq_some_iff.mpr hmem), rfl⟩
    · rintro ⟨e', hget, rfl⟩
      exact ⟨(id, e'), hs.get?_eq_some_iff.mp ((hlisted id e' he).mpr hget), rfl⟩
  class_eq := h.class_eq
  threads index := by
    refine (h.threads index).congr fun k hk e hget => ⟨e, ?_, rfl, rfl⟩
    obtain ⟨e', hget', hin⟩ := h.mem_class_iff.mp hk
    obtain rfl := Option.some.inj (hget.symm.trans hget')
    exact (hlisted k e (by simp [hin])).mpr hget
  loose := hloose

/-- An extent in no class may change, as long as it stays in none. -/
theorem withModified (h : x.Mirrors m) (hu : m.Unlisted id) {g : LinkedExtent → LinkedExtent}
    (hg : ∀ e, e.extent.listedIn = none → e.before = none → e.after = none →
      (g e).extent.listedIn = none ∧ (g e).before = none ∧ (g e).after = none) :
    (x.withIndex (x.index.modify id g)).Mirrors
      { m with index := (x.index.modify id g).map LinkedExtent.extent } := by
  -- what the handle names is in no class before, and in none afterwards
  have hself : ∀ e, x.index.get? id = some e → e.extent.listedIn = none ∧
      (g e).extent.listedIn = none ∧ (g e).before = none ∧ (g e).after = none := by
    intro e hget
    have hnone := hu e.extent (h.get?_of hget)
    obtain ⟨hbefore, hafter⟩ := h.loose id e hget hnone
    exact ⟨hnone, hg e hnone hbefore hafter⟩
  refine h.withIndex (h.sound.modify id g) (by rw [Index.slots_modify]; exact h.room) ?_ ?_
  · intro k e he
    rw [Index.get?_modify, LinkedMap.get?]
    by_cases hk : k = id
    · rw [if_pos hk, hk]
      constructor
      · intro hget
        obtain ⟨e', hget', rfl⟩ := Option.map_eq_some_iff.mp hget
        rw [(hself e' hget').2.1] at he
        cases he
      · intro hget
        rw [(hself e hget).1] at he
        cases he
    · rw [if_neg hk]
  · intro k e hget hnone
    rw [Index.get?_modify] at hget
    by_cases hk : k = id
    · rw [if_pos hk] at hget
      obtain ⟨e', hget', rfl⟩ := Option.map_eq_some_iff.mp hget
      exact (hself e' hget').2.2
    · rw [if_neg hk] at hget
      exact h.loose k e hget hnone

theorem modify (h : x.Mirrors m) (hu : m.Unlisted id) {g : LinkedExtent → LinkedExtent}
    {f : Extent → Extent} (hextent : ∀ e, (g e).extent = f e.extent)
    (hg : ∀ e, e.extent.listedIn = none → e.before = none → e.after = none →
      (g e).extent.listedIn = none ∧ (g e).before = none ∧ (g e).after = none) :
    (x.withIndex (x.index.modify id g)).Mirrors (m.modify id f) := by
  have hmirrors := h.withModified hu hg
  rw [Index.map_modify _ _ _ hextent, h.index_eq] at hmirrors
  exact hmirrors

/-! ## Leaving a class -/

theorem map_unlinkedIndex (h : x.Mirrors m) (id : Handle) (e : LinkedExtent) :
    (x.unlinkedIndex id e).map LinkedExtent.extent =
      m.index.modify id fun e => { e with listedIn := none } := by
  have hfirst : (x.index.modify id fun e =>
      ⟨{ e.extent with listedIn := none }, none, none⟩).map LinkedExtent.extent =
        m.index.modify id fun e => { e with listedIn := none } := by
    rw [← h.index_eq]
    exact Index.map_modify _ _ _ fun _ => rfl
  have hn : (m.index.modify id fun e => { e with listedIn := none }).tree.handles.Nodup :=
    (h.index_sound.modify id _).nodup
  rw [← hfirst] at hn ⊢
  rw [unlinkedIndex, Index.map_modifyBehind_self, Index.map_modifyBehind_self hn]
  · exact fun _ => rfl
  · rwa [Index.map_modifyBehind_self hn]
    exact fun _ => rfl
  · exact fun _ => rfl

/-- An extent stands in the list of its class, between `pre` and `post`. -/
structure Stands (x : LinkedMap) (m : ExtentMap) (id : Handle) (e : LinkedExtent) (index : Nat)
    (pre post : List Handle) : Prop where
  get?_eq : x.get? id = some e
  lt_count : index < SizeClasses.count
  class_eq : m.classes.get index = pre ++ id :: post
  before_eq : e.before = pre.getLast?
  after_eq : e.after = post.head?
  nodup : (pre ++ id :: post).Nodup

theorem exists_stands (h : x.Mirrors m) (hget : x.get? id = some e)
    (hlisted : e.extent.listedIn = some index) :
    ∃ pre post, Stands x m id e index pre post := by
  have hmem : id ∈ m.classes.get index := h.mem_class_iff.mpr ⟨e, hget, hlisted⟩
  have hindex : index < SizeClasses.count := by
    refine Nat.lt_of_not_le fun hge => ?_
    rw [SizeClasses.get_of_ge _ hge] at hmem
    cases hmem
  obtain ⟨pre, post, hclass⟩ := List.append_of_mem hmem
  obtain ⟨e', hget', hbefore, hafter⟩ := h.threads index pre id post hclass
  obtain rfl := Option.some.inj (hget.symm.trans hget')
  exact ⟨pre, post, hget, hindex, hclass, hbefore, hafter, hclass ▸ h.lists.nodup index⟩

namespace Stands

variable {pre post : List Handle}

theorem not_mem (s : Stands x m id e index pre post) : id ∉ pre ∧ id ∉ post := by
  have hn := s.nodup
  simp only [List.nodup_append, List.nodup_cons] at hn
  exact ⟨fun hid => hn.2.2 id hid id (by simp) rfl, hn.2.1.1⟩

theorem mem_of_before (s : Stands x m id e index pre post) (hk : e.before = some k) : k ∈ pre :=
  List.mem_of_getLast? (s.before_eq ▸ hk)

theorem mem_of_after (s : Stands x m id e index pre post) (hk : e.after = some k) : k ∈ post :=
  List.mem_of_head? (s.after_eq ▸ hk)

theorem get_unlink (s : Stands x m id e index pre post) (other : Nat) :
    (m.classes.unlink index id).get other =
      if index = other then pre ++ post else m.classes.get other := by
  rw [SizeClasses.unlink, SizeClasses.get_alter _ s.lt_count, s.class_eq,
    List.erase_append_right _ s.not_mem.1, List.erase_cons_head]

theorem get?_self (s : Stands x m id e index pre post) :
    (x.unlinked id e index).get? id = some ⟨{ e.extent with listedIn := none }, none, none⟩ :=
  get?_unlinked_self s.get?_eq (fun hid => s.not_mem.1 (s.mem_of_before hid))
    fun hid => s.not_mem.2 (s.mem_of_after hid)

/-- The neighbours are in the same class, so nothing outside of it changes. -/
theorem get?_of_not_mem (s : Stands x m id e index pre post) (hk : k ∉ m.classes.get index) :
    (x.unlinked id e index).get? k = x.get? k := by
  rw [s.class_eq, List.mem_append, List.mem_cons, not_or, not_or] at hk
  rw [get?_unlinked_of_ne hk.2.1]
  simp only [if_neg fun hlink => hk.2.2 (s.mem_of_after hlink),
    if_neg fun hlink => hk.1 (s.mem_of_before hlink), Option.map_id']

theorem class_unlinked (s : Stands x m id e index pre post) (h : x.Mirrors m) {other : Nat}
    (hother : other < SizeClasses.count) : (x.unlinked id e index).classOf other =
      ⟨((m.classes.unlink index id).get other).head?,
        ((m.classes.unlink index id).get other).length⟩ := by
  rw [LinkedMap.unlinked, classOf_withClass _ s.lt_count, classOf_withIndex, s.get_unlink]
  by_cases hne : index = other
  · rw [if_pos hne, if_pos hne, h.class_eq index s.lt_count, s.class_eq, s.before_eq, s.after_eq]
    cases pre with
    | nil => simp
    | cons first pre => simp [List.getLast?_cons, Nat.add_assoc]
  · rw [if_neg hne, if_neg hne, h.class_eq other hother]

theorem threads_unlinked (s : Stands x m id e index pre post) (h : x.Mirrors m) (other : Nat) :
    (x.unlinked id e index).Threads ((m.classes.unlink index id).get other) := by
  rw [s.get_unlink]
  split
  · refine (s.class_eq ▸ h.threads index).erase s.nodup fun k hk d hd => ?_
    have hkid : k ≠ id := by
      rintro rfl
      exact (List.mem_append.mp hk).elim s.not_mem.1 s.not_mem.2
    rw [get?_unlinked_of_ne hkid, hd, s.before_eq, s.after_eq]
    exact ⟨_, rfl, rfl, rfl⟩
  · next hne =>
    refine (h.threads other).congr fun k hk d hd => ⟨d, ?_, rfl, rfl⟩
    rw [s.get?_of_not_mem fun hin => hne (h.index_unique hin hk), hd]

theorem loose_unlinked (s : Stands x m id e index pre post) (h : x.Mirrors m) {d : LinkedExtent}
    (hd : (x.unlinked id e index).get? k = some d) (hnone : d.extent.listedIn = none) :
    d.before = none ∧ d.after = none := by
  by_cases hkid : k = id
  · rw [hkid, s.get?_self] at hd
    obtain rfl := Option.some.inj hd
    exact ⟨rfl, rfl⟩
  · rw [s.get?_of_not_mem ?_] at hd
    · exact h.loose k d hd hnone
    · intro hin
      obtain ⟨d', hd', hlisted'⟩ := h.mem_class_iff.mp hin
      rw [get?_unlinked_of_ne hkid, hd', Option.map_some, Option.some.injEq] at hd
      rw [← hd, hlisted'] at hnone
      cases hnone

/-- An extent has gone from its place in a class, wherever that was. -/
theorem unlinked (s : Stands x m id e index pre post) (h : x.Mirrors m)
    (hlisted : e.extent.listedIn = some index) :
    (x.unlinked id e index).Mirrors (m.delist id) := by
  have hget := h.get?_of s.get?_eq
  obtain ⟨front, back, hl⟩ := ExtentMap.exists_split hget
  have hholds := (hl ▸ h.holds : m.Holds _).delist
  rw [ExtentMap.delist_of_listed hget hlisted] at hholds ⊢
  exact
    { name_eq := h.name_eq
      region_eq := h.region_eq
      index_eq := h.map_unlinkedIndex id e
      sound := ((h.sound.modify id _).modifyBehind e.before _).modifyBehind e.after _
      room := by
        rw [LinkedMap.unlinked, index_withClass, index_withIndex, unlinkedIndex]
        simpa using h.room
      lists := hholds.toList_eq ▸ hholds.lists
      class_eq := fun _ hother => s.class_unlinked h hother
      threads := s.threads_unlinked h
      loose := fun _ _ => s.loose_unlinked h }

end Stands

/-- Unlinking takes an extent out of the list that holds it. -/
theorem delist (h : x.Mirrors m) (id : Handle) :
    Agree Mirrors (LinkedMap.delist id) (Operation.modify (ExtentMap.delist · id)) x m := by
  by_cases hu : m.Unlisted id
  · have hout : (LinkedMap.delist id).outcome x = (.ok (), x) := by
      rw [LinkedMap.delist, Operation.outcome_get_bind]
      cases hget : x.get? id with
      | none => rfl
      | some e => simp only [hu e.extent (h.get?_of hget), Operation.outcome_pure]
    refine .of_outcome hout (Operation.outcome_modify _ _) ?_
    rwa [ExtentMap.delist_of_unlisted hu]
  · simp only [ExtentMap.Unlisted, not_forall] at hu
    obtain ⟨_, hget', hne⟩ := hu
    obtain ⟨e, hget, rfl⟩ := h.exists_of_get? hget'
    obtain ⟨index, hlisted⟩ := Option.ne_none_iff_exists'.mp hne
    obtain ⟨pre, post, hs⟩ := h.exists_stands hget hlisted
    refine .of_outcome (outcome_delist hget hlisted hs.lt_count ?_) (Operation.outcome_modify _ _)
      (hs.unlinked h hlisted)
    rw [h.class_eq index hs.lt_count, hs.class_eq]
    exact List.length_pos_of_mem (List.mem_append_right pre (List.mem_cons_self ..))

/-! ## Joining a class -/

theorem map_linkedIndex (h : x.Mirrors m) (id : Handle) (index : Nat) (head : Option Handle) :
    (x.linkedIndex id index head).map LinkedExtent.extent =
      m.index.modify id fun e => { e with listedIn := some index } := by
  have hfirst : (x.index.modify id fun e => { e with before := none }).map LinkedExtent.extent =
      m.index := by
    rw [← h.index_eq]
    exact Index.map_modify_self _ h.sound.nodup id fun _ => rfl
  have hsecond : ((x.index.modify id fun e => { e with before := none }).modify id fun e =>
      { e with extent := { e.extent with listedIn := some index }, after := head }).map
        LinkedExtent.extent = m.index.modify id fun e => { e with listedIn := some index } := by
    rw [← hfirst]
    exact Index.map_modify _ _ _ fun _ => rfl
  have hn : (m.index.modify id fun e => { e with listedIn := some index }).tree.handles.Nodup :=
    (h.index_sound.modify id _).nodup
  rw [← hsecond] at hn ⊢
  exact Index.map_modifyBehind_self hn fun _ => rfl

section Joining

variable (h : x.Mirrors m) (hindex : index < SizeClasses.count)
include h hindex

theorem get?_linked_of_not_mem (hne : k ≠ id) (hk : k ∉ m.classes.get index) :
    (x.linked id index).get? k = x.get? k := by
  have haway : (x.classOf index).head ≠ some k := fun hhead => by
    rw [h.class_eq index hindex] at hhead
    exact hk (List.mem_of_head? hhead)
  rw [get?_linked_of_ne hne]
  simp only [if_neg haway, Option.map_id']

variable (hget : x.get? id = some e) (hu : m.Unlisted id)
include hget hu

theorem get?_linked : (x.linked id index).get? id = some
    ⟨{ e.extent with listedIn := some index }, none, (m.classes.get index).head?⟩ := by
  have hhead : (x.classOf index).head = (m.classes.get index).head? := by
    rw [h.class_eq index hindex]
  rw [get?_linked_self hget, hhead]
  rw [hhead]
  exact fun hid => h.not_mem_class hu index (List.mem_of_head? hid)

theorem threads_linked (other : Nat) :
    (x.linked id index).Threads ((m.classes.link index id).get other) := by
  have hne : ∀ other, ∀ k ∈ m.classes.get other, k ≠ id := by
    rintro other k hk rfl
    exact h.not_mem_class hu other hk
  rw [SizeClasses.link, SizeClasses.get_alter _ hindex]
  split
  · refine (h.threads index).cons (h.lists.nodup index)
      ⟨_, h.get?_linked hindex hget hu, rfl, rfl⟩ fun k hk d hd => ?_
    rw [get?_linked_of_ne (hne index k hk), hd, h.class_eq index hindex]
    exact ⟨_, rfl, rfl, rfl⟩
  · next hother =>
    refine (h.threads other).congr fun k hk d hd => ⟨d, ?_, rfl, rfl⟩
    rw [h.get?_linked_of_not_mem hindex (hne other k hk)
      fun hin => hother (h.index_unique hin hk), hd]

theorem loose_linked {d : LinkedExtent} (hd : (x.linked id index).get? k = some d)
    (hnone : d.extent.listedIn = none) : d.before = none ∧ d.after = none := by
  by_cases hkid : k = id
  · rw [hkid, h.get?_linked hindex hget hu] at hd
    obtain rfl := Option.some.inj hd
    cases hnone
  · rw [h.get?_linked_of_not_mem hindex hkid ?_] at hd
    · exact h.loose k d hd hnone
    · intro hin
      obtain ⟨d', hd', hlisted⟩ := h.mem_class_iff.mp hin
      rw [get?_linked_of_ne hkid, hd', Option.map_some, Option.some.injEq] at hd
      rw [← hd, hlisted] at hnone
      cases hnone

end Joining

/-- An extent that was in no class is the first of one. -/
theorem linked (h : x.Mirrors m) (hget : x.get? id = some e) (hu : m.Unlisted id)
    (hfree : e.extent.usage.isFree = true) :
    (x.linked id (sizeClass e.extent.length)).Mirrors (m.list id) := by
  have hindex : sizeClass e.extent.length < SizeClasses.count :=
    sizeClass_lt e.extent.range.length_lt_bound
  have hget' := h.get?_of hget
  obtain ⟨front, back, hl⟩ := ExtentMap.exists_split hget'
  have hholds := (hl ▸ h.holds : m.Holds _).list (hu _ hget')
  rw [ExtentMap.list_of_free hget' hfree] at hholds ⊢
  exact
    { name_eq := h.name_eq
      region_eq := h.region_eq
      index_eq := h.map_linkedIndex id _ _
      sound := ((h.sound.modify id _).modify id _).modifyBehind _ _
      room := by
        rw [LinkedMap.linked, index_withClass, index_withIndex, linkedIndex]
        simpa using h.room
      lists := hholds.toList_eq ▸ hholds.lists
      class_eq := by
        intro other hother
        rw [LinkedMap.linked, classOf_withClass _ hindex, classOf_withIndex, SizeClasses.link,
          SizeClasses.get_alter _ hindex, h.class_eq _ hindex, h.class_eq other hother]
        split <;> rfl
      threads := h.threads_linked hindex hget hu
      loose := fun _ _ => h.loose_linked hindex hget hu }

/-- An extent in use stays in no class. -/
theorem loosened (h : x.Mirrors m) (hget : x.get? id = some e) (hu : m.Unlisted id)
    (hused : e.extent.usage.isFree = false) : (x.loosened id).Mirrors (m.list id) := by
  have hfirst := h.withModified hu (g := fun e => { e with before := none })
    fun _ hlisted _ hafter => ⟨hlisted, rfl, hafter⟩
  rw [Index.map_modify_self (g := fun e => { e with before := none }) _ h.sound.nodup id
    fun _ => rfl, h.index_eq] at hfirst
  rw [ExtentMap.list_of_used (h.get?_of hget) hused]
  exact hfirst.modify hu (fun _ => rfl) fun _ _ hbefore _ => ⟨rfl, hbefore, rfl⟩

/-- Linking puts an extent in front of the list of its class. -/
theorem list (h : x.Mirrors m) (hu : m.Unlisted id) :
    Agree Mirrors (LinkedMap.list id) (Operation.modify (ExtentMap.list · id)) x m := by
  cases hget : x.get? id with
  | none =>
      have hget' : m.get? id = none := by rw [h.get?_eq, extent?, hget, Option.map_none]
      have hout : (LinkedMap.list id).outcome x = (.ok (), x) := by
        rw [LinkedMap.list, Operation.outcome_get_bind]
        simp only [extent?, hget, Option.map_none, Operation.outcome_pure]
      refine .of_outcome hout (Operation.outcome_modify _ _) ?_
      rw [ExtentMap.list]
      simp only [hget']
      exact h
  | some e =>
      cases hfree : e.extent.usage.isFree with
      | true =>
          have hindex : sizeClass e.extent.length < SizeClasses.count :=
            sizeClass_lt e.extent.range.length_lt_bound
          refine .of_outcome (outcome_list_of_free hget hfree ?_) (Operation.outcome_modify _ _)
            (h.linked hget hu hfree)
          rw [h.class_eq _ hindex]
          exact Nat.lt_of_le_of_lt (Nat.succ_le_succ (h.length_class_le _)) (by decide)
      | false =>
          exact .of_outcome (outcome_list_of_used hget hfree) (Operation.outcome_modify _ _)
            (h.loosened hget hu hfree)

end Mirrors

end LinkedMap

end KernelMemory
