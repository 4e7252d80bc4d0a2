import KernelMemory.Extent.Audit
import KernelMemory.Proofs.Checks
import KernelMemory.Proofs.Extent.Address
import Mathlib.Algebra.Ring.Nat
import Mathlib.Data.List.Nodup

/-!
# What an audit of a sound map finds

A sound map can only fail its audit by not being a partition: its index has no defect, its
extents are in order, and its size classes list what they should. The last of these needs a
count, since the audit compares the number of members of all classes with the number of
extents that are listed; both count the same handles, each once.

So an audit decides whether a sound map is a partition (`Sound.audit_eq_ok_iff`).
-/

namespace KernelMemory

namespace ExtentMap

def Unmerged (l : List (Handle × Extent)) : Prop :=
  l.IsChain fun p q => p.2.usage ≠ q.2.usage

/-- The extents tile the region, and no two neighbours have one usage. -/
structure Partition (m : ExtentMap) : Prop where
  tiles : Tiles m.region.start m.toList m.region.stop
  unmerged : Unmerged m.toList

/-! ## The tiling -/

theorem auditTiling_eq_ok_iff {p : Handle × Extent} {l : List (Handle × Extent)} {stop : Nat} :
    auditTiling p.2 (l.map Prod.snd) = .ok stop ↔
      Tiles p.2.stop l stop ∧ Unmerged (p :: l) := by
  induction l generalizing p with
  | nil => simp [auditTiling, Tiles, Unmerged]
  | cons q l ih =>
      rw [List.map_cons, auditTiling, Unmerged, List.isChain_cons_cons]
      by_cases hgap : p.2.stop = q.2.start
      · rw [if_neg (not_not_intro hgap)]
        by_cases hsame : p.2.usage = q.2.usage
        · simp [hsame]
        · rw [if_neg hsame, ih, Tiles, Unmerged]
          simp [hgap, hsame]
      · rw [if_pos hgap, Tiles]
        simp [Ne.symm hgap]

theorem auditPartition_eq_ok_iff {region : Range} {l : List (Handle × Extent)} :
    auditPartition region (l.map Prod.snd) = .ok () ↔
      Tiles region.start l region.stop ∧ Unmerged l := by
  cases l with
  | nil =>
      have hlt := region.start_lt_stop
      simp only [List.map_nil, auditPartition, Tiles, reduceCtorEq, false_iff, not_and]
      omega
  | cons p l =>
      rw [List.map_cons, auditPartition, Tiles]
      by_cases hstart : p.2.start = region.start
      · rw [if_neg (not_not_intro hstart), bind_eq_ok_iff]
        constructor
        · rintro ⟨stop, htiling, hstop⟩
          obtain ⟨ht, hu⟩ := auditTiling_eq_ok_iff.mp htiling
          split at hstop
          · simp at hstop
          · next heq =>
            rw [not_not] at heq
            exact ⟨⟨hstart, heq ▸ ht⟩, hu⟩
        · rintro ⟨⟨-, ht⟩, hu⟩
          exact ⟨region.stop, auditTiling_eq_ok_iff.mpr ⟨ht, hu⟩, if_neg (not_not_intro rfl)⟩
      · rw [if_pos hstart]
        simp [hstart]

/-! ## The size classes -/

section Classes

variable {m : ExtentMap}

theorem Sound.auditMembership_eq (h : m.Sound) {p : Handle × Extent} (hp : p ∈ m.toList) :
    auditMembership p.2 = .ok () := by
  rw [auditMembership, h.listing p hp, Extent.listing]
  cases p.2.usage.isFree <;> rfl

theorem Sound.mem_members_iff (h : m.Sound) {index : Nat} {p : Handle × Extent} :
    p ∈ m.members index ↔ p ∈ m.toList ∧ p.2.listing = some index := by
  obtain ⟨id, e⟩ := p
  simp only [members, List.mem_filterMap, Option.map_eq_some_iff, Prod.mk.injEq]
  constructor
  · rintro ⟨_, hid, _, hget, rfl, rfl⟩
    obtain ⟨e', he', hlisted⟩ := (h.lists.mem_iff _ _).mp hid
    have hmem := h.index.get?_eq_some_iff.mp hget
    obtain rfl := Option.some.inj ((h.index.get?_eq_some_iff.mpr he').symm.trans hget)
    exact ⟨hmem, by rw [← h.listing _ hmem]; exact hlisted⟩
  · rintro ⟨hmem, hlisting⟩
    refine ⟨id, (h.lists.mem_iff _ _).mpr ⟨e, hmem, ?_⟩, e, h.index.get?_eq_some_iff.mpr hmem,
      rfl, rfl⟩
    rw [h.listing _ hmem]
    exact hlisting

/-- A class has as members the free extents of its lengths. -/
theorem Sound.mem_class_iff (h : m.Sound) {index : Nat} {p : Handle × Extent} :
    p ∈ m.members index ↔ p ∈ m.toList ∧ p.2.usage = .free ∧ sizeClass p.2.length = index := by
  rw [h.mem_members_iff, Extent.listing_eq_some_iff]

theorem Sound.sizeClass_of_mem_members (h : m.Sound) {index : Nat} {p : Handle × Extent}
    (hp : p ∈ m.members index) : sizeClass p.2.length = index :=
  (h.mem_class_iff.mp hp).2.2

theorem Sound.length_members (h : m.Sound) (index : Nat) :
    (m.members index).length = m.memberCount index := by
  rw [members, memberCount, List.filterMap_length_eq_length]
  intro id hid
  obtain ⟨e, hmem, -⟩ := (h.lists.mem_iff index id).mp hid
  rw [show m.get? id = some e from h.index.get?_eq_some_iff.mpr hmem]
  rfl

theorem Sound.auditClass_eq (h : m.Sound) (index : Nat) :
    m.auditClass index = .ok (m.memberCount index) := by
  have hmembers : ∀ p ∈ m.members index,
      p.2.listedIn = some index ∧ sizeClass p.2.length = index := by
    intro p hp
    obtain ⟨hmem, hlisting⟩ := h.mem_members_iff.mp hp
    exact ⟨(h.listing p hmem).trans hlisting, h.sizeClass_of_mem_members hp⟩
  rw [auditClass, bind_eq_ok_iff]
  refine ⟨(), forM_eq_ok_iff.mpr fun p hp => if_pos (hmembers p hp), ?_⟩
  rw [if_neg (not_not_intro (h.length_members index)), h.length_members]

theorem Sound.sum_memberCount (h : m.Sound) :
    ((List.range SizeClasses.count).map m.memberCount).sum =
      (m.extents.filter fun e => e.listedIn.isSome).length := by
  have hperm : ((List.range SizeClasses.count).flatMap m.classes.get).Perm
      ((m.toList.filter fun p => p.2.listedIn.isSome).map Prod.fst) := by
    refine (List.perm_ext_iff_of_nodup ?_ ?_).mpr ?_
    · refine List.nodup_flatMap.mpr ⟨fun index _ => h.lists.nodup index, ?_⟩
      refine List.nodup_range.imp fun {i j} hne id hi hj => hne ?_
      obtain ⟨e, he, hlisted⟩ := (h.lists.mem_iff i id).mp hi
      obtain ⟨e', he', hlisted'⟩ := (h.lists.mem_iff j id).mp hj
      obtain rfl := Option.some.inj
        ((h.index.get?_eq_some_iff.mpr he).symm.trans (h.index.get?_eq_some_iff.mpr he'))
      exact Option.some.inj (hlisted.symm.trans hlisted')
    · exact h.index.nodup.sublist (List.filter_sublist.map Prod.fst)
    · intro id
      simp only [List.mem_flatMap, List.mem_range, h.lists.mem_iff, List.mem_map,
        List.mem_filter, Prod.exists, exists_and_right, exists_eq_right]
      constructor
      · rintro ⟨index, -, e, hmem, hlisted⟩
        exact ⟨e, hmem, by rw [hlisted]; rfl⟩
      · rintro ⟨e, hmem, hsome⟩
        obtain ⟨index, hlisted⟩ := Option.isSome_iff_exists.mp hsome
        exact ⟨index, Extent.listing_lt ((h.listing _ hmem).symm.trans hlisted), e, hmem, hlisted⟩
  calc ((List.range SizeClasses.count).map m.memberCount).sum
      = ((List.range SizeClasses.count).flatMap m.classes.get).length := List.length_flatMap.symm
    _ = (m.toList.filter fun p => p.2.listedIn.isSome).length := by
        rw [hperm.length_eq, List.length_map]
    _ = (m.extents.filter fun e => e.listedIn.isSome).length := by
        rw [extents, List.filter_map, List.length_map]
        rfl

end Classes

/-! ## The audit -/

theorem Ordered.firstDisorder?_eq_none {l : List (Handle × Extent)} (h : Ordered l) :
    Index.firstDisorder? Extent.keying l = none := by
  induction l with
  | nil => rfl
  | cons p l ih =>
      cases l with
      | nil => rfl
      | cons q l =>
          have hpq : p.2.stop ≤ q.2.start := (List.pairwise_cons.mp h).1 q List.mem_cons_self
          have hlt : Extent.keying.compare p.2.range q.2.range = .lt := if_pos hpq
          rw [Index.firstDisorder?]
          exact (if_pos hlt).trans (ih (List.Pairwise.of_cons h))

/-- The audit of a sound map comes down to the audit of its partition. -/
theorem Sound.audit_eq {m : ExtentMap} (h : m.Sound) :
    m.audit = auditPartition m.region m.extents := by
  rw [audit, h.index.audit_eq h.ordered.firstDisorder?_eq_none]
  simp only
  cases hpartition : auditPartition m.region m.extents with
  | error violation => rfl
  | ok _ =>
      refine bind_eq_ok_iff.mpr ⟨(), rfl, bind_eq_ok_iff.mpr ⟨(), forM_eq_ok_iff.mpr ?_,
        bind_eq_ok_iff.mpr ⟨_, mapM_eq_ok fun index _ => h.auditClass_eq index, ?_⟩⟩⟩
      · intro e he
        obtain ⟨p, hp, rfl⟩ := List.mem_map.mp he
        exact h.auditMembership_eq hp
      · exact if_neg (not_not_intro h.sum_memberCount)

theorem Sound.audit_eq_ok_iff {m : ExtentMap} (h : m.Sound) :
    m.audit = .ok () ↔ m.Partition := by
  rw [h.audit_eq, extents, auditPartition_eq_ok_iff]
  exact ⟨fun ⟨ht, hu⟩ => ⟨ht, hu⟩, fun hp => ⟨hp.tiles, hp.unmerged⟩⟩

end ExtentMap

end KernelMemory
