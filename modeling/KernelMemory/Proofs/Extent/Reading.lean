import KernelMemory.Proofs.Extent.Checked
import KernelMemory.Proofs.Extent.Search

/-!
# Reading a linked map

Searches and sums on a linked map answer what they answer on the sound map that it mirrors,
and leave it alone. An iteration of a size class gives the members in their order, so a scan
of classes makes the same choice. A sum of lengths cannot leave its range, since extents that
do not meet take up no more of the region than there is.
-/

namespace KernelMemory

namespace ExtentMap

/-- Extents in order take up no more than the stretch that they lie in. -/
theorem Ordered.sum_length_le {l : List (Handle × Extent)} (h : Ordered l) {start stop : Nat}
    (hle : start ≤ stop) (hstart : ∀ p ∈ l, start ≤ p.2.start)
    (hstop : ∀ p ∈ l, p.2.stop ≤ stop) :
    start + (l.map fun p => p.2.length).sum ≤ stop := by
  induction l generalizing start with
  | nil => simpa using hle
  | cons p l ih =>
      obtain ⟨hp, hrest⟩ := List.pairwise_cons.mp h
      have hlt := p.2.start_lt_stop
      have hlo := hstart p List.mem_cons_self
      have hhi := hstop p List.mem_cons_self
      have hlength : p.2.length = p.2.stop - p.2.start := rfl
      have htail := ih hrest hhi hp fun q hq => hstop q (List.mem_cons_of_mem p hq)
      rw [List.map_cons, List.sum_cons]
      omega

theorem bytesOf_eq (m : ExtentMap) (usage : Usage) :
    m.bytesOf usage = ((m.toList.filter (·.2.usage = usage)).map (·.2.length)).sum := by
  rw [bytesOf, extents, List.filter_map, List.map_map]
  rfl

/-- The extents of one usage are no longer together than the region. -/
theorem Sound.bytesOf_le {m : ExtentMap} (h : m.Sound) (usage : Usage) :
    m.bytesOf usage ≤ m.region.length := by
  have hin : ∀ p ∈ m.toList.filter (·.2.usage = usage), m.region.encloses p.2.range = true :=
    fun p hp => h.inside p (List.mem_of_mem_filter hp)
  have hord : Ordered (m.toList.filter (·.2.usage = usage)) :=
    List.Pairwise.sublist List.filter_sublist h.ordered
  have hsum := hord.sum_length_le (Nat.le_of_lt m.region.start_lt_stop)
    (fun p hp => (Range.encloses_iff.mp (hin p hp)).1)
    fun p hp => (Range.encloses_iff.mp (hin p hp)).2
  rw [bytesOf_eq, Range.length]
  omega

end ExtentMap

namespace LinkedMap.Checked

variable {x : LinkedMap} {m : ExtentMap}

theorem extents_eq (h : x.Mirrors m) : extents x = m.toList := by
  rw [ExtentMap.toList, ← h.index_eq, Index.toList_map]
  rfl

/-! ## Size classes -/

theorem outcome_members (h : x.Mirrors m) {index : Nat} (hindex : index < SizeClasses.count) :
    (members index).outcome x = (.ok (m.members index), x) := by
  obtain ⟨found, hout, hfst, hfound⟩ := h.outcome_listing hindex
  have heq : m.members index = found.map unlinked := by
    rw [ExtentMap.members, ← hfst, List.filterMap_map, ← List.filterMap_eq_map]
    refine List.filterMap_congr fun p hp => ?_
    simp only [Function.comp_apply, h.get?_of (hfound p hp), Option.map_some]
    rfl
  rw [members, Operation.outcome_bind_ok hout, Operation.outcome_pure, heq]

theorem outcome_memberCount (h : x.Mirrors m) {index : Nat}
    (hindex : index < SizeClasses.count) :
    (memberCount index).outcome x = (.ok (m.memberCount index), x) := by
  rw [memberCount, Operation.outcome_bind_ok (outcome_classAt x hindex),
    Operation.outcome_pure, h.class_eq index hindex]
  rfl

theorem outcome_firstChoice (h : x.Mirrors m)
    (choose : List (Handle × Extent) → Option (Handle × Extent)) {indices : List Nat}
    (hindices : ∀ index ∈ indices, index < SizeClasses.count) :
    (firstChoice choose indices).outcome x =
      (.ok (indices.findSome? fun index => choose (m.members index)), x) := by
  induction indices with
  | nil => rfl
  | cons index rest ih =>
      obtain ⟨hindex, hrest⟩ := List.forall_mem_cons.mp hindices
      rw [firstChoice, Operation.outcome_bind_ok (outcome_members h hindex),
        List.findSome?_cons]
      cases choose (m.members index) with
      | none => exact ih hrest
      | some choice => rfl

/-! ## Searches -/

theorem outcome_searchAt (h : x.Mirrors m) (c : Criteria) (address : Nat) :
    (searchAt c address).outcome x = (Operation.ofExcept (m.searchAt c address)).outcome x := by
  rw [searchAt, ExtentMap.searchAt, Operation.outcome_get_bind, h.find?_eq]
  cases hfind : x.find? address with
  | none => rfl
  | some found =>
      have hget := h.sound.get?_eq_some_iff.mpr (Tree.mem_of_search hfind)
      have hextent : x.extent? found.1 = some found.2.extent := by
        rw [extent?, LinkedMap.get?, hget, Option.map_some]
      simp only [Option.map_some]
      rw [Operation.outcome_bind_ok (outcome_resolve hextent)]
      split
      · rfl
      · cases hsize : c.size with
        | none =>
            simp only [pure_bind]
            split <;> rfl
        | some size =>
            dsimp only
            cases Range.ofLength address size with
            | error e => rfl
            | ok range =>
                show (if _ then _ else _ : LinkedMapOperation _).outcome x =
                  (Operation.ofExcept (if _ then _ else _)).outcome x
                split <;> rfl

theorem outcome_searchClasses (h : x.Mirrors m) (size : Nat) (largestFirst : Bool) :
    (searchClasses size largestFirst).outcome x =
      (.ok (m.searchClasses size largestFirst), x) := by
  have hrange : ∀ index ∈ List.range' (sizeClass size) (SizeClasses.count - sizeClass size),
      index < SizeClasses.count := by
    intro index hindex
    obtain ⟨hle, hlt⟩ := List.mem_range'_1.mp hindex
    omega
  refine outcome_firstChoice h _ fun index hindex => ?_
  split at hindex
  · exact hrange index (List.mem_reverse.mp hindex)
  · exact hrange index hindex

theorem outcome_searchExtents (h : x.Mirrors m) (size : Nat) (required : Option Usage)
    (largestFirst : Bool) :
    (searchExtents size required largestFirst).outcome x =
      (.ok (m.searchExtents size required largestFirst), x) := by
  rw [searchExtents, Operation.outcome_get_bind, extents_eq h]
  rfl

theorem outcome_search (h : x.Mirrors m) (c : Criteria) :
    (search c).outcome x = (Operation.ofExcept (m.search c)).outcome x := by
  unfold search ExtentMap.search
  cases c.address with
  | some address => exact outcome_searchAt h c address
  | none =>
      cases c.size.getD 1 with
      | zero => rfl
      | succ size =>
          simp only [ExtentMap.searchSize]
          by_cases hfree : c.requiredUsage = some .free
          · simp only [if_pos hfree]
            rw [Operation.outcome_bind_ok (outcome_searchClasses h _ _)]
            cases m.searchClasses (size + 1) c.flags.largestFirst <;> rfl
          · simp only [if_neg hfree]
            rw [Operation.outcome_bind_ok (outcome_searchExtents h _ _ _)]
            cases m.searchExtents (size + 1) c.requiredUsage c.flags.largestFirst <;> rfl

theorem outcome_largest? (h : x.Mirrors m) (usage : Usage) :
    (largest? usage).outcome x = (.ok (m.largest? usage), x) := by
  rw [largest?, ExtentMap.largest?]
  split
  · exact outcome_firstChoice h _ fun index hindex =>
      List.mem_range.mp (List.mem_reverse.mp hindex)
  · rw [Operation.outcome_get_bind, extents_eq h]
    rfl

/-! ## Sums -/

theorem outcome_addUp {total : Nat} {lengths : List Nat}
    (h : total + lengths.sum < Word.bound) (x : LinkedMap) :
    (addUp total lengths).outcome x = (.ok (total + lengths.sum), x) := by
  induction lengths generalizing total with
  | nil => rfl
  | cons length lengths ih =>
      rw [List.sum_cons, ← Nat.add_assoc] at h
      rw [addUp, List.foldlM_cons, Operation.outcome_bind_ok
        (Operation.outcome_sum (Nat.lt_of_le_of_lt (Nat.le_add_right _ _) h) x), List.sum_cons,
        ← Nat.add_assoc]
      exact ih h

theorem outcome_bytesOf (h : x.Mirrors m) (hm : m.Sound) (usage : Usage) :
    (bytesOf usage).outcome x = (.ok (m.bytesOf usage), x) := by
  have hlt := Nat.lt_of_le_of_lt (hm.bytesOf_le usage) m.region.length_lt_bound
  rw [ExtentMap.bytesOf_eq] at hlt
  rw [bytesOf, Operation.outcome_get_bind, extents_eq h,
    outcome_addUp (by rwa [Nat.zero_add]), ExtentMap.bytesOf_eq, Nat.zero_add]

end LinkedMap.Checked

end KernelMemory
