import KernelMemory.Proofs.Space.Faults
import KernelMemory.Proofs.Space.Placement

/-!
# The largest free extent

Two searches go through the size classes from opposite ends. The one for the largest extent
comes down from the top, stops at the first class with members and compares those. The one for
room goes up from the class of the size and takes the first member that is long enough. They
agree on whether there is room, because a class lists every free extent of its lengths, and
because all lengths of a class are below those of the next: what the first search passes over
in lower classes is shorter than what it has found.

So the length that is reported is the threshold of allocation, and not only a bound.
-/

namespace KernelMemory

namespace ExtentMap

variable {m : ExtentMap} {usage : Usage}

/-- What a scan of the extents answers to the question for a longest one of a usage. -/
structure AnswersLargest (m : ExtentMap) (usage : Usage) (answer : Option (Handle × Extent)) :
    Prop where
  none_iff : answer = none ↔ ∀ p ∈ m.toList, p.2.usage ≠ usage
  longest : ∀ p, answer = some p → p ∈ m.toList ∧ p.2.usage = usage ∧
    ∀ q ∈ m.toList, q.2.usage = usage → q.2.length ≤ p.2.length

/-- An answer that is none only where it may be, and right otherwise, is right. -/
theorem answersLargest_of {answer : Option (Handle × Extent)}
    (hnone : answer = none → ∀ p ∈ m.toList, p.2.usage ≠ usage)
    (hsome : ∀ p, answer = some p → p ∈ m.toList ∧ p.2.usage = usage ∧
      ∀ q ∈ m.toList, q.2.usage = usage → q.2.length ≤ p.2.length) :
    m.AnswersLargest usage answer := by
  refine ⟨⟨hnone, fun hall => ?_⟩, hsome⟩
  cases answer with
  | none => rfl
  | some p =>
      obtain ⟨hp, husage, -⟩ := hsome p rfl
      exact absurd husage (hall p hp)

/-- Where only extents of the usage are compared, all of them are. -/
theorem answersLargest_of_filter (m : ExtentMap) (usage : Usage) :
    m.AnswersLargest usage (longest? (m.toList.filter fun found => found.2.usage = usage)) := by
  have hmem : ∀ p, p ∈ m.toList.filter (fun found => found.2.usage = usage) ↔
      p ∈ m.toList ∧ p.2.usage = usage := fun p => by simp
  obtain ⟨hnone, hsome⟩ := longest?_spec (m.toList.filter fun found => found.2.usage = usage)
  refine answersLargest_of (fun h p hp husage => ?_) fun p hp => ?_
  · have hin := (hmem p).mpr ⟨hp, husage⟩
    rw [hnone h] at hin
    cases hin
  · obtain ⟨hin, hlongest⟩ := hsome p hp
    obtain ⟨hp, husage⟩ := (hmem p).mp hin
    exact ⟨hp, husage, fun q hq hq' => hlongest q ((hmem q).mpr ⟨hq, hq'⟩)⟩

theorem largest?_free (m : ExtentMap) : m.largest? .free =
    (List.range SizeClasses.count).reverse.findSome? fun index => longest? (m.members index) :=
  if_pos rfl

theorem members_of_largest?_eq_none (hnone : m.largest? .free = none) {index : Nat}
    (hindex : index < SizeClasses.count) : m.members index = [] := by
  rw [largest?_free] at hnone
  exact (longest?_spec _).1 (List.findSome?_eq_none_iff.mp hnone index
    (List.mem_reverse.mpr (List.mem_range.mpr hindex)))

/-- The class that answers is the highest one with members. -/
theorem largest?_free_eq_some {p : Handle × Extent} (hp : m.largest? .free = some p) :
    ∃ index, longest? (m.members index) = some p ∧
      ∀ other < SizeClasses.count, m.members other ≠ [] → other ≤ index := by
  have hdown : (List.range SizeClasses.count).reverse.Pairwise (fun i j => j ≤ i) :=
    List.pairwise_reverse.mpr (List.pairwise_lt_range.imp Nat.le_of_lt)
  rw [largest?_free] at hp
  obtain ⟨index, -, hindex, htop⟩ := rel_of_findSome?_eq_some (R := fun i j => j ≤ i)
    Nat.le_refl hdown hp
  refine ⟨index, hindex, fun other hother hmembers => ?_⟩
  refine htop other (List.mem_reverse.mpr (List.mem_range.mpr hother)) fun hnone => ?_
  exact hmembers ((longest?_spec (m.members other)).1 hnone)

theorem Sound.answersLargest_free (h : m.Sound) : m.AnswersLargest .free (m.largest? .free) := by
  have hlisted : ∀ {p : Handle × Extent}, p ∈ m.toList → p.2.usage = .free →
      p ∈ m.members (sizeClass p.2.length) := fun hp hfree => h.mem_class_iff.mpr ⟨hp, hfree, rfl⟩
  have hcount : ∀ p : Handle × Extent, sizeClass p.2.length < SizeClasses.count := fun p =>
    sizeClass_lt p.2.range.length_lt_bound
  refine answersLargest_of (fun hnone p hp hfree => ?_) fun p hp => ?_
  · have hmember := hlisted hp hfree
    rw [members_of_largest?_eq_none hnone (hcount p)] at hmember
    cases hmember
  · obtain ⟨index, hindex, htop⟩ := largest?_free_eq_some hp
    obtain ⟨hmember, hlongest⟩ := (longest?_spec _).2 p hindex
    obtain ⟨hmem, hfree, rfl⟩ := h.mem_class_iff.mp hmember
    refine ⟨hmem, hfree, fun q hq hfree' => ?_⟩
    have hmember' := hlisted hq hfree'
    have hle := htop _ (hcount q) (List.ne_nil_of_mem hmember')
    rcases Nat.lt_or_eq_of_le hle with hlt | heq
    · -- a longer extent would be in a class that is at least as high
      exact Nat.le_of_not_le fun hlonger => Nat.not_le_of_lt hlt (sizeClass_mono hlonger)
    · exact hlongest q (heq ▸ hmember')

theorem Sound.answersLargest (h : m.Sound) (usage : Usage) :
    m.AnswersLargest usage (m.largest? usage) := by
  by_cases hfree : usage = .free
  · subst hfree
    exact h.answersLargest_free
  · have hused : usage.isFree = false := beq_eq_false_iff_ne.mpr hfree
    rw [largest?, hused]
    exact answersLargest_of_filter m usage

/-- Below the highest class with members nothing is looked at. -/
theorem largest?_free_of_top {index : Nat} (hmembers : m.members index ≠ [])
    (habove : ∀ other, index < other → m.members other = []) :
    m.largest? .free = longest? (m.members index) := by
  have hindex : index < SizeClasses.count := by
    refine Nat.lt_of_not_le fun hge => hmembers ?_
    rw [members, SizeClasses.get_of_ge _ hge]
    rfl
  cases hlargest : m.largest? .free with
  | none => exact absurd (members_of_largest?_eq_none hlargest hindex) hmembers
  | some p =>
      obtain ⟨top, htop, hhighest⟩ := largest?_free_eq_some hlargest
      rcases Nat.lt_or_eq_of_le (hhighest index hindex hmembers) with hlt | heq
      · rw [habove top hlt] at htop
        cases htop
      · rw [heq, htop]

end ExtentMap

namespace Space

variable {s : Space}

/-- A stretch is no longer than the largest free extent exactly if some free extent has room
for it. -/
theorem le_largestFree_iff (h : s.map.Sound) {size : Nat} (hpos : 0 < size) :
    size ≤ s.largestFree ↔ ∃ e ∈ s.map.extents, e.usage = .free ∧ size ≤ e.length := by
  have hanswers := h.answersLargest .free
  unfold largestFree
  constructor
  · intro hle
    cases hlargest : s.map.largest? .free with
    | none =>
        rw [hlargest] at hle
        exact absurd hle (Nat.not_le_of_lt hpos)
    | some p =>
        rw [hlargest] at hle
        obtain ⟨hp, hfree, -⟩ := hanswers.longest p hlargest
        exact ⟨p.2, List.mem_map_of_mem hp, hfree, hle⟩
  · rintro ⟨e, he, hfree, hle⟩
    obtain ⟨q, hq, rfl⟩ := List.mem_map.mp he
    cases hlargest : s.map.largest? .free with
    | none => exact absurd hfree (hanswers.none_iff.mp hlargest q hq)
    | some p =>
        obtain ⟨-, -, hlongest⟩ := hanswers.longest p hlargest
        exact hle.trans (hlongest q hq hfree)

/-- What an allocation of whole pages comes to, by the length that is reported as the largest.
Slots can only run out if all slot numbers are taken. -/
structure Threshold (s : Space) (size : Nat) (reply : Reply Space RequestError Nat) : Prop where
  refused : s.largestFree < size → reply.verdict = .error .notFound
  ok_iff : ¬ reply.verdict.IsExhaustion →
    ((∃ start, reply.verdict = .ok start) ↔ size ≤ s.largestFree)
  full : reply.verdict.IsExhaustion → Slots.capacity ≤ reply.state.map.size

theorem threshold_of_pages (hm : s.map.Managed fun _ => True) (hint : Option Nat)
    {size S : Nat} {usage : Usage} (hpages : Space.pages size usage = .ok S) :
    s.Threshold S ((allocate hint size usage).run s) := by
  obtain ⟨hsize, -, hround⟩ := pages_eq_ok hpages
  have hle := (Page.roundUp?_spec hround).1
  have hpos : 0 < S := by omega
  have hroom := le_largestFree_iff hm.sound hpos
  refine ⟨fun hlt => ?_, fun hslots => ?_, fun ⟨slots, hfull⟩ => ?_⟩
  · rw [Operation.verdict_run]
    rcases placement_cases hm hint hpos with ⟨hplace, -⟩ | ⟨target, start, e, -, hf, -⟩
    · rw [outcome_allocate_of_placement_error hpages hplace]
      rfl
    · exact absurd (hroom.mpr hf.exists_room) (Nat.not_le_of_lt hlt)
  · rw [Operation.verdict_run] at hslots ⊢
    rcases allocate_cases_of_pages hm hint hpages hslots with
      ⟨hshort, hout⟩ | ⟨hsome, start, s', hout, -⟩
    · rw [hout]
      refine iff_of_false (by simp) fun hle => ?_
      obtain ⟨e, he, hfree, hlong⟩ := hroom.mp hle
      exact Nat.not_lt_of_le hlong (hshort e he hfree)
    · rw [hout]
      exact iff_of_true ⟨start, rfl⟩ (hroom.mpr hsome)
  · rw [Operation.verdict_run] at hfull
    rw [Operation.state_run]
    exact stops_allocate hint size usage s hm _ hfull

/-- The question for a largest extent is answered with one, on every reachable map and for every
usage; for free memory only the highest class with members is looked at. On every reachable
space an allocation, with any hint, is made exactly if its whole pages are no longer than that. -/
theorem largest_is_threshold {region : Range} {m : ExtentMap} {arena : Arena}
    (hm : ExtentMap.Reachable (fun _ => True) region m) (hs : Reached arena s) :
    (∀ usage, m.AnswersLargest usage (m.largest? usage)) ∧
    (∀ index, m.members index ≠ [] → (∀ other, index < other → m.members other = []) →
      m.largest? .free = ExtentMap.longest? (m.members index)) ∧
    ∀ hint size usage S, size ≠ 0 → usage ≠ .free → Page.roundUp? size = some S →
      s.Threshold S ((allocate hint size usage).run s) := by
  refine ⟨hm.sound.answersLargest, fun _ => ExtentMap.largest?_free_of_top, ?_⟩
  intro hint size usage S hsize hused hround
  exact threshold_of_pages hs.managed hint (pages_eq_ok_iff.mpr ⟨hsize, hused, hround⟩)

/-- A page in use parts the free memory of a map, and of a space, with three free pages in front
of it and four behind. Four pages can be had, and one byte more cannot. -/
theorem largest_is_threshold_around_page :
    let region : Range := ⟨0x1000, 0x9000, by decide, by decide⟩
    let page : Range := ⟨0x4000, 0x5000, by decide, by decide⟩
    let m := ((ExtentMap.Mutation.reclaimAt page .inUse none).perform.run
      (ExtentMap.created region)).state
    let arena : Arena := ⟨.physical, 0x1000, 0x8000⟩
    let s := ((Call.reserve 0x4000 0x1000 .inUse).perform.run ⟨created arena, []⟩).state.space
    (∃ p, m.largest? .free = some p ∧
      ∀ q ∈ m.toList, q.2.usage = .free → q.2.length ≤ p.2.length) ∧
    m.largest? .reserved = none ∧
    s.largestFree = 0x4000 ∧
    (∃ start, ((allocate none 0x4000 .inUse).run s).verdict = .ok start) ∧
    ((allocate none 0x4001 .inUse).run s).verdict = .error .notFound := by
  intro region page m arena s
  have hreclaim : ((ExtentMap.Mutation.reclaimAt page .inUse none).perform.run
    (ExtentMap.created region)).verdict = .ok () := by decide +kernel
  have hm : ExtentMap.Reachable (fun _ => True) region m :=
    (ExtentMap.created_reachable _ region).step _ trivial
      (Verdict.not_isExhaustion_of_ok hreclaim)
  obtain ⟨_, hregion, -⟩ := Range.ofLength_eq_ok (show 0 < 0x8000 by decide)
    (show 0x1000 + 0x8000 < Word.bound by decide)
  have hreserve : ((Call.reserve 0x4000 0x1000 .inUse).perform.run
    ⟨created arena, []⟩).verdict = .ok () := by decide
  have hs : Reached arena s :=
    (Reached.create 0 (verdict_create hregion)).step (.reserve 0x4000 0x1000 .inUse) []
      (Verdict.not_isExhaustion_of_ok hreserve)
  obtain ⟨hlargest, -, hthreshold⟩ := largest_is_threshold hm hs
  have hfour := hthreshold none 0x4000 .inUse 0x4000 (by decide) (by decide) (by decide)
  have hfive := hthreshold none 0x4001 .inUse 0x5000 (by decide) (by decide) (by decide)
  have hlength : s.largestFree = 0x4000 := by decide +kernel
  have hslots : ((allocate none 0x4000 .inUse).run s).verdict = .ok 0x5000 := by decide +kernel
  refine ⟨?_, (hlargest .reserved).none_iff.mpr (by decide +kernel), hlength,
    (hfour.ok_iff (Verdict.not_isExhaustion_of_ok hslots)).mpr (Nat.le_of_eq hlength.symm),
    hfive.refused (by rw [hlength]; decide)⟩
  cases hfree : m.largest? .free with
  | none =>
      have hused := (hlargest .free).none_iff.mp hfree
      exact absurd hused (by decide +kernel)
  | some p => exact ⟨p, rfl, ((hlargest .free).longest p hfree).2.2⟩

end Space

end KernelMemory
