import KernelMemory.Proofs.Space.Plan

/-!
# Exact allocation

An allocation is placed in one of two ways: where its hint says, or by a search for an extent
that is large enough. A hint that cannot be followed is passed over in silence, whatever the
reason: it is answered like no hint at all. What can be said of both ways together is that
an allocation fails only for lack of a large enough extent, since a stretch that is free where
the hint says lies in such an extent as well.

That a stretch is free is a matter of single addresses, and that it can be asked for is one of
single extents. They agree because the extents of a managed map leave no gap and because no
two neighbours have one usage, so that a stretch of free addresses cannot lie in several.
-/

namespace KernelMemory

namespace Space

variable {s : Space} {D : Nat → Prop}

/-- All addresses of the stretch are free. -/
def Vacant (s : Space) (start size : Nat) : Prop :=
  ∀ address, start ≤ address → address < start + size → s.map.usageAt? address = some .free

/-! ## Stretches at an address -/

theorem Fits.vacant {target : Handle} {start size : Nat} {e : Extent}
    (hf : s.Fits target start size e) (h : s.map.Sound) : s.Vacant start size := by
  intro address hle hlt
  exact hf.usageAt?_eq h <| Extent.contains_iff.mpr
    ⟨Nat.le_trans hf.start_le hle, Nat.lt_of_lt_of_le hlt hf.le_stop⟩

/-- Where a stretch fits, there is an extent that is large enough. -/
theorem Fits.exists_room {target : Handle} {start size : Nat} {e : Extent}
    (hf : s.Fits target start size e) :
    ∃ e ∈ s.map.extents, e.usage = .free ∧ size ≤ e.length := by
  have hstart := hf.start_le
  have hstop := hf.le_stop
  have hroom : size ≤ e.stop - e.start := by omega
  exact ⟨e, List.mem_map_of_mem hf.mem, hf.free, hroom⟩

/-- A stretch of free addresses lies in one free extent. -/
theorem Vacant.exists_fits {start size : Nat} (hv : s.Vacant start size)
    (hm : s.map.Managed D) (hpos : 0 < size) :
    ∃ p : Handle × Extent, s.Fits p.1 start size p.2 := by
  -- the last address is in an extent, so the stretch does not leave the address range
  have hlast := hv (start + size - 1) (by omega) (by omega)
  obtain ⟨q, -, -, hq⟩ := hm.sound.contains_of_usageAt? hlast
  have hlt := (Extent.contains_iff.mp hq).2
  have hbound : q.2.stop < Word.bound := q.2.range.stop_lt_bound
  obtain ⟨r, -, hrstart, hrstop⟩ := Range.ofLength_eq_ok hpos (by omega : start + size < _)
  have hfree : ∀ address, r.contains address = true → s.map.usageAt? address = some .free := by
    intro address hin
    rw [Range.contains_iff, hrstart, hrstop] at hin
    exact hv address hin.1 hin.2
  obtain ⟨p, hp, -, husage, inside⟩ := hm.partition.exists_encloses hm.sound hfree
  obtain ⟨hlo, hhi⟩ := Range.encloses_iff.mp inside
  exact ⟨p, hp, husage, hrstart ▸ hlo, hrstop ▸ hhi⟩

/-- A search for free memory at an address finds the extent that has all of it. -/
theorem Fits.freeFrom_eq {p : Handle × Extent} {start size : Nat}
    (hf : s.Fits p.1 start size p.2) (h : s.map.Sound) (hpos : 0 < size) :
    s.freeFrom start size = .ok p := by
  have hstop := hf.le_stop
  have hcontains : p.2.range.contains start = true :=
    Extent.contains_iff.mpr ⟨hf.start_le, by omega⟩
  refine ((h.answersAt_searchAt rfl).ok_iff p).mpr ⟨hf.mem, ⟨hcontains, nofun⟩, ?_, ?_⟩
  · intro size' hsize
    obtain rfl := Option.some.inj hsize
    exact ⟨hpos, hstop⟩
  · intro _ usage husage
    obtain rfl := Option.some.inj husage
    exact hf.free

/-! ## Placement -/

/-- The stretch is free. It starts at the page of the hint if the same length is free there;
otherwise it starts where a free extent does, and no free extent that is large enough is of
a smaller size class. -/
structure Placed (s : Space) (hint : Option Nat) (size start : Nat) : Prop where
  vacant : s.Vacant start size
  hinted : ∀ wish, hint = some wish → s.Vacant (Page.roundDown wish) size →
    start = Page.roundDown wish
  fitted : (∀ wish, hint = some wish → ¬ s.Vacant (Page.roundDown wish) size) →
    ∃ e ∈ s.map.extents, e.start = start ∧ e.usage = .free ∧ size ≤ e.length ∧
      ∀ f ∈ s.map.extents, f.usage = .free → size ≤ f.length →
        sizeClass e.length ≤ sizeClass f.length

/-- The hint is followed where it can be. -/
theorem placement_of_vacant (hm : s.map.Managed D) {wish size : Nat} (hpos : 0 < size)
    (hv : s.Vacant (Page.roundDown wish) size) :
    ∃ p : Handle × Extent, s.Fits p.1 (Page.roundDown wish) size p.2 ∧
      s.placement (some wish) size = .ok (p.1, Page.roundDown wish) := by
  obtain ⟨p, hf⟩ := hv.exists_fits hm hpos
  refine ⟨p, hf, ?_⟩
  simp only [placement, Option.bind_some, hf.freeFrom_eq hm.sound hpos]

/-- Any other hint is passed over. -/
theorem placement_of_not_vacant (h : s.map.Sound) {hint : Option Nat} {size : Nat}
    (hnone : ∀ wish, hint = some wish → ¬ s.Vacant (Page.roundDown wish) size) :
    s.placement hint size = (s.map.search (.ofSize size)).map fun p => (p.1, p.2.start) := by
  cases hint with
  | none => rfl
  | some wish =>
      simp only [placement, Option.bind_some]
      cases hfree : s.freeFrom (Page.roundDown wish) size with
      | ok p => exact absurd ((freeFrom_eq_ok h hfree).vacant h) (hnone wish rfl)
      | error e => rfl

/-- The search by size answers with a free extent of the smallest class, if there is one that
is large enough. -/
theorem search_ofSize_cases (h : s.map.Sound) {size : Nat} (hpos : 0 < size) :
    (s.map.search (.ofSize size) = .error .notFound ∧
        ∀ e ∈ s.map.extents, e.usage = .free → e.length < size) ∨
      ∃ p, s.map.search (.ofSize size) = .ok p ∧ p ∈ s.map.toList ∧ p.2.usage = .free ∧
        size ≤ p.2.length ∧ ∀ f ∈ s.map.extents, f.usage = .free → size ≤ f.length →
          sizeClass p.2.length ≤ sizeClass f.length := by
  have hanswers := h.answersSize_search (c := .ofSize size) rfl
  have hfits : ∀ e, ExtentMap.Fits (.ofSize size) e ↔ size ≤ e.length ∧ e.usage = .free :=
    fun e => ExtentMap.fits_iff_of_seeksFree rfl
  cases hsearch : s.map.search (.ofSize size) with
  | error error =>
      obtain ⟨rfl, hnone⟩ := (hanswers.error_iff (Nat.ne_of_gt hpos) error).mp hsearch
      refine .inl ⟨rfl, ?_⟩
      intro e he hfree
      obtain ⟨p, hp, rfl⟩ := List.mem_map.mp he
      exact Nat.lt_of_not_le fun hle => hnone p hp ((hfits p.2).mpr ⟨hle, hfree⟩)
  | ok p =>
      obtain ⟨hp, hp', hbest⟩ := hanswers.best p hsearch
      obtain ⟨hle, hfree⟩ := (hfits p.2).mp hp'
      refine .inr ⟨p, rfl, hp, hfree, hle, ?_⟩
      intro f hf hfree' hle'
      obtain ⟨q, hq, rfl⟩ := List.mem_map.mp hf
      exact hbest q hq ((hfits q.2).mpr ⟨hle', hfree'⟩)

/-- An allocation is placed, unless no free extent is large enough. -/
theorem placement_cases (hm : s.map.Managed D) (hint : Option Nat) {size : Nat}
    (hpos : 0 < size) :
    (s.placement hint size = .error .notFound ∧
        ∀ e ∈ s.map.extents, e.usage = .free → e.length < size) ∨
      ∃ target start e, s.placement hint size = .ok (target, start) ∧
        s.Fits target start size e ∧ s.Placed hint size start := by
  by_cases hhint : ∃ wish, hint = some wish ∧ s.Vacant (Page.roundDown wish) size
  · obtain ⟨wish, rfl, hv⟩ := hhint
    obtain ⟨p, hf, hplace⟩ := placement_of_vacant hm hpos hv
    refine .inr ⟨p.1, Page.roundDown wish, p.2, hplace, hf, hv, ?_, ?_⟩
    · intro wish' hwish _
      rw [Option.some.inj hwish]
    · intro hnone
      exact absurd hv (hnone wish rfl)
  · have hnone : ∀ wish, hint = some wish → ¬ s.Vacant (Page.roundDown wish) size :=
      fun wish hwish hv => hhint ⟨wish, hwish, hv⟩
    rw [placement_of_not_vacant hm.sound hnone]
    rcases search_ofSize_cases hm.sound hpos with
      ⟨hsearch, hshort⟩ | ⟨p, hsearch, hp, hfree, hle, hleast⟩
    · rw [hsearch]
      exact .inl ⟨rfl, hshort⟩
    · rw [hsearch]
      have hstop : p.2.start + size ≤ p.2.stop := by
        have hlt := p.2.start_lt_stop
        have hroom : size ≤ p.2.stop - p.2.start := hle
        omega
      have hf : s.Fits p.1 p.2.start size p.2 := ⟨hp, hfree, Nat.le_refl _, hstop⟩
      refine .inr ⟨p.1, p.2.start, p.2, rfl, hf, hf.vacant hm.sound, ?_, ?_⟩
      · intro wish hwish hv
        exact absurd hv (hnone wish hwish)
      · intro _
        exact ⟨p.2, List.mem_map_of_mem hp, rfl, hfree, hle, hleast⟩

/-! ## Allocation -/

/-- The stretch is placed as it should be. Its addresses, and no others, have got the usage. -/
structure Allocated (s : Space) (hint : Option Nat) (size start : Nat) (usage : Usage)
    (s' : Space) : Prop where
  placed : s.Placed hint size start
  usageAt?_eq : ∀ address, s'.map.usageAt? address =
    if start ≤ address ∧ address < start + size then some usage else s.map.usageAt? address

/-- A request of whole pages is refused for lack of a large enough extent, or it is met. -/
theorem allocate_cases_of_pages (hm : s.map.Managed fun _ => True) (hint : Option Nat)
    {size S : Nat} {usage : Usage} (hpages : Space.pages size usage = .ok S)
    (hslots : ¬ ((allocate hint size usage).outcome s).1.IsExhaustion) :
    ((∀ e ∈ s.map.extents, e.usage = .free → e.length < S) ∧
        (allocate hint size usage).outcome s = (.error .notFound, s)) ∨
      (∃ e ∈ s.map.extents, e.usage = .free ∧ S ≤ e.length) ∧
        ∃ start s', (allocate hint size usage).outcome s = (.ok start, s') ∧
          s.Allocated hint S start usage s' := by
  obtain ⟨hsize, -, hround⟩ := pages_eq_ok hpages
  have hle := (Page.roundUp?_spec hround).1
  rcases placement_cases hm hint (by omega : 0 < S) with
    ⟨hplace, hshort⟩ | ⟨target, start, e, hplace, hf, hplaced⟩
  · exact .inl ⟨hshort, outcome_allocate_of_placement_error hpages hplace⟩
  · refine .inr ⟨hf.exists_room, ?_⟩
    rcases outcome_allocate hm hpages hplace hf ⟨trivial, trivial⟩ with
      ⟨slots, s', hout⟩ | ⟨s', r, hout, hrstart, hrstop, -, hs'⟩
    · exact absurd ⟨slots, by rw [hout]⟩ hslots
    · refine ⟨start, s', hout, hplaced, ?_⟩
      intro address
      rw [hs'.usageAt?_eq]
      simp only [List.any_cons, List.any_nil, Bool.or_false, Range.contains_iff, hrstart, hrstop]

/-- An allocation is refused as invalid only if nothing or free memory is asked for or the
size overflows when it is rounded to pages, and then as not found exactly if every free
extent is too short for the whole pages. Otherwise it is made, at the page of its hint if it
can be and otherwise in the smallest size class that will do. -/
theorem allocation_exact {arena : Arena} (hs : Reached arena s) (hint : Option Nat) (size : Nat)
    (usage : Usage) {reply : Reply Space RequestError Nat}
    (hreply : (allocate hint size usage).run s = reply) (hslots : ¬ reply.verdict.IsExhaustion) :
    (∀ f, reply.verdict ≠ .fault f) ∧
    (reply.verdict = .error .invalidArgument ↔
      size = 0 ∨ usage = .free ∨ Word.bound ≤ size + (Page.size - 1)) ∧
    ∀ S, size ≠ 0 → usage ≠ .free → Page.roundUp? size = some S →
      (reply.verdict = .error .notFound ↔
        ∀ e ∈ s.map.extents, e.usage = .free → e.length < S) ∧
      ((∃ e ∈ s.map.extents, e.usage = .free ∧ S ≤ e.length) →
        ∃ start, reply.verdict = .ok start ∧
          s.Allocated hint S start usage reply.state) := by
  have hm : s.map.Managed fun _ => True := hs.managed
  subst hreply
  rw [Operation.verdict_run] at hslots ⊢
  rw [Operation.state_run]
  cases hpages : Space.pages size usage with
  | error error =>
      obtain ⟨rfl, hbad⟩ := pages_eq_error_iff.mp hpages
      rw [outcome_allocate_of_pages_error hpages]
      refine ⟨by simp, iff_of_true rfl hbad, ?_⟩
      intro S hsize hused hround
      exact nomatch hpages.symm.trans (pages_eq_ok_iff.mpr ⟨hsize, hused, hround⟩)
  | ok S =>
      obtain ⟨-, -, hround⟩ := pages_eq_ok_iff.mp hpages
      have hgood : ¬ (size = 0 ∨ usage = .free ∨ Word.bound ≤ size + (Page.size - 1)) :=
        fun hbad => nomatch hpages.symm.trans (pages_eq_error_iff.mpr ⟨rfl, hbad⟩)
      rcases allocate_cases_of_pages hm hint hpages hslots with
        ⟨hshort, hout⟩ | ⟨⟨e, he, hfree, hroom⟩, start, s', hout, hallocated⟩
      · rw [hout]
        refine ⟨by simp, iff_of_false (by simp) hgood, ?_⟩
        intro S' _ _ hround'
        obtain rfl := Option.some.inj (hround.symm.trans hround')
        refine ⟨iff_of_true rfl hshort, ?_⟩
        intro ⟨e, he, hfree, hroom⟩
        exact absurd (hshort e he hfree) (Nat.not_lt.mpr hroom)
      · rw [hout]
        refine ⟨by simp, iff_of_false (by simp) hgood, ?_⟩
        intro S' _ _ hround'
        obtain rfl := Option.some.inj (hround.symm.trans hround')
        refine ⟨iff_of_false (by simp) ?_, fun _ => ⟨start, rfl, hallocated⟩⟩
        intro hshort
        exact absurd (hshort e he hfree) (Nat.not_lt.mpr hroom)

/-- A page in use parts the free memory of an arena. The hint points into that page and is
passed over. Of the extents on both sides only the one behind is large enough. -/
theorem allocation_exact_around_page :
    let arena : Arena := ⟨.physical, 0x1000, 0x8000⟩
    let s := ((Call.reserve 0x3000 0x1000 .inUse).perform.run ⟨created arena, []⟩).state.space
    let reply := (allocate (some 0x3456) 0x2800 .inUse).run s
    reply.verdict = .ok 0x4000 ∧ s.Allocated (some 0x3456) 0x3000 0x4000 .inUse reply.state := by
  intro arena s reply
  obtain ⟨_, hregion, -⟩ := Range.ofLength_eq_ok (show 0 < 0x8000 by decide)
    (show 0x1000 + 0x8000 < Word.bound by decide)
  have hreserve : ((Call.reserve 0x3000 0x1000 .inUse).perform.run
    ⟨created arena, []⟩).verdict = .ok () := by decide
  have hs : Reached arena s :=
    (Reached.create 0 (verdict_create hregion)).step (.reserve 0x3000 0x1000 .inUse) []
      fun ⟨_, h⟩ => nomatch hreserve.symm.trans h
  have hverdict : reply.verdict = .ok 0x4000 := by decide +kernel
  have hslots : ¬ reply.verdict.IsExhaustion := fun ⟨_, h⟩ => nomatch hverdict.symm.trans h
  obtain ⟨-, -, hexact⟩ :=
    allocation_exact hs (some 0x3456) 0x2800 .inUse (show _ = reply from rfl) hslots
  obtain ⟨-, hmet⟩ := hexact 0x3000 (by decide) (by decide) (by decide)
  obtain ⟨start, hstart, hallocated⟩ := hmet (by decide +kernel)
  obtain rfl : start = 0x4000 := Verdict.ok.inj (hstart.symm.trans hverdict)
  exact ⟨hverdict, hallocated⟩

end Space

end KernelMemory
