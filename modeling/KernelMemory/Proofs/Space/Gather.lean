import KernelMemory.Proofs.Extent.Audit
import KernelMemory.Proofs.Space.Calls
import KernelMemory.Space.Gather

/-!
# Gathering

The pieces of a gather allocation lie in free extents, no two of them in the same one.
Taking one of them merges it with neighbours of the new usage, which are not free, so it
leaves the addresses of the others as they are: free, and therefore inside one extent each,
though maybe not the extent they were planned in. The same holds of a release, with the
usages the other way round.
-/

namespace KernelMemory

/-- The ranges have no address in common. -/
def Range.Apart (r s : Range) : Prop :=
  r.stop ≤ s.start ∨ s.stop ≤ r.start

namespace Range

variable {r s : Range}

theorem Apart.not_contains (h : r.Apart s) {address : Nat} (hs : s.contains address = true) :
    r.contains address = false := by
  rw [Bool.eq_false_iff, ne_eq, contains_iff]
  rw [contains_iff] at hs
  unfold Apart at h
  omega

theorem Apart.of_encloses {r' s' : Range} (h : r.Apart s) (hr : r.encloses r' = true)
    (hs : s.encloses s' = true) : r'.Apart s' := by
  rw [encloses_iff] at hr hs
  unfold Apart at h ⊢
  omega

theorem apart_iff_overlaps : r.Apart s ↔ r.overlaps s = false := by
  unfold Apart overlaps
  rw [Bool.and_eq_false_iff, decide_eq_false_iff_not, decide_eq_false_iff_not]
  omega

theorem apart_of_no_common (h : ∀ address, r.contains address = true → s.contains address = true →
    False) : r.Apart s := by
  have hr := r.start_lt_stop
  have hs := s.start_lt_stop
  have h₁ : ¬ (s.start ≤ r.start ∧ r.start < s.stop) :=
    fun hc => h r.start r.contains_start (contains_iff.mpr hc)
  have h₂ : ¬ (r.start ≤ s.start ∧ s.start < r.stop) :=
    fun hc => h s.start (contains_iff.mpr hc) s.contains_start
  unfold Apart
  omega

end Range

namespace ExtentMap

theorem Sound.apart {m : ExtentMap} (h : m.Sound) {p q : Handle × Extent} (hp : p ∈ m.toList)
    (hq : q ∈ m.toList) (hne : p ≠ q) : p.2.range.Apart q.2.range :=
  Range.apart_of_no_common fun _ hpa hqa => hne (h.ordered.eq_of_contains hp hq hpa hqa)

end ExtentMap

namespace Gathering

/-! ## The plan -/

/-- The classes have the free extents as members, each once. -/
theorem mem_classes_iff {m : ExtentMap} (h : m.Sound) {p : Handle × Extent} :
    p ∈ (List.range SizeClasses.count).reverse.flatMap m.members ↔
      p ∈ m.toList ∧ p.2.usage = .free := by
  simp only [List.mem_flatMap, List.mem_reverse, List.mem_range, h.mem_class_iff]
  constructor
  · intro ⟨_, _, hmem, hfree, _⟩
    exact ⟨hmem, hfree⟩
  · intro ⟨hmem, hfree⟩
    exact ⟨_, sizeClass_lt p.2.range.length_lt_bound, hmem, hfree, rfl⟩

theorem nodup_classes {m : ExtentMap} (h : m.Sound) :
    ((List.range SizeClasses.count).reverse.flatMap m.members).Nodup := by
  refine List.nodup_flatMap.mpr ⟨?_, ?_⟩
  · intro index _
    refine (h.lists.nodup index).filterMap ?_
    intro id id' p hp hp'
    obtain ⟨_, -, rfl⟩ := Option.map_eq_some_iff.mp hp
    obtain ⟨_, -, heq⟩ := Option.map_eq_some_iff.mp hp'
    exact (Prod.mk.inj heq).1.symm
  · refine (List.nodup_reverse.mpr List.nodup_range).imp fun {i j} hne p hi hj => hne ?_
    exact Option.some.inj
      ((h.mem_members_iff.mp hi).2.symm.trans (h.mem_members_iff.mp hj).2)

/-- The candidates are free extents, apart from one another. -/
theorem candidates_spec {m : ExtentMap} (h : m.Sound) :
    (candidates m).Pairwise (fun e f => e.range.Apart f.range) ∧
      ∀ e ∈ candidates m, ∃ id, (id, e) ∈ m.toList ∧ e.usage = .free := by
  constructor
  · refine List.pairwise_map.mpr ((nodup_classes h).imp_of_mem ?_)
    intro p q hp hq hne
    exact h.apart ((mem_classes_iff h).mp hp).1 ((mem_classes_iff h).mp hq).1 hne
  · intro e he
    obtain ⟨p, hp, rfl⟩ := List.mem_map.mp he
    obtain ⟨hmem, hfree⟩ := (mem_classes_iff h).mp hp
    exact ⟨p.1, hmem, hfree⟩

theorem exists_encloses_of_mem_plan {l : List Extent} {size : Nat} {r : Range}
    (hr : r ∈ plan l size) : ∃ e ∈ l, e.range.encloses r = true := by
  induction l generalizing size with
  | nil => simp [plan] at hr
  | cons e rest ih =>
      cases size with
      | zero => simp [plan] at hr
      | succ size =>
          rw [plan] at hr
          split at hr
          · next hcut =>
            obtain rfl := List.mem_singleton.mp hr
            refine ⟨e, by simp, Range.encloses_iff.mpr ⟨Nat.le_refl _, ?_⟩⟩
            simp only [Extent.length, Range.length] at hcut
            simp only [Range.takeTo, Extent.start]
            omega
          · rcases List.mem_cons.mp hr with rfl | hr
            · exact ⟨e, by simp, Range.encloses_iff.mpr ⟨Nat.le_refl _, Nat.le_refl _⟩⟩
            · obtain ⟨f, hf, hin⟩ := ih hr
              exact ⟨f, List.mem_cons_of_mem e hf, hin⟩

theorem pairwise_plan {l : List Extent} (hl : l.Pairwise fun e f => e.range.Apart f.range)
    (size : Nat) : (plan l size).Pairwise Range.Apart := by
  induction l generalizing size with
  | nil => simp [plan]
  | cons e rest ih =>
      obtain ⟨he, hrest⟩ := List.pairwise_cons.mp hl
      cases size with
      | zero => simp [plan]
      | succ size =>
          rw [plan]
          split
          · exact List.pairwise_singleton _ _
          · refine List.pairwise_cons.mpr ⟨?_, ih hrest _⟩
            intro r hr
            obtain ⟨f, hf, hin⟩ := exists_encloses_of_mem_plan hr
            exact (he f hf).of_encloses
              (Range.encloses_iff.mpr ⟨Nat.le_refl _, Nat.le_refl _⟩) hin

theorem paged_plan {l : List Extent} (hl : ∀ e ∈ l, e.range.Paged) {size : Nat}
    (hsize : Page.size ∣ size) : ∀ r ∈ plan l size, r.Paged := by
  induction l generalizing size with
  | nil => simp [plan]
  | cons e rest ih =>
      obtain ⟨he, hrest⟩ := List.forall_mem_cons.mp hl
      cases size with
      | zero => simp [plan]
      | succ size =>
          rw [plan]
          split
          · intro r hr
            obtain rfl := List.mem_singleton.mp hr
            exact ⟨he.1, Nat.dvd_add he.1 hsize⟩
          · refine List.forall_mem_cons.mpr ⟨he, ih hrest ?_⟩
            exact Nat.dvd_sub hsize (Nat.dvd_sub he.2 he.1)

/-! ## Taking the pieces -/

variable {D : Nat → Prop} {g : Gathering}

theorem outcome_onSpace {α : Type} (op : SpaceOperation α) (g : Gathering) :
    (onSpace op).outcome g =
      ((op.outcome g.space).1, { g with space := (op.outcome g.space).2 }) := rfl

/-- A piece that is still free is taken, wherever its extent has come to end. -/
theorem outcome_takePiece (hm : g.space.map.Managed D) {piece : Range}
    (hpiece : D piece.start ∧ D piece.stop)
    (hfree : ∀ address, piece.contains address = true →
      g.space.map.usageAt? address = some .free) (usage : Usage) :
    (∃ slots g', (takePiece usage piece).outcome g = (.fault (.slotsExhausted slots), g')) ∨
      ∃ g', (takePiece usage piece).outcome g = (.ok (), g') ∧ g'.buffer = g.buffer ∧
        g.space.map.Converts D [piece] usage g'.space.map := by
  rw [takePiece, outcome_onSpace, Operation.outcome_get_bind, Operation.outcome_bind,
    Operation.outcome_attempt, Operation.outcome_within]
  rcases hm.outcome_reclaimAt hpiece hfree usage (.inr rfl) with
    ⟨slots, m', hout⟩ | ⟨id, m', hout, hm'⟩
  · rw [hout]
    exact .inl ⟨slots, _, rfl⟩
  · rw [hout]
    exact .inr ⟨_, rfl, rfl, hm'⟩

theorem outcome_takePieces (hm : g.space.map.Managed D) {pieces : List Range}
    (hap : pieces.Pairwise Range.Apart) (hD : ∀ r ∈ pieces, D r.start ∧ D r.stop)
    (hfree : ∀ r ∈ pieces, ∀ address, r.contains address = true →
      g.space.map.usageAt? address = some .free) (usage : Usage) :
    (∃ slots g', (pieces.forM (takePiece usage)).outcome g =
        (.fault (.slotsExhausted slots), g')) ∨
      ∃ g', (pieces.forM (takePiece usage)).outcome g = (.ok (), g') ∧ g'.buffer = g.buffer ∧
        g.space.map.Converts D pieces usage g'.space.map := by
  induction pieces generalizing g with
  | nil => exact .inr ⟨g, rfl, rfl, hm.converts_nil usage⟩
  | cons piece rest ih =>
      obtain ⟨hapart, haprest⟩ := List.pairwise_cons.mp hap
      obtain ⟨hpiece, hDrest⟩ := List.forall_mem_cons.mp hD
      obtain ⟨hfreepiece, hfreerest⟩ := List.forall_mem_cons.mp hfree
      show (∃ slots g', (takePiece usage piece >>= fun _ => rest.forM (takePiece usage)).outcome g
        = _) ∨ ∃ g', (takePiece usage piece >>= fun _ => rest.forM (takePiece usage)).outcome g
        = _ ∧ _
      rcases outcome_takePiece hm hpiece hfreepiece usage with
        ⟨slots, g', hout⟩ | ⟨g₁, hout, hbuffer, hg₁⟩
      · exact .inl ⟨slots, g', Operation.outcome_bind_fault hout _⟩
      · rw [Operation.outcome_bind_ok hout]
        -- the pieces that are left are apart from this one, so they are still free
        have hstill : ∀ r ∈ rest, ∀ address, r.contains address = true →
            g₁.space.map.usageAt? address = some .free := by
          intro r hr address hin
          rw [hg₁.usageAt?_of_apart, hfreerest r hr address hin]
          simpa using (hapart r hr).not_contains hin
        rcases ih hg₁.managed haprest hDrest hstill with
          ⟨slots, g', hrun⟩ | ⟨g', hrun, hbuffer', hg'⟩
        · exact .inl ⟨slots, g', hrun⟩
        · exact .inr ⟨g', hrun, hbuffer'.trans hbuffer, hg₁.trans hg'⟩

theorem take_fill {pieces buffer : List Range} (h : pieces.length ≤ buffer.length) :
    (fill pieces buffer).take pieces.length = pieces := by
  rw [fill, List.take_of_length_le h, List.take_left']
  rfl

/-- The addresses of the pieces of a plan are free. -/
theorem free_of_mem_plan {m : ExtentMap} (h : m.Sound) {size : Nat} {r : Range}
    (hr : r ∈ plan (candidates m) size) {address : Nat} (hin : r.contains address = true) :
    m.usageAt? address = some .free := by
  obtain ⟨e, he, inside⟩ := exists_encloses_of_mem_plan hr
  obtain ⟨id, hmem, hfree⟩ := (candidates_spec h).2 e he
  rw [h.usageAt?_of_mem hmem (Range.contains_of_encloses inside hin), hfree]

theorem outcome_allocate_of_scarce {size S : Nat} {usage : Usage}
    (hpages : Space.pages size usage = .ok S) (hscarce : g.space.bytesOf .free < S) :
    (allocate size usage).outcome g =
      (.error (.insufficientMemory S (g.space.bytesOf .free)), g) := by
  rw [allocate, hpages, Operation.outcome_bind_ok (Operation.outcome_ofExcept_ok S g),
    Operation.outcome_get_bind]
  simp only [if_pos hscarce]
  rfl

/-- Where enough memory is free, only the buffer can be too small for the pieces, and only
the slots can run out. Otherwise the pieces of the plan are taken. -/
theorem allocate_cases_of_enough (hm : g.space.map.Managed D) {size S : Nat} {usage : Usage}
    (hpages : Space.pages size usage = .ok S) (henough : S ≤ g.space.bytesOf .free)
    (hD : ∀ r ∈ plan (candidates g.space.map) S, D r.start ∧ D r.stop) :
    (∃ g', (allocate size usage).outcome g = (.error (.bufferTooSmall g.buffer.length), g') ∧
        g'.space = g.space ∧ g.buffer.length < (plan (candidates g.space.map) S).length) ∨
      (∃ slots g', (allocate size usage).outcome g = (.fault (.slotsExhausted slots), g')) ∨
      ∃ g', (allocate size usage).outcome g =
          (.ok (plan (candidates g.space.map) S).length, g') ∧
        g'.buffer.take (plan (candidates g.space.map) S).length =
          plan (candidates g.space.map) S ∧
        g.space.map.Converts D (plan (candidates g.space.map) S) usage g'.space.map := by
  rw [allocate, hpages, Operation.outcome_bind_ok (Operation.outcome_ofExcept_ok S g),
    Operation.outcome_get_bind]
  simp only [if_neg (Nat.not_lt.mpr henough), Operation.outcome_set_bind]
  split
  · next hsmall => exact .inl ⟨_, rfl, rfl, hsmall⟩
  · next hroom =>
    rcases outcome_takePieces
      (g := { g with buffer := fill (plan (candidates g.space.map) S) g.buffer }) hm
      (pairwise_plan (candidates_spec hm.sound).1 S) hD
      (fun r hr address hin => free_of_mem_plan hm.sound hr hin) usage with
      ⟨slots, g', hout⟩ | ⟨g', hout, hbuffer, hg'⟩
    · exact .inr (.inl ⟨slots, g', Operation.outcome_bind_fault hout _⟩)
    · refine .inr (.inr ⟨g', ?_, ?_, hg'⟩)
      · rw [Operation.outcome_bind_ok hout]
        rfl
      · rw [hbuffer]
        exact take_fill (Nat.le_of_not_lt hroom)

/-- A gather allocation takes whole pages that were free, in ranges apart from one another,
and writes them to the front of the buffer. -/
theorem allocate_cases (hm : g.space.map.Paged) (size : Nat) (usage : Usage) :
    (∃ error g', (allocate size usage).outcome g = (.error error, g') ∧ g'.space = g.space) ∨
      (∃ slots g', (allocate size usage).outcome g = (.fault (.slotsExhausted slots), g')) ∨
      ∃ count g', (allocate size usage).outcome g = (.ok count, g') ∧
        (g'.buffer.take count).Pairwise Range.Apart ∧ (∀ r ∈ g'.buffer.take count, r.Paged) ∧
        g.space.Takes (g'.buffer.take count) usage g'.space := by
  cases hpages : Space.pages size usage with
  | error e =>
      refine .inl ⟨e, g, ?_, rfl⟩
      rw [allocate, hpages]
      rfl
  | ok S =>
      obtain ⟨-, hused, hround⟩ := Space.pages_eq_ok hpages
      obtain ⟨-, -, hdvd⟩ := Page.roundUp?_spec hround
      rcases Nat.lt_or_ge (g.space.bytesOf .free) S with hscarce | henough
      · exact .inl ⟨_, g, outcome_allocate_of_scarce hpages hscarce, rfl⟩
      · have hpaged := paged_plan (l := candidates g.space.map) (fun e he => by
          obtain ⟨id, hmem, -⟩ := (candidates_spec hm.sound).2 e he
          exact hm.aligned _ hmem) hdvd
        rcases allocate_cases_of_enough hm hpages henough hpaged with
          ⟨g', hout, hsame, -⟩ | hfull | ⟨g', hout, htaken, hg'⟩
        · exact .inl ⟨_, g', hout, hsame⟩
        · exact .inr (.inl hfull)
        · refine .inr (.inr ⟨_, g', hout, ?_⟩)
          rw [htaken]
          exact ⟨pairwise_plan (candidates_spec hm.sound).1 S, hpaged, hused,
            fun r hr address hin => free_of_mem_plan hm.sound hr hin, hg'⟩

end Gathering

namespace Space

variable {s : Space}

/-! ## Releasing the pieces -/

theorem firstOverlap?_eq_none_iff {pieces : List Range} :
    firstOverlap? pieces = none ↔ pieces.Pairwise Range.Apart := by
  induction pieces with
  | nil => exact iff_of_true rfl List.Pairwise.nil
  | cons piece rest ih =>
      have hany : rest.any piece.overlaps = false ↔ ∀ r ∈ rest, piece.Apart r := by
        simp only [List.any_eq_false, Range.apart_iff_overlaps, Bool.not_eq_true]
      rw [firstOverlap?, List.pairwise_cons, ← hany, ← ih]
      cases rest.any piece.overlaps <;> simp

/-- The addresses of the range have one usage, and are not free. -/
def Held (s : Space) (r : Range) : Prop :=
  ∃ usage, usage ≠ .free ∧ ∀ a, r.contains a = true → s.map.usageAt? a = some usage

/-- The pieces that pass the check are those in use: they lie in one extent. -/
theorem checkPiece_eq_ok_iff {D : Nat → Prop} (hm : s.map.Managed D) {piece : Range} :
    s.checkPiece piece = .ok () ↔ s.Held piece := by
  constructor
  · intro h
    unfold checkPiece at h
    split at h
    · simp at h
    · next target p hfind =>
      split at h
      · simp at h
      · next hallocated =>
        split at h
        · next inside =>
          obtain ⟨hmem, -⟩ := ExtentMap.contains_of_find? hfind
          refine ⟨_, ?_, fun a hin =>
            hm.sound.usageAt?_of_mem hmem (Range.contains_of_encloses inside hin)⟩
          intro hfree
          have husage : p.usage = .free := hfree
          exact hallocated (by simp [isUnallocated, husage, Usage.isFree])
        · simp at h
  · rintro ⟨usage, hused, hall⟩
    obtain ⟨p, hmem, hfind, rfl, inside⟩ := hm.partition.exists_encloses hm.sound hall
    have hallocated : isUnallocated p.2 = false := by
      rw [isUnallocated, hm.restores p hmem hused]
      simp [Usage.isFree, hused]
    simp [checkPiece, hfind, hallocated, inside]

theorem outcome_releasePiece {D : Nat → Prop} (hm : s.map.Managed D) {piece : Range}
    (hpiece : D piece.start ∧ D piece.stop) (hheld : s.Held piece) :
    (∃ slots s', (releasePiece piece).outcome s = (.fault (.slotsExhausted slots), s')) ∨
      ∃ s', (releasePiece piece).outcome s = (.ok (), s') ∧
        s.map.Converts D [piece] .free s'.map := by
  obtain ⟨usage, hused, hall⟩ := hheld
  obtain ⟨p, hmem, hfind, rfl, -⟩ := hm.partition.exists_encloses hm.sound hall
  rw [releasePiece, Operation.outcome_get_bind]
  simp only [hfind, hm.restores p hmem hused]
  rw [Operation.outcome_bind, outcome_onMap]
  rcases hm.outcome_reclaimAt hpiece hall .free (.inl rfl) with
    ⟨slots, m', hout⟩ | ⟨id, m', hout, hm'⟩
  · rw [hout]
    exact .inl ⟨slots, _, rfl⟩
  · rw [hout]
    exact .inr ⟨_, rfl, hm'⟩

theorem outcome_releasePieces {D : Nat → Prop} (hm : s.map.Managed D) {pieces : List Range}
    (hap : pieces.Pairwise Range.Apart) (hD : ∀ r ∈ pieces, D r.start ∧ D r.stop)
    (hheld : ∀ r ∈ pieces, s.Held r) :
    (∃ slots s', (pieces.forM releasePiece).outcome s =
        (.fault (.slotsExhausted slots), s')) ∨
      ∃ s', (pieces.forM releasePiece).outcome s = (.ok (), s') ∧
        s.map.Converts D pieces .free s'.map := by
  induction pieces generalizing s with
  | nil => exact .inr ⟨s, rfl, hm.converts_nil .free⟩
  | cons piece rest ih =>
      obtain ⟨hapart, haprest⟩ := List.pairwise_cons.mp hap
      obtain ⟨hpiece, hDrest⟩ := List.forall_mem_cons.mp hD
      obtain ⟨hheldpiece, hheldrest⟩ := List.forall_mem_cons.mp hheld
      show (∃ slots s', (releasePiece piece >>= fun _ => rest.forM releasePiece).outcome s = _) ∨
        ∃ s', (releasePiece piece >>= fun _ => rest.forM releasePiece).outcome s = _ ∧ _
      rcases outcome_releasePiece hm hpiece hheldpiece with
        ⟨slots, s', hout⟩ | ⟨s₁, hout, hs₁⟩
      · exact .inl ⟨slots, s', Operation.outcome_bind_fault hout _⟩
      · rw [Operation.outcome_bind_ok hout]
        -- what is released is apart from the rest, whose addresses are used as before
        have hstill : ∀ r ∈ rest, s₁.Held r := by
          intro r hr
          obtain ⟨usage, hused, hall⟩ := hheldrest r hr
          refine ⟨usage, hused, fun a hin => ?_⟩
          rw [hs₁.usageAt?_of_apart, hall a hin]
          simpa using (hapart r hr).not_contains hin
        rcases ih hs₁.managed haprest hDrest hstill with
          ⟨slots, s', hrun⟩ | ⟨s', hrun, hs'⟩
        · exact .inl ⟨slots, s', hrun⟩
        · exact .inr ⟨s', hrun, hs₁.trans hs'⟩

/-- Pieces in use that are apart are released together. -/
theorem outcome_freeGather {D : Nat → Prop} (hm : s.map.Managed D) {pieces : List Range}
    (hap : pieces.Pairwise Range.Apart) (hD : ∀ r ∈ pieces, D r.start ∧ D r.stop)
    (hheld : ∀ r ∈ pieces, s.Held r) :
    (∃ slots s', (freeGather pieces).outcome s = (.fault (.slotsExhausted slots), s')) ∨
      ∃ s', (freeGather pieces).outcome s = (.ok (), s') ∧
        s.map.Converts D pieces .free s'.map := by
  have hchecks : pieces.forM s.checkPiece = .ok () :=
    forM_eq_ok_iff.mpr fun r hr => (checkPiece_eq_ok_iff hm).mpr (hheld r hr)
  rw [freeGather]
  simp only [firstOverlap?_eq_none_iff.mpr hap]
  rw [Operation.outcome_get_bind, hchecks,
    Operation.outcome_bind_ok (Operation.outcome_ofExcept_ok () s)]
  rcases outcome_releasePieces hm hap hD hheld with
    ⟨slots, s', hout⟩ | ⟨s', hout, hs'⟩
  · exact .inl ⟨slots, s', Operation.outcome_bind_fault hout _⟩
  · exact .inr ⟨s', by rw [Operation.outcome_bind_ok hout, outcome_note], hs'⟩

/-- A group of pieces is refused without a change, or it is in use and apart. -/
theorem freeGather_cases (pieces : List Range) {D : Nat → Prop} (hm : s.map.Managed D) :
    (∃ e, (freeGather pieces).outcome s = (.error e, s)) ∨
      pieces.Pairwise Range.Apart ∧ ∀ r ∈ pieces, s.Held r := by
  rw [freeGather]
  cases hoverlap : firstOverlap? pieces with
  | some piece => exact .inl ⟨_, rfl⟩
  | none =>
      rw [Operation.outcome_get_bind]
      cases hchecks : pieces.forM s.checkPiece with
      | error e =>
          exact .inl ⟨e, Operation.outcome_bind_error (Operation.outcome_ofExcept_error e s) _⟩
      | ok u =>
          refine .inr ⟨firstOverlap?_eq_none_iff.mp hoverlap, fun r hr => ?_⟩
          exact (checkPiece_eq_ok_iff hm).mp (forM_eq_ok_iff.mp hchecks r hr)

end Space

end KernelMemory
