import KernelMemory.Proofs.Extent.Mutation

/-!
# Single extents

`find?`, `insert` and `delete` each start with one search, and what the search compares is not
an order: all ranges that meet are equal to it, so a range may be equal to two extents that are
not equal to each other. A search ends at any of them, and which one depends on the shape of the
tree. What the three operations answer does not. An address and a range that is tracked are
equal to one extent at most, and for an insertion it is enough that some extent is met.

An address is sought as the range of one byte, with an end that stays in 64 bits. At the last
address this is no range, as it has no byte. It lies above every extent, for none has that
address in it.
-/

namespace KernelMemory

namespace Range

/-- Position of the addresses from `start` up to `stop` relative to a range. They are compared
as the ends of a range are by `compare`, but there may be none. -/
def compareSpan (start stop : Nat) (r : Range) : Ordering :=
  if stop ≤ r.start then .lt
  else if r.stop ≤ start then .gt
  else .eq

/-- The span of one byte is where the address is, also if its end is held back. -/
theorem compareSpan_byte {address : Nat} (h : address < Word.bound) (r : Range) :
    compareSpan address (min (address + 1) Word.max) r = locate address r := by
  have hlt := r.start_lt_stop
  have hbound := r.stop_lt_bound
  have hmax : Word.max + 1 = Word.bound := rfl
  have hbefore : min (address + 1) Word.max ≤ r.start ↔ address < r.start := by omega
  simp only [compareSpan, locate, hbefore]

end Range

namespace ExtentMap

variable {m : ExtentMap} {range : Range}

/-- What an insertion comes to, by the range and the extents that it meets. -/
structure InsertsExactly (m : ExtentMap) (range : Range) (usage : Usage) : Prop where
  outside_iff : (insert range usage).outcome m =
      (.error (.invalidRange range.start range.stop), m) ↔ m.region.encloses range = false
  overlap_iff : (insert range usage).outcome m = (.error .overlap, m) ↔
    m.region.encloses range = true ∧ ∃ p ∈ m.toList, range.overlaps p.2.range = true
  /-- The new extent comes in between the others, under a new handle. -/
  added : m.region.encloses range = true →
    (∀ p ∈ m.toList, range.overlaps p.2.range = false) → m.size < Slots.capacity →
    ∃ id m' pre post, (insert range usage).outcome m = (.ok id, m') ∧
      id ∉ m.toList.map Prod.fst ∧ m.toList = pre ++ post ∧
      m.Becomes (pre ++ (id, (Extent.unlisted range usage usage).listed) :: post) m'
  unchanged : ∀ error m', (insert range usage).outcome m = (.error error, m') → m' = m

/-- What a deletion comes to, by the extents that have exactly this range. -/
structure DeletesExactly (m : ExtentMap) (range : Range) : Prop where
  not_found_iff : (delete range).outcome m = (.error .notFound, m) ↔
    ∀ p ∈ m.toList, p.2.range ≠ range
  removed : ∀ pre id e post, m.toList = pre ++ (id, e) :: post → e.range = range →
    ∃ m', (delete range).outcome m = (.ok { e with listedIn := none }, m') ∧
      m.Becomes (pre ++ post) m'
  unchanged : ∀ error m', (delete range).outcome m = (.error error, m') → m' = m

theorem Sound.insertsExactly (h : m.Sound) (range : Range) (usage : Usage) :
    m.InsertsExactly range usage := by
  have habsurd : ∀ {b : Bool}, b = true → b = false → False := fun ht hf =>
    Bool.false_ne_true (hf.symm.trans ht)
  rcases h.outcome_insert range usage with
    ⟨hin, hout⟩ | ⟨hin, hmeets, hout⟩ | ⟨hin, hapart, hcases⟩
  · exact ⟨iff_of_true hout hin,
      iff_of_false (fun heq => nomatch hout.symm.trans heq) fun ⟨ht, _⟩ => habsurd ht hin,
      fun ht => (habsurd ht hin).elim, fun _ _ heq => (Prod.mk.inj (heq.symm.trans hout)).2⟩
  · refine ⟨iff_of_false (fun heq => nomatch hout.symm.trans heq) fun hf => habsurd hin hf,
      iff_of_true hout ⟨hin, hmeets⟩, fun _ hapart => ?_,
      fun _ _ heq => (Prod.mk.inj (heq.symm.trans hout)).2⟩
    obtain ⟨p, hp, hover⟩ := hmeets
    exact (habsurd hover (hapart p hp)).elim
  · have haccepts : ∀ error m', (insert range usage).outcome m ≠ (.error error, m') := by
      intro error m' heq
      rcases hcases with ⟨_, hout, -⟩ | ⟨_, _, _, _, hout, -⟩
      · cases hout.symm.trans heq
      · cases hout.symm.trans heq
    refine ⟨iff_of_false (haccepts _ _) fun hf => habsurd hin hf,
      iff_of_false (haccepts _ _) fun ⟨_, p, hp, hover⟩ => habsurd hover (hapart p hp),
      fun _ _ hroom => ?_, fun _ _ heq => (haccepts _ _ heq).elim⟩
    exact hcases.resolve_left fun ⟨_, _, hfull⟩ => Nat.not_lt_of_le hfull hroom

theorem Sound.deletesExactly (h : m.Sound) (range : Range) : m.DeletesExactly range where
  not_found_iff := by
    constructor
    · rintro hout ⟨id, e⟩ hmem rfl
      obtain ⟨pre, post, hl⟩ := List.append_of_mem hmem
      obtain ⟨m', hdelete, -⟩ := h.outcome_delete hl
      cases hout.symm.trans hdelete
    · exact outcome_delete_of_untracked
  removed := by
    rintro pre id e post hl rfl
    exact h.outcome_delete hl
  unchanged := by
    intro error m' hout
    rcases h.delete_cases range with ⟨_, hcase⟩ | ⟨_, _, _, _, _, hcase, -⟩
    · exact (Prod.mk.inj (hout.symm.trans hcase)).2
    · cases hout.symm.trans hcase

/-- On every reachable map, an address is found in the extent that contains it, if one does; a
range is inserted unless it leaves the region or meets an extent; and exactly the range of an
extent is deleted, also if a range meets some. What is refused changes nothing. -/
theorem single_extents_exact {region : Range} (hm : Reachable (fun _ => True) region m) :
    (∀ address < Word.bound,
      m.find? address = m.index.tree.search
        (fun e => Range.compareSpan address (min (address + 1) Word.max) e.range) .exact ∧
      ∀ p, m.find? address = some p ↔ p ∈ m.toList ∧ p.2.range.contains address = true) ∧
    (∀ range usage, m.InsertsExactly range usage) ∧
    ∀ range, m.DeletesExactly range := by
  refine ⟨fun address haddress => ⟨?_, fun p => hm.sound.find?_eq_some_iff⟩,
    hm.sound.insertsExactly, hm.sound.deletesExactly⟩
  simp only [find?, Range.compareSpan_byte haddress]

/-- Two extents side by side and one at the very end. A range across the two is neither inserted
nor deleted, and the last address there is belongs to no extent. -/
theorem single_extents_exact_at_last_address :
    let region : Range := ⟨16, Word.max, by decide, by decide⟩
    let across : Range := ⟨24, 40, by decide, by decide⟩
    let m := [Mutation.delete region, .insert ⟨16, 32, by decide, by decide⟩ .inUse,
      .insert ⟨32, 48, by decide, by decide⟩ .inUse,
      .insert ⟨Word.max - 1, Word.max, by decide, by decide⟩ .free].foldl
        (fun m c => (c.perform.run m).state) (created region)
    (insert ⟨8, 24, by decide, by decide⟩ .free).outcome m =
      (.error (.invalidRange 8 24), m) ∧
    (insert across .free).outcome m = (.error .overlap, m) ∧
    (delete across).outcome m = (.error .notFound, m) ∧
    (∃ id m', (insert ⟨48, 64, by decide, by decide⟩ .free).outcome m = (.ok id, m')) ∧
    (∃ e m', (delete ⟨32, 48, by decide, by decide⟩).outcome m = (.ok e, m')) ∧
    (∃ p, m.find? (Word.max - 1) = some p) ∧ ∀ p, m.find? Word.max ≠ some p := by
  intro region across m
  have step : ∀ {m : ExtentMap} (c : Mutation), Reachable (fun _ => True) region m →
      (c.perform.run m).verdict = .ok () →
      Reachable (fun _ => True) region (c.perform.run m).state :=
    fun c hm hok => hm.step c trivial (Verdict.not_isExhaustion_of_ok hok)
  have hm : Reachable (fun _ => True) region m :=
    step _ (step _ (step _ (step _ (created_reachable _ region) (by decide +kernel))
      (by decide +kernel)) (by decide +kernel)) (by decide +kernel)
  obtain ⟨hfind, hinsert, hdelete⟩ := single_extents_exact hm
  refine ⟨(hinsert _ _).outside_iff.mpr (by decide +kernel),
    (hinsert _ _).overlap_iff.mpr (by decide +kernel),
    (hdelete _).not_found_iff.mpr (by decide +kernel), ?_, ?_, ?_, fun p hp => ?_⟩
  · obtain ⟨id, m', pre, post, hout, -⟩ := (hinsert ⟨48, 64, by decide, by decide⟩ .free).added
      (by decide +kernel) (by decide +kernel) (by decide +kernel)
    exact ⟨id, m', hout⟩
  · obtain ⟨⟨id, e⟩, hmem, hrange⟩ :
        ∃ p ∈ m.toList, p.2.range = ⟨32, 48, by decide, by decide⟩ := by decide +kernel
    obtain ⟨pre, post, hl⟩ := List.append_of_mem hmem
    obtain ⟨m', hout, -⟩ := (hdelete _).removed pre id e post hl hrange
    exact ⟨_, m', hout⟩
  · obtain ⟨p, hp⟩ : ∃ p ∈ m.toList, p.2.range.contains (Word.max - 1) = true := by decide +kernel
    exact ⟨p, ((hfind _ (by decide)).2 p).mpr hp⟩
  · obtain ⟨hmem, hcontains⟩ := ((hfind _ (by decide)).2 p).mp hp
    have hnone : ∀ q ∈ m.toList, q.2.range.contains Word.max = false := by decide +kernel
    rw [hnone p hmem] at hcontains
    cases hcontains

end ExtentMap

end KernelMemory
