import KernelMemory.Proofs.Manager.Refusal
import KernelMemory.Proofs.Space.Release

/-!
# Page granularity

The address spaces of a valid setup consist of whole pages, and requests are rounded outwards
to whole pages. So a reclaim makes no boundary inside a page, whatever a client asks for, and
what is handed out starts and ends where pages do.

One call does not round: a release of pieces takes them as they are. As long as clients name
the pieces that they were given, these consist of whole pages. Nothing refuses others, though,
and then an extent starts in the middle of a page. The next allocation that finds it is
answered an address that is not aligned.
-/

namespace KernelMemory

namespace Space

/-! ## One address space -/

theorem released_paged {e : Extent} {address : Nat} {size : Option Nat} {range : Range}
    (he : Page.size ∣ e.start ∧ Page.size ∣ e.stop)
    (h : releasedRange e address size = .ok range) : range.Paged := by
  cases size with
  | none =>
      obtain rfl := Except.ok.inj h
      exact he
  | some size =>
      obtain ⟨stop, hstop, hnew⟩ := bind_eq_ok_iff.mp h
      obtain ⟨-, -, hdvd⟩ := Page.roundUp?_spec (pageStop_eq_ok hstop)
      unfold Range.new at hnew
      split at hnew
      · obtain rfl := Except.ok.inj hnew
        exact ⟨Page.dvd_roundDown address, hdvd⟩
      · simp [Except.mapError] at hnew

/-- An allocation, a reservation, a release and a gather allocation round what they are asked
for. -/
theorem lasting_paged : Lasting fun s => s.map.Paged where
  allocate hint size usage s hm hslots := by
    rcases allocate_cases hm hint size usage with
      ⟨e, hout⟩ | ⟨slots, s', hout⟩ | ⟨start, s', r, hout, -, -, ht⟩
    · rw [hout]
      exact hm
    · exact absurd ⟨slots, by rw [hout]⟩ hslots
    · rw [hout]
      exact ht.retypes.managed
  reserve start size usage s hm hslots := by
    rcases reserve_cases hm start size usage with
      ⟨e, hout⟩ | ⟨slots, s', hout⟩ | ⟨s', r, hout, -, ht⟩
    · rw [hout]
      exact hm
    · exact absurd ⟨slots, by rw [hout]⟩ hslots
    · rw [hout]
      exact ht.retypes.managed
  free address size := keeps_free_of_released fun _ he _ hrange => released_paged he hrange
  gather size usage g hm hslots := by
    rcases Gathering.allocate_cases hm size usage with
      ⟨e, g', hout, hsame⟩ | ⟨slots, g', hout⟩ | ⟨count, g', hout, -, -, ht⟩
    · rw [hout]
      show g'.space.map.Paged
      rw [hsame]
      exact hm
    · exact absurd ⟨slots, by rw [hout]⟩ hslots
    · rw [hout]
      exact ht.retypes.managed

/-- A release of pieces rounds nothing, so the pieces must be pages. -/
theorem keeps_freeGather_paged {pieces : List Range} (hpieces : ∀ r ∈ pieces, r.Paged) :
    (freeGather pieces).Keeps fun s => s.map.Paged := by
  intro s hm hslots
  rcases release_cases hm hpieces with
    ⟨-, e, hout⟩ | ⟨-, ⟨slots, s', hout⟩ | ⟨s', hout, hs'⟩⟩
  · rw [hout]
    exact hm
  · exact absurd ⟨slots, by rw [hout]⟩ hslots
  · rw [hout]
    exact hs'.managed

theorem allocate_answers_page {s : Space} (hm : s.map.Paged) {hint : Option Nat} {size : Nat}
    {usage : Usage} {start : Nat} (h : ((allocate hint size usage).outcome s).1 = .ok start) :
    Page.size ∣ start := by
  rcases allocate_cases hm hint size usage with
    ⟨e, hout⟩ | ⟨slots, s', hout⟩ | ⟨start', s', r, hout, hdvd, -⟩
  · exact nomatch (congrArg Prod.fst hout).symm.trans h
  · exact nomatch (congrArg Prod.fst hout).symm.trans h
  · obtain rfl := Verdict.ok.inj ((congrArg Prod.fst hout).symm.trans h)
    exact hdvd

theorem gather_answers_pages {g : Gathering} (hm : g.space.map.Paged) {size : Nat}
    {usage : Usage} {count : Nat}
    (h : ((Gathering.allocate size usage).outcome g).1 = .ok count) :
    ∀ r ∈ ((Gathering.allocate size usage).outcome g).2.buffer.take count, r.Paged := by
  rcases Gathering.allocate_cases hm size usage with
    ⟨e, g', hout, -⟩ | ⟨slots, g', hout⟩ | ⟨count', g', hout, -, hpaged, -⟩
  · exact nomatch (congrArg Prod.fst hout).symm.trans h
  · exact nomatch (congrArg Prod.fst hout).symm.trans h
  · obtain rfl := Verdict.ok.inj ((congrArg Prod.fst hout).symm.trans h)
    rw [hout]
    exact hpaged

end Space

theorem Setup.aligned_of_valid {setup : Setup} (h : setup.validate = .ok ()) :
    (Page.isAligned setup.virtual.start = true ∧ Page.isAligned setup.virtual.size = true) ∧
      Page.isAligned setup.physical.start = true ∧
      Page.isAligned setup.physical.size = true := by
  have hfits : ∀ kind a, isSpaceArena kind a = true →
      Page.isAligned a.start = true ∧ Page.isAligned a.size = true := by
    intro kind a ha
    simp only [isSpaceArena, Bool.and_eq_true] at ha
    exact ⟨ha.1.1.1.2, ha.1.1.2⟩
  unfold validate at h
  split at h
  · simp at h
  · next hnone =>
    simp only [misfit?, List.findSome?_eq_none_iff, List.mem_cons, forall_eq_or_imp,
      ite_eq_left_iff, reduceCtorEq, imp_false, not_not] at hnone
    exact ⟨hfits _ _ hnone.1, hfits _ _ hnone.2.1⟩

namespace Machine

/-! ## Every run -/

/-- The machines that a run of allowed calls reaches without running out of slots, while
others write to memory as they like. -/
inductive ReachableBy (allowed : Call → Prop) : Machine → Prop
  | create (setup : Setup) (memory : Memory) {m : Manager}
      (h : ((Manager.create setup : Operation Memory RequestError Manager).run memory).verdict =
        .ok m) : ReachableBy allowed ⟨memory, m⟩
  | createWithPools (setup : Setup) (memory : Memory) {m : Manager}
      (h : ((Manager.createWithPools setup).run memory).verdict = .ok m) :
      ReachableBy allowed ⟨((Manager.createWithPools setup).run memory).state, m⟩
  | call {s : Machine} (hs : ReachableBy allowed s) (c : Call) (hc : allowed c)
      (buffer : List Range) (hslots : ¬ (c.perform.run (s, buffer)).verdict.IsExhaustion) :
      ReachableBy allowed (c.perform.run (s, buffer)).state.1
  | write {s : Machine} (hs : ReachableBy allowed s) (memory : Memory) :
      ReachableBy allowed { s with memory }

/-- The pieces that a call releases, if it does, consist of whole pages. -/
def Call.ReleasesPages : Call → Prop
  | .freeGather pieces => ∀ r ∈ pieces, r.Paged
  | _ => True

theorem ReachableBy.paged {s : Machine} (hs : ReachableBy Call.ReleasesPages s) :
    s.manager.Spaces fun space => space.map.Paged := by
  have hcreate : ∀ setup : Setup, setup.validate = .ok () → ∀ owner,
      (Space.create owner setup.virtual : Operation Memory RequestError Space).Yields
        (fun s => s.map.Paged) ∧
      (Space.create owner setup.physical : Operation Memory RequestError Space).Yields
        (fun s => s.map.Paged) := by
    intro setup hvalid owner
    obtain ⟨⟨hstart, hsize⟩, hstart', hsize'⟩ := Setup.aligned_of_valid hvalid
    exact ⟨fun _ _ h => Space.paged_of_create hstart hsize h,
      fun _ _ h => Space.paged_of_create hstart' hsize' h⟩
  induction hs with
  | create setup memory h => exact Manager.yields_create (hcreate setup) memory _ h
  | createWithPools setup memory h =>
      exact Manager.yields_createWithPools Space.lasting_paged (hcreate setup) memory _ h
  | call _ c hc buffer hslots ih =>
      refine c.keeps_perform Space.lasting_paged (fun pieces hpieces => ?_) _ ih hslots
      subst hpieces
      exact Space.keeps_freeGather_paged hc
  | write _ memory ih => exact ih

/-- As long as released pieces consist of whole pages, every extent of both address spaces
does, an allocation is answered where a page starts, and so is a gather allocation with pieces
of whole pages. -/
theorem granularity_kept {s : Machine} (hs : ReachableBy Call.ReleasesPages s) :
    (∀ e ∈ s.manager.virtual.map.extents, e.range.Paged) ∧
      (∀ e ∈ s.manager.physical.map.extents, e.range.Paged) ∧
      (∀ hint size usage start,
        (((allocateVirtual hint size usage).run s).verdict = .ok start → Page.size ∣ start) ∧
        (((allocatePhysical hint size usage).run s).verdict = .ok start → Page.size ∣ start)) ∧
      ∀ size usage buffer count,
        ((allocateGather size usage).run (s, buffer)).verdict = .ok count →
        ∀ r ∈ ((allocateGather size usage).run (s, buffer)).state.2.take count, r.Paged := by
  obtain ⟨hvirtual, hphysical⟩ := hs.paged
  have hextents : ∀ m : ExtentMap, m.Paged → ∀ e ∈ m.extents, e.range.Paged := by
    intro m hm e he
    obtain ⟨p, hp, rfl⟩ := List.mem_map.mp he
    exact hm.aligned p hp
  refine ⟨hextents _ hvirtual, hextents _ hphysical, ?_, ?_⟩
  · intro hint size usage start
    exact ⟨fun h => Space.allocate_answers_page hvirtual h,
      fun h => Space.allocate_answers_page hphysical h⟩
  · intro size usage buffer count h
    exact Space.gather_answers_pages (g := ⟨s.manager.physical, buffer⟩) hphysical h

/-- The pages around some bytes are reserved, and one of them is released as a piece. -/
theorem granularity_kept_around_bytes :
    let setup : Setup :=
      ⟨⟨.virtual, 0x10000, 0x4000⟩, ⟨.physical, 0x1000, 0x4000⟩, none, none, .touched⟩
    let page : Range := ⟨0x2000, 0x3000, by decide, by decide⟩
    let s₁ := ((Call.reservePhysical 0x1234 0x1800 .inUse).perform.run (created setup, [])).state.1
    let s₂ := ((Call.freeGather [page]).perform.run (s₁, [])).state.1
    s₂.manager.physical.map.extents.map Extent.usage = [.inUse, .free] ∧
      ∀ e ∈ s₂.manager.physical.map.extents, e.range.Paged := by
  intro setup page s₁ s₂
  obtain ⟨_, hvirtual, -⟩ := Range.ofLength_eq_ok (show 0 < 0x4000 by decide)
    (show 0x10000 + 0x4000 < Word.bound by decide)
  obtain ⟨_, hphysical, -⟩ := Range.ofLength_eq_ok (show 0 < 0x4000 by decide)
    (show 0x1000 + 0x4000 < Word.bound by decide)
  have hvalid : setup.validate = .ok () := by decide
  obtain ⟨m, hcreate, hcreated⟩ := verdict_create hvalid hvirtual hphysical
  have hreserve : ((Call.reservePhysical 0x1234 0x1800 .inUse).perform.run
    (created setup, [])).verdict = .ok () := by decide +kernel
  have hrelease : ((Call.freeGather [page]).perform.run (s₁, [])).verdict = .ok () := by
    decide +kernel
  have hs₁ : ReachableBy Call.ReleasesPages s₁ :=
    (hcreated ▸ ReachableBy.create setup .zeroed hcreate : ReachableBy _ (created setup)).call
      (.reservePhysical 0x1234 0x1800 .inUse) trivial [] (Verdict.not_isExhaustion_of_ok hreserve)
  have hpage : Call.ReleasesPages (.freeGather [page]) := by
    intro r hr
    obtain rfl := List.mem_singleton.mp hr
    exact ⟨by decide, by decide⟩
  have hs₂ : ReachableBy Call.ReleasesPages s₂ :=
    hs₁.call (.freeGather [page]) hpage [] (Verdict.not_isExhaustion_of_ok hrelease)
  exact ⟨by decide +kernel, (granularity_kept hs₂).2.1⟩

/-- Two pages are released as a piece that starts in the middle of one, and the next
allocation starts there, too. -/
theorem granularity_lost_by_release :
    let setup : Setup :=
      ⟨⟨.virtual, 0x10000, 0x4000⟩, ⟨.physical, 0x1000, 0x4000⟩, none, none, .touched⟩
    let piece : Range := ⟨0x1010, 0x3010, by decide, by decide⟩
    let s₁ := ((Call.reservePhysical 0x1000 0x4000 .inUse).perform.run (created setup, [])).state.1
    let s₂ := ((Call.freeGather [piece]).perform.run (s₁, [])).state.1
    Reachable s₂ ∧
      s₂.manager.physical.map.extents.map (fun e => (e.start, e.stop, e.usage)) =
        [(0x1000, 0x1010, .inUse), (0x1010, 0x3010, .free), (0x3010, 0x5000, .inUse)] ∧
      ((allocatePhysical none 0x2000 .inUse).run s₂).verdict = .ok 0x1010 ∧
      ¬ Page.size ∣ 0x1010 := by
  intro setup piece s₁ s₂
  obtain ⟨_, hvirtual, -⟩ := Range.ofLength_eq_ok (show 0 < 0x4000 by decide)
    (show 0x10000 + 0x4000 < Word.bound by decide)
  obtain ⟨_, hphysical, -⟩ := Range.ofLength_eq_ok (show 0 < 0x4000 by decide)
    (show 0x1000 + 0x4000 < Word.bound by decide)
  have hreserve : ((Call.reservePhysical 0x1000 0x4000 .inUse).perform.run
    (created setup, [])).verdict = .ok () := by decide +kernel
  have hrelease : ((Call.freeGather [piece]).perform.run (s₁, [])).verdict = .ok () := by
    decide +kernel
  have hs₁ : Reachable s₁ :=
    (created_reachable (by decide) hvirtual hphysical).call
      (.reservePhysical 0x1000 0x4000 .inUse) [] (Verdict.not_isExhaustion_of_ok hreserve)
  have hs₂ : Reachable s₂ :=
    hs₁.call (.freeGather [piece]) [] (Verdict.not_isExhaustion_of_ok hrelease)
  exact ⟨hs₂, by decide +kernel, by decide +kernel, by decide⟩

end Machine

end KernelMemory
