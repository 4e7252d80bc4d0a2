import KernelMemory.Proofs.Extent.Runs

/-!
# Which handles survive a reclaim

A client keeps handles across calls, so it matters which of them a reclaim may take away. The
cuts take none: the target stays what lies before the range, or becomes the piece with the new
usage if nothing does, and a piece that is new gets a handle that was not live. Only the merge
around the piece with the new usage takes handles, and it takes those of the extents in the run
around the range. That run can be read off the map before the reclaim, because the cuts change the
usage of no address outside the range.

The piece in front of the range is never part of the run. It has the usage that the range had
before, which is not the new one.
-/

namespace KernelMemory

namespace ExtentMap

variable {m m₁ m' : ExtentMap} {pre post before after : List (Handle × Extent)}
  {target id : Handle} {whole : Extent} {range : Range} {usage : Usage}

/-! ## The cuts -/

theorem Heirs.ne_of_live (hheirs : Heirs m target whole range id before)
    (inside : whole.range.encloses range = true) {other : Handle} {e : Extent}
    (hne : other ≠ target) (hlive : m.get? other = some e) : other ≠ id := by
  rintro rfl
  rcases Nat.lt_or_eq_of_le (Range.encloses_iff.mp inside).1 with hlt | heq
  · obtain ⟨-, hfresh⟩ := hheirs.front hlt
    rw [hfresh] at hlive
    exact nomatch hlive
  · exact hne (hheirs.middle heq)

/-- An extent that is not cut is left alone. -/
theorem Sound.get?_of_cut (h : m.Sound) (hl : m.toList = pre ++ (target, whole) :: post)
    {piece : Extent} (hm₁ : m.Becomes (pre ++ before ++ (id, piece) :: (after ++ post)) m₁)
    {other : Handle} {e : Extent} (hne : other ≠ target) (hlive : m.get? other = some e) :
    m₁.get? other = some e := by
  have hmem : (other, e) ∈ m.toList := h.index.get?_eq_some_iff.mp hlive
  refine hm₁.sound.index.get?_eq_some_iff.mpr ?_
  rw [show m₁.index.toList = _ from hm₁.toList_eq]
  rw [hl] at hmem
  simp only [List.mem_append, List.mem_cons, Prod.mk.injEq, hne, false_and, false_or] at hmem ⊢
  rcases hmem with hp | hp
  · exact .inl (.inl hp)
  · exact .inr (.inr (.inr hp))

/-- Outside the range, addresses have after the cuts the usage that they had before. -/
theorem Sound.usageAt?_of_cut (h : m.Sound) (hl : m.toList = pre ++ (target, whole) :: post)
    (inside : whole.range.encloses range = true)
    (hbefore : Flank whole whole.start range.start before)
    (hafter : Flank whole range.stop whole.stop after)
    (hm₁ : m.Becomes (pre ++ before ++ (id, (Extent.unlisted range usage whole.usage).listed) ::
      (after ++ post)) m₁)
    (hc : Coalesced m₁ id m') {address : Nat} (hout : range.contains address = false) :
    m.usageAt? address = m₁.usageAt? address := by
  have hcarved : Carved m pre whole post range usage id m' :=
    ⟨before, after, m₁, hbefore, hafter, hm₁, hc⟩
  rw [← hc.usageAt?_eq hm₁.sound, hcarved.usageAt?_eq h hl inside, hout]
  rfl

/-- A reclaim that is answered and changes the usage has made its cuts and merged. -/
theorem Sound.carved_of_reclaim (h : m.Sound) (hget : m.get? target = some whole)
    (hne : whole.usage ≠ usage) {expected : Option Usage}
    (hid : ((reclaim target range usage expected).outcome m).1 = .ok id) :
    whole.range.encloses range = true ∧ ∃ pre post before after m₁ m',
      m.toList = pre ++ (target, whole) :: post ∧
      (reclaim target range usage expected).outcome m = (.ok id, m') ∧
      Flank whole whole.start range.start before ∧ Flank whole range.stop whole.stop after ∧
      m.Becomes (pre ++ before ++ (id, (Extent.unlisted range usage whole.usage).listed) ::
        (after ++ post)) m₁ ∧
      Heirs m target whole range id before ∧ Coalesced m₁ id m' := by
  cases inside : whole.range.encloses range with
  | false =>
      rw [outcome_reclaim_of_outside expected hget inside] at hid
      exact nomatch hid
  | true =>
      by_cases hexpected : ∀ other, expected = some other → other = whole.usage
      · obtain ⟨pre, post, hl⟩ := exists_split hget
        rw [outcome_reclaim_of_accepted hget inside hexpected, if_neg hne] at hid ⊢
        rcases h.outcome_cut hl inside usage with
          ⟨slots, _, hout, -⟩ | ⟨id', m₁, before, after, hcut, hbefore, hafter, hm₁, hheirs⟩
        · rw [carve_eq_cut, Operation.outcome_bind_fault hout] at hid
          exact nomatch hid
        · obtain ⟨m', hout, hc⟩ := hm₁.sound.outcome_carve_of_cut hm₁.toList_eq hcut
          rw [hout] at hid
          obtain rfl := Verdict.ok.inj hid
          exact ⟨rfl, pre, post, before, after, m₁, m', hl, hout, hbefore, hafter, hm₁, hheirs,
            hc⟩
      · simp only [not_forall] at hexpected
        obtain ⟨other, rfl, hother⟩ := hexpected
        rw [outcome_reclaim_of_mismatch hget inside hother] at hid
        exact nomatch hid

/-! ## Every reclaim -/

/-- A reclaim that is answered and changes the usage answers the extent that has the run around
the range. If the range starts where the target does, that extent is the target. If it starts
later, the extent is new, and the target is what lies before the range. Of the other extents
those in the run are gone, and those beside it are as they were. -/
theorem reclaim_keeps_handles {allowed : Mutation → Prop} {region : Range}
    (hm : Reachable allowed region m) (hget : m.get? target = some whole)
    (hne : whole.usage ≠ usage) {expected : Option Usage}
    {reply : Reply ExtentMap ExtentError Handle}
    (hreply : (reclaim target range usage expected).run m = reply) (hid : reply.verdict = .ok id) :
    ∃ run merged, m.IsRunAround range usage run ∧
      reply.state.get? id = some merged ∧ merged.range = run ∧ merged.usage = usage ∧
      merged.previous = whole.usage ∧
      (whole.start = range.start → id = target) ∧
      (whole.start < range.start → m.get? id = none ∧
        ∃ front, reply.state.get? target = some front ∧ front.start = whole.start ∧
          front.stop = range.start ∧ front.usage = whole.usage ∧
          front.previous = whole.previous) ∧
      ∀ other e, other ≠ target → m.get? other = some e →
        reply.state.get? other = if run.encloses e.range then none else some e := by
  have h := hm.sound
  subst hreply
  rw [Operation.verdict_run] at hid
  rw [Operation.state_run]
  obtain ⟨inside, pre, post, before, after, m₁, m', hl, hout, hbefore, hafter, hm₁, hheirs, hc⟩ :=
    h.carved_of_reclaim hget hne hid
  have h₁ := hm₁.sound
  obtain ⟨run, hrun, hmerged, hothers⟩ := hc.exists_run h₁ (h₁.get?_of_split hm₁.toList_eq)
  replace hrun : m.IsRunAround range usage run :=
    hrun.congr fun _ => h.usageAt?_of_cut hl inside hbefore hafter hm₁ hc
  rw [hout]
  refine ⟨run, _, hrun, hmerged, rfl, rfl, rfl, hheirs.middle, ?front, ?others⟩
  case front =>
    intro hlt
    obtain ⟨⟨front, rfl⟩, hfresh⟩ := hheirs.front hlt
    obtain ⟨hstart, hstop⟩ := hbefore.tiles
    have husage := hbefore.usage_eq _ List.mem_cons_self
    refine ⟨hfresh, front, ?_, hstart, hstop, husage,
      hbefore.previous_eq _ List.mem_cons_self⟩
    have hfront : m₁.get? target = some front := h₁.index.get?_eq_some_iff.mpr (by
      rw [show m₁.index.toList = _ from hm₁.toList_eq]
      simp)
    have hother : target ≠ id := by
      rintro rfl
      rw [hget] at hfresh
      exact nomatch hfresh
    rw [hothers target hother, hfront, Option.filter_some]
    -- the first address of the target would have both usages
    refine if_pos ((Bool.not_eq_true' _).mpr (Bool.eq_false_iff.mpr fun hin => hne ?_))
    have hwhole : m.usageAt? whole.start = some whole.usage :=
      h.usageAt?_of_mem (p := (target, whole)) (by simp [hl]) whole.range.contains_start
    refine Option.some.inj (hwhole.symm.trans (hrun.uniform whole.start ?_ ?_))
    · rw [← hstart]
      exact Range.contains_of_encloses hin front.range.contains_start
    · rw [Bool.eq_false_iff, ne_eq, Range.contains_iff]
      omega
  case others =>
    intro other e hother hlive
    rw [hothers other (hheirs.ne_of_live inside hother hlive),
      h.get?_of_cut hl hm₁ hother hlive, Option.filter_some]
    cases run.encloses e.range <;> rfl

/-- The end of a free extent is taken into use, next to a page in use. The free extent keeps its
handle, the page loses its own, and the free extent behind it is not touched. -/
theorem reclaim_keeps_handles_before_page :
    let region : Range := ⟨0x1000, 0x9000, by decide, by decide⟩
    let page : Range := ⟨0x4000, 0x5000, by decide, by decide⟩
    let range : Range := ⟨0x3000, 0x4000, by decide, by decide⟩
    let m := ((Mutation.reclaimAt page .inUse none).perform.run (created region)).state
    let reply := (reclaim ⟨0, 0, 0⟩ range .inUse (some .free)).run m
    reply.verdict = .ok ⟨0, 3, 0⟩ ∧
      m.IsRunAround range .inUse ⟨0x3000, 0x5000, by decide, by decide⟩ ∧
      (∃ front, reply.state.get? ⟨0, 0, 0⟩ = some front ∧ front.stop = 0x3000) ∧
      reply.state.get? ⟨0, 1, 0⟩ = none ∧ reply.state.get? ⟨0, 2, 0⟩ = m.get? ⟨0, 2, 0⟩ := by
  intro region page range m reply
  have hok : ((Mutation.reclaimAt page .inUse none).perform.run (created region)).verdict =
    .ok () := by decide +kernel
  have hm : Reachable (fun _ => True) region m :=
    .step (created_reachable _ region) _ trivial (Verdict.not_isExhaustion_of_ok hok)
  have hverdict : reply.verdict = .ok ⟨0, 3, 0⟩ := by decide +kernel
  have hwhole : m.get? ⟨0, 0, 0⟩ =
    some (Extent.unlisted ⟨0x1000, 0x4000, by decide, by decide⟩ .free .free).listed := by
    decide +kernel
  have hpage : m.get? ⟨0, 1, 0⟩ = some (.unlisted page .inUse .free) := by decide +kernel
  have hlast : m.get? ⟨0, 2, 0⟩ =
    some (Extent.unlisted ⟨0x5000, 0x9000, by decide, by decide⟩ .free .free).listed := by
    decide +kernel
  obtain ⟨run, merged, hrun, hmerged, rfl, -, -, -, hfront, hothers⟩ :=
    reclaim_keeps_handles hm hwhole (by decide) (show _ = reply from rfl) hverdict
  obtain ⟨-, front, hlive, -, hstop, -⟩ := hfront (by decide)
  have hrange : merged.range = ⟨0x3000, 0x5000, by decide, by decide⟩ := by
    have heval : (reply.state.get? ⟨0, 3, 0⟩).map Extent.range =
      some ⟨0x3000, 0x5000, by decide, by decide⟩ := by decide +kernel
    rw [hmerged] at heval
    exact Option.some.inj heval
  rw [hrange] at hrun hothers
  refine ⟨hverdict, hrun, ⟨front, hlive, hstop⟩, hothers _ _ (by decide) hpage, ?_⟩
  rw [hlast]
  exact hothers _ _ (by decide) hlast

end ExtentMap

end KernelMemory
