import KernelMemory.Proofs.Extent.Partition
import KernelMemory.Proofs.Extent.Retyping

/-!
# Merging absorbs a whole run

An extent is a run of addresses of one usage, but it need not be the whole run: extents that
were put in one at a time may touch each other and have one usage. Merging makes an extent the
longest range around its own in which every address has its usage. Where the run ends is a
matter of addresses alone. It ends at a gap, where an address has no usage, and where an address
has another one, and nowhere else; so it does not depend on how many extents the run was in, or
in which order they were absorbed.

The handles follow from that. An extent of the map lies in the run or beside it. Those inside
are absorbed and their handles are stale, those beside it are what they were, and no handle
comes to life.
-/

namespace KernelMemory

namespace ExtentMap

variable {m m' : ExtentMap} {seed run : Range} {usage : Usage}

/-! ## Runs around a range -/

/-- The range encloses `seed`, and every address that it adds to it has the usage. -/
structure Widens (m : ExtentMap) (seed : Range) (usage : Usage) (r : Range) : Prop where
  encloses : r.encloses seed = true
  uniform : ∀ address, r.contains address = true → seed.contains address = false →
    m.usageAt? address = some usage

/-- The longest such range: any other lies inside it. -/
structure IsRunAround (m : ExtentMap) (seed : Range) (usage : Usage) (run : Range) : Prop
    extends Widens m seed usage run where
  longest : ∀ r, m.Widens seed usage r → run.encloses r = true

theorem Widens.congr {r : Range} (hr : m.Widens seed usage r)
    (heq : ∀ address, seed.contains address = false →
      m'.usageAt? address = m.usageAt? address) : m'.Widens seed usage r where
  encloses := hr.encloses
  uniform address hin hout := (heq address hout).trans (hr.uniform address hin hout)

/-- What usage the addresses of `seed` itself have does not matter. -/
theorem IsRunAround.congr (hrun : m.IsRunAround seed usage run)
    (heq : ∀ address, seed.contains address = false →
      m'.usageAt? address = m.usageAt? address) : m'.IsRunAround seed usage run where
  toWidens := hrun.toWidens.congr heq
  longest r hr := hrun.longest r (hr.congr fun address hout => (heq address hout).symm)

/-! ## Where a run ends -/

section Ends

variable {pre post : List (Handle × Extent)} {id : Handle} {e : Extent}

theorem Sound.usageAt?_stop_ne (h : m.Sound) (hl : m.toList = pre ++ (id, e) :: post)
    (hright : ∀ p, post.head? = some p → ¬ Twins e p.2) : m.usageAt? e.stop ≠ some e.usage := by
  intro hu
  obtain ⟨q, hq, husage, hin⟩ := h.contains_of_usageAt? hu
  obtain ⟨hstart, hstop⟩ := Extent.contains_iff.mp hin
  obtain ⟨-, hpre, hpost⟩ := h.ordered_of_split hl
  have hlt := e.start_lt_stop
  rw [hl, List.mem_append, List.mem_cons] at hq
  rcases hq with hq | rfl | hq
  · have := hpre q hq
    omega
  · exact Nat.lt_irrefl _ hstop
  · cases post with
    | nil => exact List.not_mem_nil hq
    | cons first rest =>
        rcases List.mem_cons.mp hq with rfl | hq'
        · exact hright q rfl ⟨Nat.le_antisymm (hpost q hq) hstart, husage.symm⟩
        · rw [List.append_cons] at hl
          have hbehind := (h.ordered_of_split hl).2.2 q hq'
          have := first.2.start_lt_stop
          have := hpost first List.mem_cons_self
          omega

theorem Sound.usageAt?_before_ne (h : m.Sound) (hl : m.toList = pre ++ (id, e) :: post)
    (hleft : ∀ p, pre.getLast? = some p → ¬ Twins p.2 e) {address : Nat}
    (hbefore : address + 1 = e.start) : m.usageAt? address ≠ some e.usage := by
  intro hu
  obtain ⟨q, hq, husage, hin⟩ := h.contains_of_usageAt? hu
  obtain ⟨hstart, hstop⟩ := Extent.contains_iff.mp hin
  obtain ⟨-, hpre, hpost⟩ := h.ordered_of_split hl
  have hlt := e.start_lt_stop
  rw [hl, List.mem_append, List.mem_cons] at hq
  rcases hq with hq | rfl | hq
  · rcases List.eq_nil_or_concat pre with rfl | ⟨front, last, rfl⟩
    · exact List.not_mem_nil hq
    · rw [List.concat_eq_append] at hl hleft hpre hq
      have hq' := List.mem_append.mp hq
      rw [List.mem_singleton] at hq'
      rcases hq' with hq' | rfl
      · rw [List.append_assoc] at hl
        have hfront := (h.ordered_of_split hl).2.1 q hq'
        have := last.2.start_lt_stop
        have := hpre last (by simp)
        omega
      · refine hleft q (by simp) ⟨?_, husage⟩
        have := hpre q hq
        omega
  · exact absurd hstart (by rw [← hbefore]; exact Nat.not_succ_le_self address)
  · have := hpost q hq
    omega

end Ends

/-! ## What merging absorbs -/

section Absorbed

variable {pre left right post : List (Handle × Extent)} {id : Handle} {e : Extent}
  {joined : Range}

theorem Stretch.isRunAround (hs : Stretch pre left id e right post joined) (h' : m'.Sound)
    (hl' : m'.toList = pre ++ (id, spread e joined) :: post) :
    m'.IsRunAround e.range e.usage joined := by
  obtain ⟨hstart, hstop⟩ := Range.encloses_iff.mp hs.encloses
  have hlt := e.range.start_lt_stop
  refine ⟨⟨hs.encloses, fun address hin _ => ?_⟩, fun r hr => ?_⟩
  · exact h'.usageAt?_of_mem (p := (id, spread e joined)) (by simp [hl']) hin
  · obtain ⟨hrstart, hrstop⟩ := Range.encloses_iff.mp hr.encloses
    have hbeyond : ∀ address, r.contains address = true →
        address < joined.start ∨ joined.stop ≤ address →
          m'.usageAt? address = some e.usage := by
      intro address hin hout
      refine hr.uniform address hin (Bool.eq_false_iff.mpr ?_)
      rw [ne_eq, Range.contains_iff]
      omega
    refine Range.encloses_iff.mpr ⟨Nat.le_of_not_lt fun hbefore => ?_,
      Nat.le_of_not_lt fun hbehind => ?_⟩
    · have hpred : joined.start - 1 + 1 = joined.start := by omega
      refine h'.usageAt?_before_ne hl' hs.left_end hpred ?_
      exact hbeyond _ (Range.contains_iff.mpr (by omega)) (.inl (by omega))
    · refine h'.usageAt?_stop_ne hl' hs.right_end ?_
      exact hbeyond joined.stop (Range.contains_iff.mpr (by omega)) (.inr (Nat.le_refl _))

/-- An extent of the map is among those absorbed, inside the run, or lies beside it. -/
theorem Stretch.get?_of_ne (hs : Stretch pre left id e right post joined) (h : m.Sound)
    (hl : m.toList = (pre ++ left) ++ (id, e) :: (right ++ post)) (h' : m'.Sound)
    (hl' : m'.toList = pre ++ (id, spread e joined) :: post) {other : Handle}
    (hne : other ≠ id) :
    m'.get? other = (m.get? other).filter fun o => !joined.encloses o.range := by
  obtain ⟨-, hpre, hpost⟩ := h'.ordered_of_split hl'
  have hlt : joined.start < joined.stop := joined.start_lt_stop
  have habsorbed : ∀ p ∈ left ++ (id, e) :: right, joined.encloses p.2.range = true :=
    fun p hp => Range.encloses_iff.mpr (hs.tiles.bounds_of_mem hp)
  have hkept : ∀ p ∈ pre ++ post, joined.encloses p.2.range = false := by
    intro p hp
    refine Bool.eq_false_iff.mpr fun hin => ?_
    obtain ⟨hstart, hstop⟩ := Range.encloses_iff.mp hin
    have hplt := p.2.range.start_lt_stop
    rcases List.mem_append.mp hp with hp | hp
    · have : p.2.range.stop ≤ joined.start := hpre p hp
      omega
    · have : joined.stop ≤ p.2.range.start := hpost p hp
      omega
  ext o
  replace habsorbed := habsorbed (other, o)
  replace hkept := hkept (other, o)
  have hmem : m.get? other = some o ↔ (other, o) ∈ m.toList := h.index.get?_eq_some_iff
  have hmem' : m'.get? other = some o ↔ (other, o) ∈ m'.toList := h'.index.get?_eq_some_iff
  rw [Option.filter_eq_some_iff, hmem, hmem', hl, hl']
  simp only [List.mem_append, List.mem_cons, Prod.mk.injEq, hne, false_and, false_or,
    Bool.not_eq_true'] at habsorbed hkept ⊢
  constructor
  · rintro (hp | hp)
    · exact ⟨.inl (.inl hp), hkept (.inl hp)⟩
    · exact ⟨.inr (.inr hp), hkept (.inr hp)⟩
  · rintro ⟨(hp | hp) | (hp | hp), hout⟩
    · exact .inl hp
    · exact absurd (habsorbed (.inl hp)) (by simp [hout])
    · exact absurd (habsorbed (.inr hp)) (by simp [hout])
    · exact .inr hp

/-- Where the run of an extent was, there is that extent alone afterwards. -/
theorem Coalesced.exists_run (hc : Coalesced m id m') (h : m.Sound) (hget : m.get? id = some e) :
    ∃ run, m.IsRunAround e.range e.usage run ∧ m'.get? id = some (spread e run) ∧
      ∀ other, other ≠ id →
        m'.get? other = (m.get? other).filter fun o => !run.encloses o.range := by
  have heq := hc.usageAt?_eq h
  obtain ⟨pre, left, e', right, post, joined, hl, hs, hm'⟩ := hc
  obtain rfl : e' = e := Option.some.inj ((h.get?_of_split hl).symm.trans hget)
  have h' := hm'.sound
  have hl' := hm'.toList_eq
  exact ⟨joined, (hs.isRunAround h' hl').congr fun address _ => (heq address).symm,
    h'.get?_of_split hl', fun other hne => hs.get?_of_ne h hl h' hl' hne⟩

end Absorbed

/-! ## Every merge -/

/-- Whatever has been inserted and deleted before, a merge is refused exactly at an address that
no extent contains. Anywhere else it comes to an end by itself, with more fuel than it is given
as well, and answers the extent that contains the address. That extent then has the run around
its range, and nothing else about it has changed. The other extents of the run are gone, and
those beside it are as they were. -/
theorem merge_absorbs_run {allowed : Mutation → Prop} {region : Range}
    (hm : Reachable allowed region m) (address : Nat)
    {reply : Reply ExtentMap ExtentError Handle} (hreply : (merge address).run m = reply) :
    (reply.verdict = .error .notFound ↔
      ∀ id e, m.get? id = some e → e.range.contains address = false) ∧
    ∀ id e, m.get? id = some e → e.range.contains address = true →
      reply.verdict = .ok id ∧
      (∀ fuel, m.size ≤ fuel → (mergeUpTo fuel id).outcome m = (.ok id, reply.state)) ∧
      ∃ run merged, m.IsRunAround e.range e.usage run ∧
        reply.state.get? id = some merged ∧ merged.range = run ∧ merged.usage = e.usage ∧
        merged.previous = e.previous ∧
        ∀ other o, other ≠ id → m.get? other = some o →
          reply.state.get? other = if run.encloses o.range then none else some o := by
  have h := hm.sound
  have hmem : ∀ id e, m.get? id = some e ↔ (id, e) ∈ m.toList :=
    fun _ _ => h.index.get?_eq_some_iff
  subst hreply
  rw [Operation.verdict_run, Operation.state_run]
  rcases h.merge_cases address with ⟨hout, hnone⟩ | ⟨found, e, m', hfind, hout, hc⟩
  · rw [h.find?_eq_none_iff] at hnone
    rw [hout]
    refine ⟨⟨fun _ id e hget => hnone _ ((hmem id e).mp hget), fun _ => rfl⟩, ?_⟩
    intro id e hget hin
    rw [hnone _ ((hmem id e).mp hget)] at hin
    exact nomatch hin
  · have hfound := hfind
    rw [h.find?_eq_some_iff, ← hmem] at hfound
    obtain ⟨hget, hin⟩ := hfound
    rw [hout]
    refine ⟨⟨(nomatch ·), fun hnone => ?_⟩, ?_⟩
    · rw [hnone found e hget] at hin
      exact nomatch hin
    · intro id e' hget' hin'
      obtain ⟨rfl, rfl⟩ := Prod.mk.inj (h.ordered.eq_of_contains ((hmem id e').mp hget')
        ((hmem found e).mp hget) hin' hin)
      obtain ⟨run, hrun, hmerged, hothers⟩ := hc.exists_run h hget
      refine ⟨rfl, fun fuel hfuel => ?_, run, _, hrun, hmerged, rfl, rfl, rfl, ?_⟩
      · obtain ⟨pre, post, hl⟩ := exists_split hget
        have hsize : m.toList.length = m.size := h.length_eq
        rw [hl, List.length_append, List.length_cons] at hsize
        rw [h.outcome_mergeUpTo_of_le hl (by omega) hfuel, ← hout, merge,
          Operation.outcome_get_bind]
        simp only [hfind]
        rw [mergeAround, Operation.outcome_get_bind]
      · intro other o hne hother
        rw [hothers other hne, hother, Option.filter_some]
        cases run.encloses o.range <;> rfl

/-- Three pages of one usage are put in one at a time, with a gap before the third. A merge at the
second takes in the first, whose handle is stale then, and stops at the gap. -/
theorem merge_absorbs_run_before_gap :
    let region : Range := ⟨0x1000, 0x9000, by decide, by decide⟩
    let first : Range := ⟨0x2000, 0x3000, by decide, by decide⟩
    let second : Range := ⟨0x3000, 0x4000, by decide, by decide⟩
    let third : Range := ⟨0x5000, 0x6000, by decide, by decide⟩
    let m₁ := ((Mutation.delete region).perform.run (created region)).state
    let m₂ := ((Mutation.insert first .inUse).perform.run m₁).state
    let m₃ := ((Mutation.insert second .inUse).perform.run m₂).state
    let m₄ := ((Mutation.insert third .inUse).perform.run m₃).state
    let reply := (merge 0x3800).run m₄
    reply.verdict = .ok ⟨0, 1, 0⟩ ∧
      m₄.IsRunAround second .inUse ⟨0x2000, 0x4000, by decide, by decide⟩ ∧
      reply.state.get? ⟨0, 0, 1⟩ = none ∧
      reply.state.get? ⟨0, 2, 0⟩ = some (.unlisted third .inUse .inUse) := by
  intro region first second third m₁ m₂ m₃ m₄ reply
  have hok₁ : ((Mutation.delete region).perform.run (created region)).verdict = .ok () := by
    decide +kernel
  have hok₂ : ((Mutation.insert first .inUse).perform.run m₁).verdict = .ok () := by
    decide +kernel
  have hok₃ : ((Mutation.insert second .inUse).perform.run m₂).verdict = .ok () := by
    decide +kernel
  have hok₄ : ((Mutation.insert third .inUse).perform.run m₃).verdict = .ok () := by
    decide +kernel
  have hm₁ : Reachable (fun _ => True) region m₁ :=
    .step (created_reachable _ region) _ trivial (Verdict.not_isExhaustion_of_ok hok₁)
  have hm₂ : Reachable (fun _ => True) region m₂ :=
    .step hm₁ _ trivial (Verdict.not_isExhaustion_of_ok hok₂)
  have hm₃ : Reachable (fun _ => True) region m₃ :=
    .step hm₂ _ trivial (Verdict.not_isExhaustion_of_ok hok₃)
  have hm₄ : Reachable (fun _ => True) region m₄ :=
    .step hm₃ _ trivial (Verdict.not_isExhaustion_of_ok hok₄)
  obtain ⟨-, hanswer⟩ := merge_absorbs_run hm₄ 0x3800 (show _ = reply from rfl)
  obtain ⟨hverdict, -, run, merged, hrun, hget, rfl, -, -, hothers⟩ :=
    hanswer ⟨0, 1, 0⟩ (.unlisted second .inUse .inUse) (by decide +kernel) (by decide)
  have hrange : merged.range = ⟨0x2000, 0x4000, by decide, by decide⟩ := by
    have heval : (reply.state.get? ⟨0, 1, 0⟩).map Extent.range =
      some ⟨0x2000, 0x4000, by decide, by decide⟩ := by decide +kernel
    rw [hget] at heval
    exact Option.some.inj heval
  rw [hrange] at hrun hothers
  refine ⟨hverdict, hrun, ?_, ?_⟩
  · exact hothers _ (.unlisted first .inUse .inUse) (by decide) (by decide +kernel)
  · exact hothers _ (.unlisted third .inUse .inUse) (by decide) (by decide +kernel)

end ExtentMap

end KernelMemory
