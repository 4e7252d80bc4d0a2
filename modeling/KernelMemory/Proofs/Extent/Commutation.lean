import KernelMemory.Proofs.Extent.RoundTrip

/-!
# The order of reclaims

A reclaim may cut, shrink, enlarge or merge away the extent that the next one is about, also
when the two ranges have no address in common. Still it does not matter which of them comes
first, because a reclaim by address is about addresses only. Extents reach exactly as far as
their usages do, so whether the range lies in one extent, and of what usage that is, is seen
from the usages of its addresses (`ReclaimAnswer`). These are what the other reclaim leaves
alone.

What is left is that changes of different addresses commute, and that a partition is
determined by the usages of its addresses. Handles are not: which piece keeps the handle of an
extent that is cut twice does depend on the order.
-/

namespace KernelMemory

namespace ExtentMap

variable {m m' : ExtentMap} {range : Range} {usage : Usage} {expected : Option Usage}
  {usages usages' : Nat → Option Usage} {verdict verdict' : Verdict ExtentError Unit}

/-! ## What a reclaim answers -/

/-- What a reclaim by address is answered where the addresses have these usages. -/
inductive ReclaimAnswer (usages : Nat → Option Usage) (range : Range) (expected : Option Usage) :
    Verdict ExtentError Unit → Prop
  | untracked (hnone : usages range.start = none) :
      ReclaimAnswer usages range expected (.error .notFound)
  | divided {address : Nat} (htracked : usages range.start ≠ none)
      (hin : range.contains address = true) (hother : usages address ≠ usages range.start) :
      ReclaimAnswer usages range expected (.error (.invalidRange range.start range.stop))
  | unexpected {was other : Usage}
      (hwas : ∀ address, range.contains address = true → usages address = some was)
      (hexpected : expected = some other) (hother : other ≠ was) :
      ReclaimAnswer usages range expected (.error (.usageMismatch other was))
  | accepted {was : Usage}
      (hwas : ∀ address, range.contains address = true → usages address = some was)
      (hexpected : ∀ other, expected = some other → other = was) :
      ReclaimAnswer usages range expected (.ok ())

namespace ReclaimAnswer

/-- Only the addresses of the range matter. -/
theorem congr (h : ReclaimAnswer usages range expected verdict)
    (hsame : ∀ address, range.contains address = true → usages' address = usages address) :
    ReclaimAnswer usages' range expected verdict := by
  have hstart := hsame range.start range.contains_start
  cases h with
  | untracked hnone => exact .untracked (hstart.trans hnone)
  | divided htracked hin hother =>
      refine .divided (hstart ▸ htracked) hin ?_
      rwa [hsame _ hin, hstart]
  | unexpected hwas hexpected hother =>
      exact .unexpected (fun a ha => (hsame a ha).trans (hwas a ha)) hexpected hother
  | accepted hwas hexpected =>
      exact .accepted (fun a ha => (hsame a ha).trans (hwas a ha)) hexpected

/-- A divided range has no usage of its own. -/
theorem not_uniform {address : Nat} {was : Usage} (hin : range.contains address = true)
    (hother : usages address ≠ usages range.start) :
    ¬ ∀ address, range.contains address = true → usages address = some was :=
  fun hwas => hother ((hwas _ hin).trans (hwas _ range.contains_start).symm)

/-- There is one answer. -/
theorem unique (h : ReclaimAnswer usages range expected verdict)
    (h' : ReclaimAnswer usages range expected verdict') : verdict = verdict' := by
  have huniform : ∀ {was was' : Usage},
      (∀ address, range.contains address = true → usages address = some was) →
      (∀ address, range.contains address = true → usages address = some was') → was = was' :=
    fun hwas hwas' => Option.some.inj
      ((hwas _ range.contains_start).symm.trans (hwas' _ range.contains_start))
  have htracked : ∀ {was : Usage},
      (∀ address, range.contains address = true → usages address = some was) →
      usages range.start ≠ none :=
    fun hwas hnone => nomatch (hwas _ range.contains_start).symm.trans hnone
  cases h with
  | untracked hnone =>
      cases h' with
      | untracked => rfl
      | divided htracked' => exact absurd hnone htracked'
      | unexpected hwas => exact absurd hnone (htracked hwas)
      | accepted hwas => exact absurd hnone (htracked hwas)
  | divided htracked' hin hother =>
      cases h' with
      | untracked hnone => exact absurd hnone htracked'
      | divided => rfl
      | unexpected hwas => exact absurd hwas (not_uniform hin hother)
      | accepted hwas => exact absurd hwas (not_uniform hin hother)
  | unexpected hwas hexpected hother =>
      cases h' with
      | untracked hnone => exact absurd hnone (htracked hwas)
      | divided _ hin hother' => exact absurd hwas (not_uniform hin hother')
      | unexpected hwas' hexpected' =>
          rw [huniform hwas hwas', Option.some.inj (hexpected.symm.trans hexpected')]
      | accepted hwas' hexpected' =>
          exact absurd (hexpected' _ hexpected) (huniform hwas hwas' ▸ hother)
  | accepted hwas hexpected =>
      cases h' with
      | untracked hnone => exact absurd hnone (htracked hwas)
      | divided _ hin hother => exact absurd hwas (not_uniform hin hother)
      | unexpected hwas' hexpected' hother =>
          exact absurd (hexpected _ hexpected') (huniform hwas hwas' ▸ hother)
      | accepted => rfl

theorem not_fault (h : ReclaimAnswer usages range expected verdict) (f : Fault) :
    verdict ≠ .fault f := by
  cases h <;> exact fun hfault => nomatch hfault

end ReclaimAnswer

/-! ## One reclaim -/

/-- A partition has become another by a reclaim with this answer. -/
structure Reclaimed (m : ExtentMap) (range : Range) (usage : Usage) (expected : Option Usage)
    (verdict : Verdict ExtentError Unit) (m' : ExtentMap) : Prop where
  sound : m'.Sound
  partition : m'.Partition
  region_eq : m'.region = m.region
  answer : ReclaimAnswer m.usageAt? range expected verdict
  usageAt?_eq : ∀ address, m'.usageAt? address =
    if verdict = .ok () ∧ range.contains address = true then some usage
    else m.usageAt? address

theorem Reclaimed.usageAt?_of_outside (hr : m.Reclaimed range usage expected verdict m')
    {address : Nat} (hout : ¬ range.contains address = true) :
    m'.usageAt? address = m.usageAt? address := by
  rw [hr.usageAt?_eq, if_neg fun hboth => hout hboth.2]

theorem Partition.reclaimed_of_error (hp : m.Partition) (h : m.Sound) {error : ExtentError}
    (hanswer : ReclaimAnswer m.usageAt? range expected (.error error)) :
    m.Reclaimed range usage expected (.error error) m :=
  ⟨h, hp, rfl, hanswer, fun _ => (if_neg fun hok => nomatch hok.1).symm⟩

/-- In a partition the answer to a reclaim by address, and what it does, is seen from the
usages of the addresses. -/
theorem Partition.reclaimed (hp : m.Partition) (h : m.Sound) (range : Range) (usage : Usage)
    (expected : Option Usage)
    (hslots : ¬ ((Mutation.reclaimAt range usage expected).perform.outcome m).1.IsExhaustion) :
    m.Reclaimed range usage expected
      ((Mutation.reclaimAt range usage expected).perform.outcome m).1
      ((Mutation.reclaimAt range usage expected).perform.outcome m).2 := by
  rw [Mutation.perform, reclaimAt, bind_assoc, Operation.outcome_get_bind] at hslots ⊢
  cases hfind : m.find? range.start with
  | none =>
      have hnone : m.usageAt? range.start = none := by rw [usageAt?, hfind]; rfl
      exact hp.reclaimed_of_error h (.untracked hnone)
  | some found =>
      obtain ⟨target, whole⟩ := found
      obtain ⟨hmem, hcontains⟩ := contains_of_find? hfind
      obtain ⟨pre, post, hl⟩ := List.append_of_mem hmem
      have hget := h.get?_of_split hl
      have hstart : m.usageAt? range.start = some whole.usage := h.usageAt?_of_mem hmem hcontains
      simp only [hfind] at hslots ⊢
      cases inside : whole.range.encloses range with
      | false =>
          rw [Operation.outcome_bind_error (outcome_reclaim_of_outside expected hget inside)]
          refine hp.reclaimed_of_error h ?_
          -- a range of one usage would lie in the extent that its start is in
          have hdivided : ∃ address, range.contains address = true ∧
              m.usageAt? address ≠ some whole.usage := by
            by_contra huniform
            push Not at huniform
            obtain ⟨p, -, hfind', -, hin⟩ := hp.exists_encloses h huniform
            obtain rfl := Option.some.inj (hfind.symm.trans hfind')
            rw [inside] at hin
            cases hin
          obtain ⟨address, hin, hother⟩ := hdivided
          exact .divided (by simp [hstart]) hin (hstart ▸ hother)
      | true =>
          have hwas : ∀ address, range.contains address = true →
              m.usageAt? address = some whole.usage :=
            fun _ hin => h.usageAt?_of_mem hmem (Range.contains_of_encloses inside hin)
          by_cases hexpected : ∀ other, expected = some other → other = whole.usage
          · rcases h.outcome_reclaim hl inside hexpected usage with
              ⟨slots, m', hout, -⟩ | ⟨id, m', hout, hr⟩
            · rw [Operation.outcome_bind_fault hout] at hslots
              exact absurd ⟨slots, rfl⟩ hslots
            · rw [Operation.outcome_bind_ok hout, Operation.outcome_pure]
              refine ⟨hr.sound h, hr.partition hp, hr.sameFrame.region_eq,
                .accepted hwas hexpected, fun address => ?_⟩
              rw [hr.usageAt?_eq h]
              simp only [true_and]
          · push Not at hexpected
            obtain ⟨other, rfl, hother⟩ := hexpected
            rw [Operation.outcome_bind_error (outcome_reclaim_of_mismatch hget inside hother)]
            exact hp.reclaimed_of_error h (.unexpected hwas rfl hother)

/-! ## Two reclaims -/

theorem not_contains_of_overlaps {r s : Range} (h : r.overlaps s = false) {address : Nat}
    (hs : s.contains address = true) : ¬ r.contains address = true := by
  simp only [Range.overlaps, Bool.and_eq_false_iff, decide_eq_false_iff_not] at h
  rw [Range.contains_iff] at hs ⊢
  omega

/-- A reclaim elsewhere does not change what a reclaim is answered. -/
theorem Reclaimed.answer_of_apart {other : Range} {expected' : Option Usage}
    (hr : m.Reclaimed range usage expected verdict m') (hapart : range.overlaps other = false)
    (h : ReclaimAnswer m'.usageAt? other expected' verdict') :
    ReclaimAnswer m.usageAt? other expected' verdict' := by
  refine h.congr fun address hin => ?_
  rw [hr.usageAt?_of_outside (not_contains_of_overlaps hapart hin)]

/-- Two reclaims, made in either order, have had the same answers and the same effect. -/
theorem Reclaimed.commute {m₁ m₁₂ m₂ m₂₁ : ExtentMap} {r₁ r₂ : Range} {u₁ u₂ : Usage}
    {e₁ e₂ : Option Usage} {v₁ v₂ v₁' v₂' : Verdict ExtentError Unit}
    (h₁ : m.Reclaimed r₁ u₁ e₁ v₁ m₁) (h₁₂ : m₁.Reclaimed r₂ u₂ e₂ v₂ m₁₂)
    (h₂ : m.Reclaimed r₂ u₂ e₂ v₂' m₂) (h₂₁ : m₂.Reclaimed r₁ u₁ e₁ v₁' m₂₁)
    (hapart : r₁.overlaps r₂ = false) : v₁' = v₁ ∧ v₂' = v₂ ∧ m₂₁.layout = m₁₂.layout := by
  have hapart' : r₂.overlaps r₁ = false := by
    rw [Range.overlaps, Bool.and_comm]
    exact hapart
  obtain rfl : v₁' = v₁ := (h₂.answer_of_apart hapart' h₂₁.answer).unique h₁.answer
  obtain rfl : v₂' = v₂ := h₂.answer.unique (h₁.answer_of_apart hapart h₁₂.answer)
  have hregion : m₂₁.region = m₁₂.region := by
    rw [h₂₁.region_eq, h₂.region_eq, h₁₂.region_eq, h₁.region_eq]
  refine ⟨rfl, rfl, h₁₂.partition.layout_eq h₂₁.partition h₁₂.sound h₂₁.sound hregion ?_⟩
  intro address
  by_cases hin : r₂.contains address = true
  · have hout := not_contains_of_overlaps hapart hin
    rw [h₂₁.usageAt?_of_outside hout, h₂.usageAt?_eq, h₁₂.usageAt?_eq,
      h₁.usageAt?_of_outside hout]
  · rw [h₂₁.usageAt?_eq, h₂.usageAt?_of_outside hin, h₁₂.usageAt?_of_outside hin,
      h₁.usageAt?_eq]

/-- Two reclaims of ranges without a common address may be made in either order. Each of them
is answered the same way, with the same error if it is refused, and in the end there are the
same ranges with the same usages. This is so also where the one changes the very extent that
the other one is about. -/
theorem reclaims_commute {allowed : Mutation → Prop} {region : Range}
    (hm : Reachable allowed region m) (haudit : m.audit = .ok ()) {r₁ r₂ : Range}
    (hapart : r₁.overlaps r₂ = false) (u₁ u₂ : Usage) (e₁ e₂ : Option Usage)
    {a b a' b' : Reply ExtentMap ExtentError Unit}
    (ha : (Mutation.reclaimAt r₁ u₁ e₁).perform.run m = a)
    (hb : (Mutation.reclaimAt r₂ u₂ e₂).perform.run a.state = b)
    (hb' : (Mutation.reclaimAt r₂ u₂ e₂).perform.run m = b')
    (ha' : (Mutation.reclaimAt r₁ u₁ e₁).perform.run b'.state = a')
    (hslots : ¬ a.verdict.IsExhaustion ∧ ¬ b.verdict.IsExhaustion)
    (hslots' : ¬ b'.verdict.IsExhaustion ∧ ¬ a'.verdict.IsExhaustion) :
    (∀ f, a.verdict ≠ .fault f) ∧ (∀ f, b.verdict ≠ .fault f) ∧
      a'.verdict = a.verdict ∧ b'.verdict = b.verdict ∧ a'.state.layout = b.state.layout := by
  have h := hm.sound
  have hp := h.audit_eq_ok_iff.mp haudit
  subst ha hb hb' ha'
  have h₁ := hp.reclaimed h r₁ u₁ e₁ hslots.1
  have h₁₂ := h₁.partition.reclaimed h₁.sound r₂ u₂ e₂ hslots.2
  have h₂ := hp.reclaimed h r₂ u₂ e₂ hslots'.1
  have h₂₁ := h₂.partition.reclaimed h₂.sound r₁ u₁ e₁ hslots'.2
  exact ⟨h₁.answer.not_fault, h₁₂.answer.not_fault, h₁.commute h₁₂ h₂ h₂₁ hapart⟩

/-- Two pages of a free region that touch are taken into use. Whichever comes first cuts the
extent that the other one is about, and is merged with the other one afterwards. -/
theorem reclaims_commute_side_by_side :
    let region : Range := ⟨0x1000, 0x9000, by decide, by decide⟩
    let low : Range := ⟨0x3000, 0x4000, by decide, by decide⟩
    let high : Range := ⟨0x4000, 0x5000, by decide, by decide⟩
    let m := created region
    let a := (Mutation.reclaimAt low .inUse (some .free)).perform.run m
    let b := (Mutation.reclaimAt high .inUse (some .free)).perform.run a.state
    let b' := (Mutation.reclaimAt high .inUse (some .free)).perform.run m
    let a' := (Mutation.reclaimAt low .inUse (some .free)).perform.run b'.state
    low.overlaps high = false ∧ a'.verdict = .ok () ∧ a'.state.layout = b.state.layout ∧
      b.state.layout.map (fun e => (e.1.start, e.2)) =
        [(0x1000, .free), (0x3000, .inUse), (0x5000, .free)] := by
  intro region low high m a b b' a'
  have ha : a.verdict = .ok () := by decide +kernel
  have hb : b.verdict = .ok () := by decide +kernel
  have hb' : b'.verdict = .ok () := by decide +kernel
  have ha' : a'.verdict = .ok () := by decide +kernel
  have haudit : m.audit = .ok () := by decide +kernel
  obtain ⟨-, -, -, -, hlayout⟩ := reclaims_commute (created_reachable (fun _ => True) region)
    haudit (by decide) .inUse .inUse (some .free) (some .free) (show _ = a from rfl)
    (show _ = b from rfl) (show _ = b' from rfl) (show _ = a' from rfl)
    ⟨Verdict.not_isExhaustion_of_ok ha, Verdict.not_isExhaustion_of_ok hb⟩
    ⟨Verdict.not_isExhaustion_of_ok hb', Verdict.not_isExhaustion_of_ok ha'⟩
  exact ⟨by decide, ha', hlayout, by decide +kernel⟩

end ExtentMap

end KernelMemory
