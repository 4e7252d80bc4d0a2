import KernelMemory.Proofs.Extent.Lockstep
import KernelMemory.Proofs.Extent.Partition
import KernelMemory.Proofs.Extent.Retyping

/-!
# There and back

A reclaim remembers the usage that its range had, and a second one that gives it back makes the
partition what it was, whatever was cut and merged on the way. No comparison of the pieces is
needed for this. A partition without equal neighbours is determined by the usages of the
addresses: an extent reaches exactly as far as its usage does. The first reclaim changes the
usages in its range and no others, and the second one changes them back.

The second reclaim does not run out of slots. It makes at most as many pieces as the first one
has absorbed, so the map does not get larger than it was between the first one's cuts and its
merges. That the slots were enough for that map is seen from the map with its links, which
counts them.
-/

namespace KernelMemory

open Operation (Agree)

namespace ExtentMap

variable {m m' m'' : ExtentMap} {id id' target : Handle} {e whole : Extent} {range : Range}
  {usage was : Usage} {start stop : Nat} {p q : Handle × Extent}
  {l l' : List (Handle × Extent)}

/-! ## Usages determine a partition -/

/-- The ranges of the extents and their usages, in the order of addresses. -/
def layout (m : ExtentMap) : List (Range × Usage) :=
  m.extents.map fun e => (e.range, e.usage)

theorem usageIn_start (h : Tiles start (p :: l) stop) :
    usageIn (p :: l) start = some p.2.usage := by
  have hlt := p.2.start_lt_stop
  have hstart := h.1
  rw [usageIn_cons, if_pos (by omega)]

theorem usageIn_of_lt (h : Tiles start l stop) {address : Nat} (hlt : address < start) :
    usageIn l address = none :=
  usageIn_eq_none fun _ hp hin =>
    absurd (Nat.lt_of_lt_of_le hlt (Nat.le_trans (h.bounds_of_mem hp).1 hin.1)) (Nat.lt_irrefl _)

/-- No extent reaches beyond the addresses of its usage. -/
theorem stop_le_of_usageIn_eq (hl : Tiles start (p :: l) stop) (hu : Unmerged (p :: l))
    (hl' : Tiles start (q :: l') stop)
    (h : ∀ address, usageIn (p :: l) address = usageIn (q :: l') address) :
    q.2.stop ≤ p.2.stop := by
  have hlt := p.2.start_lt_stop
  have hstart := hl.1
  have hstart' := hl'.1
  have husage : p.2.usage = q.2.usage := by
    have := h start
    rwa [usageIn_start hl, usageIn_start hl', Option.some.injEq] at this
  by_contra hbeyond
  cases l with
  | nil =>
      have hend : p.2.stop = stop := hl.2
      have hle := hl'.2.start_le_stop
      omega
  | cons r l =>
      -- the next extent starts where the usage has not changed yet
      have hnext := h p.2.stop
      rw [usageIn_cons p, if_neg (by omega), usageIn_start hl.2, usageIn_cons q,
        if_pos (by omega), ← husage, Option.some.injEq] at hnext
      exact (unmerged_cons.mp hu).1 r rfl hnext.symm

theorem Tiles.layout_eq (hl : Tiles start l stop) (hu : Unmerged l) (hl' : Tiles start l' stop)
    (hu' : Unmerged l') (h : ∀ address, usageIn l address = usageIn l' address) :
    l.map (fun p => (p.2.range, p.2.usage)) = l'.map fun p => (p.2.range, p.2.usage) := by
  induction l generalizing start l' with
  | nil =>
      cases l' with
      | nil => rfl
      | cons q l' =>
          have := h start
          rw [usageIn_nil, usageIn_start hl'] at this
          cases this
  | cons p l ih =>
      cases l' with
      | nil =>
          have := h start
          rw [usageIn_nil, usageIn_start hl] at this
          cases this
      | cons q l' =>
          have husage := h start
          rw [usageIn_start hl, usageIn_start hl', Option.some.injEq] at husage
          have hstop : p.2.stop = q.2.stop := Nat.le_antisymm
            (stop_le_of_usageIn_eq hl' hu' hl fun address => (h address).symm)
            (stop_le_of_usageIn_eq hl hu hl' h)
          have hrange : p.2.range = q.2.range := Range.ext (hl.1.trans hl'.1.symm) hstop
          have hrest : ∀ address, usageIn l address = usageIn l' address := by
            intro address
            have haddress := h address
            rw [usageIn_cons, usageIn_cons, ← hstop] at haddress
            by_cases hlt : address < p.2.stop
            · rw [usageIn_of_lt hl.2 hlt, usageIn_of_lt hl'.2 (hstop ▸ hlt)]
            · rwa [if_neg (by omega), if_neg (by omega)] at haddress
          rw [List.map_cons, List.map_cons, hrange, husage,
            ih hl.2 (unmerged_cons.mp hu).2 (hstop ▸ hl'.2) (unmerged_cons.mp hu').2 hrest]

/-- Two partitions of one region that give every address the same usage are the same. -/
theorem Partition.layout_eq (hp : m.Partition) (hp' : m'.Partition) (h : m.Sound)
    (h' : m'.Sound) (hregion : m'.region = m.region)
    (husage : ∀ address, m'.usageAt? address = m.usageAt? address) : m'.layout = m.layout := by
  have htiles := hp'.tiles
  rw [hregion] at htiles
  unfold layout extents
  rw [List.map_map, List.map_map]
  refine htiles.layout_eq hp'.unmerged hp.tiles hp.unmerged fun address => ?_
  rw [← h.usageAt?_eq, ← h'.usageAt?_eq, husage]

/-- A range whose usage is changed and changed back leaves the partition as it was. -/
theorem Retyped.layout_eq (hr : Retyped m range usage id m') (hr' : Retyped m' range was id' m'')
    (h : m.Sound) (hp : m.Partition)
    (hwas : ∀ address, range.contains address = true → m.usageAt? address = some was) :
    m''.layout = m.layout := by
  have h' := hr.sound h
  refine hp.layout_eq (hr'.partition (hr.partition hp)) h (hr'.sound h')
    (hr'.sameFrame.region_eq.trans hr.sameFrame.region_eq) fun address => ?_
  rw [hr'.usageAt?_eq h', hr.usageAt?_eq h]
  split
  · next hin => exact (hwas address hin).symm
  · rfl

/-! ## Slots for the way back -/

/-- What a merge has absorbed would pay for cutting the extent out again. -/
theorem Coalesced.flanks_le (hc : Coalesced m id m') (h : m.Sound) (hget : m.get? id = some e) :
    ∃ pre post joined, m'.toList = pre ++ (id, spread e joined) :: post ∧
      joined.encloses e.range = true ∧ m'.size + flanks joined e.range ≤ m.size := by
  obtain ⟨pre, left, e', right, post, joined, hl, hs, hm'⟩ := hc
  obtain rfl : e' = e := Option.some.inj ((h.get?_of_split hl).symm.trans hget)
  refine ⟨pre, post, joined, hm'.toList_eq, hs.encloses, ?_⟩
  obtain ⟨_, hleft, rfl, hright⟩ := tiles_append.mp hs.tiles
  have hfront : (if joined.start < e'.range.start then 1 else 0) ≤ left.length := by
    split
    · next hlt =>
      cases left with
      | nil => exact absurd hleft (Nat.ne_of_lt hlt)
      | cons => simp
    · exact Nat.zero_le _
  have hback : (if e'.range.stop < joined.stop then 1 else 0) ≤ right.length := by
    split
    · next hlt =>
      cases right with
      | nil => exact absurd hright (Nat.ne_of_lt hlt)
      | cons => simp
    · exact Nat.zero_le _
  rw [hm'.size_eq, ← h.length_eq, hl, flanks]
  simp only [List.length_append, List.length_cons]
  omega

end ExtentMap

namespace LinkedMap

variable {x : LinkedMap} {m m' : ExtentMap}

/-- A map that has been cut has no more extents than there are slot numbers. -/
theorem Mirrors.size_le_of_cut (h : x.Mirrors m) {target id : Handle} {whole : Extent}
    {range : Range} {usage : Usage} {inside : whole.range.encloses range = true}
    (hout : (ExtentMap.cut target whole range usage inside).outcome m = (.ok id, m')) :
    m'.size ≤ Slots.capacity := by
  have hcut := (h.cutFront target whole range usage inside).bind fun middle _ _ _ h₁ =>
    (h₁.cutBack whole range).bind fun _ _ _ _ h₂ => .pure h₂ middle
  obtain ⟨_, _, m₁, -, hout₁, hmirrors⟩ := hcut.exists_outcome
  obtain ⟨-, rfl⟩ := Prod.mk.inj (hout₁.symm.trans hout)
  exact hmirrors.size_le

end LinkedMap

namespace ExtentMap

variable {m : ExtentMap} {target id : Handle} {whole : Extent} {range : Range} {usage : Usage}

/-- A reachable map can be held with links. -/
theorem Reachable.exists_linked {allowed : Mutation → Prop} {region : Range}
    (hm : Reachable allowed region m) : ∃ x : LinkedMap, x.Mirrors m := by
  induction hm with
  | create owner name h =>
      obtain ⟨x, m, -, hout, hmirrors, -⟩ :=
        LinkedMap.outcome_create (σ := Unit) owner name region ()
      rw [Operation.verdict_run, hout] at h
      obtain rfl := Verdict.ok.inj h
      exact ⟨x, hmirrors⟩
  | step _ c _ _ ih =>
      obtain ⟨x, hmirrors⟩ := ih
      exact ⟨_, (hmirrors.perform c).related⟩

/-! ## The round trip -/

/-- A reclaim that changes the usage of a range can be undone. It answers an extent that
remembers what the usage was, and a reclaim of the range in that extent, back to what it
remembers, succeeds and leaves the same ranges with the same usages as there were at first.
This is so whatever the neighbours are and whatever the first reclaim merged. -/
theorem reclaim_round_trip {allowed : Mutation → Prop} {region : Range}
    (hm : Reachable allowed region m) (haudit : m.audit = .ok ())
    (hget : m.get? target = some whole) (inside : whole.range.encloses range = true)
    (hne : usage ≠ whole.usage) {reply : Reply ExtentMap ExtentError Handle}
    (hreply : (reclaim target range usage none).run m = reply) (hid : reply.verdict = .ok id) :
    ∃ e, reply.state.get? id = some e ∧ e.previous = whole.usage ∧
      ∃ back, (reclaim id range e.previous (some usage)).run reply.state = back ∧
        (∃ id', back.verdict = .ok id') ∧ back.state.layout = m.layout := by
  have h := hm.sound
  have hp := h.audit_eq_ok_iff.mp haudit
  obtain ⟨x, hx⟩ := hm.exists_linked
  obtain ⟨pre, post, hl⟩ := exists_split hget
  subst hreply
  rw [Operation.verdict_run, outcome_reclaim_of_accepted hget inside (by simp),
    if_neg hne.symm] at hid
  rw [Operation.state_run, outcome_reclaim_of_accepted hget inside (by simp), if_neg hne.symm]
  rcases h.outcome_cut hl inside usage with
    ⟨slots, m', hout, -⟩ | ⟨id', m₁, before, after, hcut, hbefore, hafter, hm₁, -⟩
  · rw [carve_eq_cut, Operation.outcome_bind_fault hout] at hid
    cases hid
  · obtain ⟨m', hout, hm'⟩ := hm₁.sound.outcome_carve_of_cut hm₁.toList_eq hcut
    rw [hout] at hid ⊢
    obtain rfl := Verdict.ok.inj hid
    have h' := hm'.sound
    have hr : Retyped m range usage id' m' := ⟨pre, target, whole, post, hl, inside,
      .inr ⟨hne.symm, before, after, m₁, hbefore, hafter, hm₁, hm'⟩⟩
    obtain ⟨pre', post', joined, hl', inside', hroom⟩ :=
      hm'.flanks_le hm₁.sound (hm₁.sound.get?_of_split hm₁.toList_eq)
    refine ⟨_, h'.get?_of_split hl', rfl, _, rfl, ?_⟩
    replace inside' : (spread (Extent.unlisted range usage whole.usage).listed joined).range.encloses
      range = true := inside'
    have hexpected : ∀ other, some usage = some other → other = usage :=
      fun _ heq => (Option.some.inj heq).symm
    rcases h'.outcome_reclaim hl' inside' hexpected whole.usage with
      ⟨slots, m'', -, -, hfull, hless⟩ | ⟨id'', m'', hback, hr'⟩
    · have hsize := hx.size_le_of_cut hcut
      exact absurd (Nat.lt_of_lt_of_le hless hroom) (Nat.not_lt.mpr (Nat.le_trans hsize hfull))
    · rw [Operation.verdict_run, Operation.state_run]
      refine ⟨⟨id'', congrArg Prod.fst hback⟩, ?_⟩
      refine (congrArg (fun outcome => outcome.2.layout) hback).trans ?_
      refine hr.layout_eq hr' h hp fun address hin => ?_
      exact h.usageAt?_of_mem (p := (target, whole)) (by simp [hl])
        (Range.contains_of_encloses inside hin)

/-- The gap between two ranges in use is taken into use, and all three become one extent. Given
back, the gap is free again and the ranges beside it are two. -/
theorem reclaim_round_trip_of_gap :
    let region : Range := ⟨0x1000, 0x9000, by decide, by decide⟩
    let gap : Range := ⟨0x3000, 0x4000, by decide, by decide⟩
    let m₁ := ((Mutation.reclaimAt ⟨0x2000, 0x3000, by decide, by decide⟩ .inUse none).perform.run
      (created region)).state
    let m₂ := ((Mutation.reclaimAt ⟨0x4000, 0x5000, by decide, by decide⟩ .inUse none).perform.run
      m₁).state
    let m₃ := ((reclaim ⟨0, 2, 0⟩ gap .inUse none).run m₂).state
    m₃.layout.map (fun e => (e.1.start, e.2)) =
        [(0x1000, .free), (0x2000, .inUse), (0x5000, .free)] ∧
      ∃ e, m₃.get? ⟨0, 2, 0⟩ = some e ∧
        ((reclaim ⟨0, 2, 0⟩ gap e.previous (some .inUse)).run m₃).state.layout = m₂.layout := by
  intro region gap m₁ m₂ m₃
  have hok₁ : ((Mutation.reclaimAt ⟨0x2000, 0x3000, by decide, by decide⟩ .inUse none).perform.run
    (created region)).verdict = .ok () := by decide +kernel
  have hok₂ : ((Mutation.reclaimAt ⟨0x4000, 0x5000, by decide, by decide⟩ .inUse none).perform.run
    m₁).verdict = .ok () := by decide +kernel
  have hok₃ : ((reclaim ⟨0, 2, 0⟩ gap .inUse none).run m₂).verdict = .ok ⟨0, 2, 0⟩ := by
    decide +kernel
  have hm₁ : Reachable Mutation.KeepsPartition region m₁ := (created_reachable _ region).step
    (.reclaimAt _ .inUse none) trivial (Verdict.not_isExhaustion_of_ok hok₁)
  have hm₂ : Reachable Mutation.KeepsPartition region m₂ := hm₁.step
    (.reclaimAt _ .inUse none) trivial (Verdict.not_isExhaustion_of_ok hok₂)
  have hget : m₂.get? ⟨0, 2, 0⟩ = some ⟨gap, .free, .free, some 0⟩ := by decide +kernel
  obtain ⟨e, hlive, -, _, rfl, -, hlayout⟩ := reclaim_round_trip hm₂ (by decide +kernel) hget
    (by decide) (by decide) rfl hok₃
  exact ⟨by decide +kernel, e, hlive, hlayout⟩

end ExtentMap

end KernelMemory
