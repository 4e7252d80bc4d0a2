import KernelMemory.Proofs.Extent.Partition
import KernelMemory.Proofs.Extent.Retyping

/-!
# What an extent remembers

An extent has one place for the usage before, and it is meant for all of its addresses. A cut
keeps that up: the flanks remember what the extent did, and the piece in the middle remembers
the usage that its addresses have just lost. A merge need not. It looks at the usage of two
neighbours and not at what they remember, and the extent that absorbs the other speaks for
both from then on.

So the history of an address has to be carried beside the map to say whether it is remembered.
It is as long as no reclaim joins its range to a neighbour that remembers another usage than
the one the range is losing. After such a merge an address may be told a usage that it never
had, and go on telling it when the neighbours have been parted again.
-/

namespace KernelMemory

namespace ExtentMap

/-- What the extent that contains an address remembers. -/
def previousAt? (m : ExtentMap) (address : Nat) : Option Usage :=
  (m.find? address).map fun p => p.2.previous

section Steps

variable {m m' : ExtentMap} {id : Handle} {range : Range} {usage : Usage} {address : Nat}

theorem Sound.previousAt?_of_mem (h : m.Sound) {p : Handle × Extent} (hp : p ∈ m.toList)
    (hpa : p.2.range.contains address = true) : m.previousAt? address = some p.2.previous := by
  rw [previousAt?, h.find?_eq_some_iff.mpr ⟨hp, hpa⟩]
  rfl

theorem mem_of_previousAt? {was : Usage} (h : m.previousAt? address = some was) :
    ∃ p ∈ m.toList, p.2.range.contains address = true ∧ p.2.previous = was := by
  obtain ⟨p, hfind, rfl⟩ := Option.map_eq_some_iff.mp h
  obtain ⟨hmem, hcontains⟩ := contains_of_find? hfind
  exact ⟨p, hmem, hcontains, rfl⟩

/-! ## Merging -/

/-- Among neighbours of different usage there are no two of one. -/
theorem Unmerged.eq_singleton {l : List (Handle × Extent)} (h : Unmerged l)
    (hu : ∀ q ∈ l, q.2.usage = usage) {p : Handle × Extent} (hp : p ∈ l) : l = [p] := by
  match l, h with
  | [_], _ => rw [List.mem_singleton.mp hp]
  | q :: r :: _, h =>
    have hne := (unmerged_cons.mp h).1 r rfl
    exact absurd ((hu q (by simp)).trans (hu r (by simp)).symm) hne

/-- Where only the extent itself may have twins, and they remember what it does, merging
changes nothing that is remembered. -/
theorem Coalesced.previousAt?_eq (hc : Coalesced m id m') (h : m.Sound) {e : Extent}
    {before after : List (Handle × Extent)} (hl : m.toList = before ++ (id, e) :: after)
    (hbefore : Unmerged before) (hafter : Unmerged after)
    (hleft : ∀ p, before.getLast? = some p → Twins p.2 e → p.2.previous = e.previous)
    (hright : ∀ p, after.head? = some p → Twins e p.2 → p.2.previous = e.previous) {was : Usage}
    (hwas : m.previousAt? address = some was) : m'.previousAt? address = some was := by
  obtain ⟨pre, left, e', right, post, joined, hl', hs, hm'⟩ := hc
  obtain ⟨rfl, rfl, rfl⟩ := Tree.split_unique
    (by rw [← hl]; exact h.index.nodup) (hl.symm.trans hl')
  obtain ⟨cut, hleftTiles, rfl, hrightTiles⟩ := tiles_append.mp hs.tiles
  -- what is absorbed on a side is a single extent there, and remembers the same
  have halike : ∀ p ∈ left ++ (id, e) :: right, p.2.previous = e.previous := by
    intro p hp
    rcases List.mem_append.mp hp with hp | hp
    · obtain rfl := (unmerged_append.mp hbefore).2.1.eq_singleton
        (fun q hq => hs.uniform q (by simp [hq])) hp
      exact hleft p (by simp) ⟨hleftTiles.2, hs.uniform p (by simp)⟩
    · rcases List.mem_cons.mp hp with rfl | hp
      · rfl
      · obtain rfl := (unmerged_append.mp hafter).1.eq_singleton
          (fun q hq => hs.uniform q (by simp [hq])) hp
        exact hright p (by simp) ⟨hrightTiles.1.symm, (hs.uniform p (by simp)).symm⟩
  obtain ⟨p, hmem, hcontains, rfl⟩ := mem_of_previousAt? hwas
  have hplace : p ∈ pre ∨ p ∈ left ++ (id, e) :: right ∨ p ∈ post := by
    rw [hl] at hmem
    simp only [List.mem_append, List.mem_cons] at hmem ⊢
    tauto
  rcases hplace with hp | hp | hp
  · exact hm'.sound.previousAt?_of_mem (by rw [hm'.toList_eq]; simp [hp]) hcontains
  · rw [halike p hp]
    refine hm'.sound.previousAt?_of_mem (p := (id, spread e joined))
      (by rw [hm'.toList_eq]; simp) ?_
    obtain ⟨hlo, hhi⟩ := hs.tiles.bounds_of_mem hp
    obtain ⟨hstart, hstop⟩ := Extent.contains_iff.mp hcontains
    exact Range.contains_iff.mpr ⟨Nat.le_trans hlo hstart, Nat.lt_of_lt_of_le hstop hhi⟩
  · exact hm'.sound.previousAt?_of_mem (by rw [hm'.toList_eq]; simp [hp]) hcontains

/-- In a partition nothing has twins. -/
theorem Partition.previousAt?_of_coalesced (hp : m.Partition) (hc : Coalesced m id m')
    (h : m.Sound) {was : Usage} (hwas : m.previousAt? address = some was) :
    m'.previousAt? address = some was := by
  have ⟨pre, left, e, right, post, joined, hl, _, _⟩ := hc
  have hunmerged := hp.unmerged
  rw [hl] at hunmerged
  obtain ⟨hbefore, hrest, hleft⟩ := unmerged_append.mp hunmerged
  obtain ⟨hright, hafter⟩ := unmerged_cons.mp hrest
  exact hc.previousAt?_eq h hl hbefore hafter
    (fun p hp htwins => absurd htwins.2 (hleft p hp (id, e) rfl))
    (fun p hp htwins => absurd htwins.2 (hright p hp)) hwas

/-! ## Reclaiming -/

/-- The neighbours that a reclaim joins the range to remember the usage that the range is
losing. -/
def JoinsAlike (m : ExtentMap) (range : Range) (usage : Usage) : Prop :=
  ∀ e ∈ m.extents, e.usage = usage → e.stop = range.start ∨ e.start = range.stop →
    m.usageAt? range.start = some e.previous

instance (m : ExtentMap) (range : Range) (usage : Usage) :
    Decidable (m.JoinsAlike range usage) :=
  inferInstanceAs (Decidable (∀ e ∈ m.extents, _))

theorem JoinsAlike.previous_eq {p : Handle × Extent} (hj : m.JoinsAlike range usage)
    (hp : p ∈ m.toList) (hu : p.2.usage = usage)
    (htouches : p.2.stop = range.start ∨ p.2.start = range.stop) {was : Usage}
    (hwas : m.usageAt? range.start = some was) : p.2.previous = was :=
  Option.some.inj ((hj p.2 (List.mem_map_of_mem hp) hu htouches).symm.trans hwas)

/-- Before anything is merged, the range remembers what it lost and all else what it did. -/
theorem previousAt?_cut {m₁ : ExtentMap} {pre post before after : List (Handle × Extent)}
    {target : Handle} {whole : Extent} (hl : m.toList = pre ++ (target, whole) :: post)
    (hbefore : Flank whole whole.start range.start before)
    (hafter : Flank whole range.stop whole.stop after)
    (hm₁ : m.Becomes (pre ++ before ++
      (id, (Extent.unlisted range usage whole.usage).listed) :: (after ++ post)) m₁)
    {was : Usage} (hout : range.contains address = false)
    (hwas : m.previousAt? address = some was) : m₁.previousAt? address = some was := by
  have hmem₁ : ∀ q ∈ pre ++ before ++ (after ++ post), q ∈ m₁.toList := by
    intro q hq
    rw [hm₁.toList_eq]
    simp only [List.mem_append, List.mem_cons] at hq ⊢
    tauto
  obtain ⟨p, hmem, hcontains, rfl⟩ := mem_of_previousAt? hwas
  rw [hl, List.mem_append, List.mem_cons] at hmem
  rcases hmem with hp | rfl | hp
  · exact hm₁.sound.previousAt?_of_mem (hmem₁ p (by simp [hp])) hcontains
  · obtain ⟨hstart, hstop⟩ := Extent.contains_iff.mp hcontains
    have houtside : address < range.start ∨ range.stop ≤ address := by
      rw [Bool.eq_false_iff, ne_eq, Range.contains_iff] at hout
      omega
    -- the address has come to lie in one of the flanks
    rcases houtside with hless | hmore
    · obtain ⟨q, hq, hqa⟩ := hbefore.tiles.exists_contains hstart hless
      rw [← hbefore.previous_eq q hq]
      exact hm₁.sound.previousAt?_of_mem (hmem₁ q (by simp [hq])) hqa
    · obtain ⟨q, hq, hqa⟩ := hafter.tiles.exists_contains hmore hstop
      rw [← hafter.previous_eq q hq]
      exact hm₁.sound.previousAt?_of_mem (hmem₁ q (by simp [hq])) hqa
  · exact hm₁.sound.previousAt?_of_mem (hmem₁ p (by simp [hp])) hcontains

/-- Joined only to neighbours that remember the same, the range remembers what it lost, and
what all else remembers has not changed. -/
theorem Carved.previousAt?_eq {pre post : List (Handle × Extent)} {target : Handle}
    {whole : Extent} (hc : Carved m pre whole post range usage id m') (h : m.Sound)
    (hp : m.Partition) (hl : m.toList = pre ++ (target, whole) :: post)
    (hne : whole.usage ≠ usage) (inside : whole.range.encloses range = true)
    (hj : m.JoinsAlike range usage) {was : Usage}
    (hwas : (if range.contains address then some whole.usage else m.previousAt? address) =
      some was) : m'.previousAt? address = some was := by
  obtain ⟨before, after, m₁, hbefore, hafter, hm₁, hcoalesced⟩ := hc
  have hunmerged := hp.unmerged
  rw [hl] at hunmerged
  obtain ⟨hleft, hright⟩ := hunmerged.flanks hbefore hafter
  have hlost : m.usageAt? range.start = some whole.usage :=
    h.usageAt?_of_mem (p := (target, whole)) (by simp [hl])
      (Range.contains_of_encloses inside range.contains_start)
  refine hcoalesced.previousAt?_eq hm₁.sound hm₁.toList_eq hleft hright ?_ ?_ ?_
  · -- a flank has the usage that the range loses, so a twin is one of the neighbours
    intro p hlast htwins
    have hp : p ∈ pre ++ before := List.mem_of_getLast? hlast
    rcases List.mem_append.mp hp with hp | hp
    · exact hj.previous_eq (by simp [hl, hp]) htwins.2 (.inl htwins.1) hlost
    · exact absurd ((hbefore.usage_eq p hp).symm.trans htwins.2) hne
  · intro p hhead htwins
    have hp : p ∈ after ++ post := List.mem_of_head? hhead
    rcases List.mem_append.mp hp with hp | hp
    · exact absurd ((hafter.usage_eq p hp).symm.trans htwins.2.symm) hne
    · exact hj.previous_eq (by simp [hl, hp]) htwins.2.symm (.inr htwins.1.symm) hlost
  · by_cases hin : range.contains address = true
    · rw [if_pos hin] at hwas
      obtain rfl := Option.some.inj hwas
      exact hm₁.sound.previousAt?_of_mem
        (p := (id, (Extent.unlisted range usage whole.usage).listed))
        (by rw [hm₁.toList_eq]; simp) hin
    · rw [if_neg hin] at hwas
      exact previousAt?_cut hl hbefore hafter hm₁ (Bool.eq_false_iff.mpr hin) hwas

/-! ## The history of an address -/

/-- The usage an address had before its last change, if it had that usage before the change
from `m` to `m'`, or lost it then. -/
def recalled (m m' : ExtentMap) (past : Nat → Option Usage) (address : Nat) : Option Usage :=
  if m'.usageAt? address = m.usageAt? address then past address else m.usageAt? address

/-- The addresses that have a history have it remembered. -/
def Recalls (m : ExtentMap) (past : Nat → Option Usage) : Prop :=
  ∀ address was, past address = some was → m.previousAt? address = some was

theorem Recalls.coalesced {past : Nat → Option Usage} (hr : m.Recalls past) (h : m.Sound)
    (hp : m.Partition) (hc : Coalesced m id m') : m'.Recalls (recalled m m' past) := by
  intro address was hwas
  rw [recalled, if_pos (hc.usageAt?_eq h address)] at hwas
  exact hp.previousAt?_of_coalesced hc h (hr address was hwas)

theorem Recalls.retyped {past : Nat → Option Usage} (hr : m.Recalls past) (h : m.Sound)
    (hp : m.Partition) (hj : m.JoinsAlike range usage) (hm' : Retyped m range usage id m') :
    m'.Recalls (recalled m m' past) := by
  intro address was hwas
  have husage := hm'.usageAt?_eq h address
  obtain ⟨pre, target, whole, post, hl, inside, ⟨-, -, rfl⟩ | ⟨hne, hcarved⟩⟩ := hm'
  · rw [recalled, if_pos rfl] at hwas
    exact hr address was hwas
  · refine hcarved.previousAt?_eq h hp hl hne inside hj ?_
    by_cases hin : range.contains address = true
    · have hlost : m.usageAt? address = some whole.usage :=
        h.usageAt?_of_mem (p := (target, whole)) (by simp [hl])
          (Range.contains_of_encloses inside hin)
      rw [if_pos hin] at husage ⊢
      rwa [recalled, husage, hlost, if_neg fun heq => hne (Option.some.inj heq).symm] at hwas
    · rw [if_neg hin] at husage ⊢
      rw [recalled, if_pos husage] at hwas
      exact hr address was hwas

end Steps

/-! ## Every run -/

namespace Mutation

/-- Whether a call changes usages, or merges. -/
def Retypes : Mutation → Prop
  | .reclaim .. | .reclaimAt .. | .merge _ => True
  | .insert .. | .delete .. | .reset => False

/-- Whether a call, if it is carried out, joins the range to nothing that remembers another
usage than the one the range is losing. -/
def JoinsAlike (m : ExtentMap) : Mutation → Prop
  | .reclaim _ range usage _ | .reclaimAt range usage _ => m.JoinsAlike range usage
  | _ => True

def RetypesAlike (m : ExtentMap) (c : Mutation) : Prop :=
  c.Retypes ∧ ((c.perform.run m).verdict = .ok () → c.JoinsAlike m)

end Mutation

/-- The maps of `region` that a run of allowed calls reaches without running out of slots,
each with the usage that every address had before its last change, if there was one. -/
inductive Remembered (allowed : ExtentMap → Mutation → Prop) (region : Range) :
    ExtentMap → (Nat → Option Usage) → Prop
  | create (owner : Nat) (name : String) {m : ExtentMap}
      (h : ((ExtentMap.create owner name region : Operation Unit ExtentError ExtentMap).run
        ()).verdict = .ok m) : Remembered allowed region m fun _ => none
  | step {m : ExtentMap} {past : Nat → Option Usage} (hm : Remembered allowed region m past)
      (c : Mutation) (hc : allowed m c) (hslots : ¬ (c.perform.run m).verdict.IsExhaustion) :
      Remembered allowed region (c.perform.run m).state (recalled m (c.perform.run m).state past)

theorem created_remembered (allowed : ExtentMap → Mutation → Prop) (region : Range) :
    Remembered allowed region (created region) fun _ => none :=
  .create 0 "ram" (verdict_create region)

theorem Remembered.recalls {region : Range} {m : ExtentMap} {past : Nat → Option Usage}
    (hm : Remembered Mutation.RetypesAlike region m past) :
    m.Sound ∧ m.Partition ∧ m.Recalls past := by
  induction hm with
  | create owner name h =>
      obtain ⟨id, m, hout, hsound, hregion, hl⟩ :=
        outcome_create (σ := Unit) owner name region ()
      rw [Operation.verdict_run, hout] at h
      obtain rfl := Verdict.ok.inj h
      exact ⟨hsound, partition_seed hregion hl, fun _ _ hwas => nomatch hwas⟩
  | @step m past _ c hc hslots ih =>
      obtain ⟨h, hp, hr⟩ := ih
      obtain ⟨hretypes, hjoins⟩ := hc
      rw [Operation.verdict_run] at hslots hjoins
      rw [Operation.state_run]
      rcases h.perform_cases c with ⟨_, hout⟩ | ⟨slots, m', hout, -⟩ | ⟨m', hout, heffect⟩
      · rw [hout]
        refine ⟨h, hp, fun address was hwas => hr address was ?_⟩
        rwa [recalled, if_pos rfl] at hwas
      · exact absurd ⟨slots, by rw [hout]⟩ hslots
      · rw [hout] at hjoins ⊢
        refine ⟨heffect.sound h, ?_, ?_⟩
        · cases c with
          | reclaim | reclaimAt | merge => exact heffect.partition h hp trivial
          | insert | delete | reset => exact hretypes.elim
        · cases c with
          | reclaim | reclaimAt =>
              obtain ⟨id, hm'⟩ := heffect
              exact hr.retyped h hp (hjoins rfl) hm'
          | merge =>
              obtain ⟨id, hm'⟩ := heffect
              exact hr.coalesced h hp hm'
          | insert | delete | reset => exact hretypes.elim

/-- As long as no reclaim joins its range to a neighbour that remembers another usage than the
one the range is losing, every address whose usage has changed lies in an extent that
remembers the usage the address had before its last change. A reclaim of a range around the
address in that extent, back to what is remembered, gives the address that usage. -/
theorem last_usage_remembered {region : Range} {m : ExtentMap} {past : Nat → Option Usage}
    (hm : Remembered Mutation.RetypesAlike region m past) {address : Nat} {was : Usage}
    (hwas : past address = some was) :
    ∃ id e, m.find? address = some (id, e) ∧ e.previous = was ∧
      ∀ range reply, range.contains address = true → e.range.encloses range = true →
        (reclaim id range e.previous (some e.usage)).run m = reply →
        ¬ reply.verdict.IsExhaustion →
        (∃ answer, reply.verdict = .ok answer) ∧ reply.state.usageAt? address = some was := by
  obtain ⟨h, -, hr⟩ := hm.recalls
  obtain ⟨⟨id, e⟩, hfind, rfl⟩ := Option.map_eq_some_iff.mp (hr address was hwas)
  obtain ⟨hmem, -⟩ := contains_of_find? hfind
  refine ⟨id, e, hfind, rfl, ?_⟩
  rintro range _ hin inside rfl hslots
  obtain ⟨pre, post, hl⟩ := List.append_of_mem hmem
  rw [Operation.verdict_run] at hslots ⊢
  rw [Operation.state_run]
  rcases h.outcome_reclaim hl inside (fun _ heq => (Option.some.inj heq).symm) e.previous with
    ⟨slots, m', hout, -⟩ | ⟨answer, m', hout, hm'⟩
  · exact absurd ⟨slots, by rw [hout]⟩ hslots
  · rw [hout]
    exact ⟨⟨answer, rfl⟩, by rw [hm'.usageAt?_eq h, if_pos hin]⟩

/-- Two pages that were free are taken into use one after the other, and merged. When the first
has been put to another use, the second can still be given back. -/
theorem last_usage_remembered_of_page :
    let region : Range := ⟨0x1000, 0x9000, by decide, by decide⟩
    let first : Range := ⟨0x3000, 0x4000, by decide, by decide⟩
    let second : Range := ⟨0x4000, 0x5000, by decide, by decide⟩
    let m₁ := ((Mutation.reclaimAt first .inUse none).perform.run (created region)).state
    let m₂ := ((Mutation.reclaimAt second .inUse none).perform.run m₁).state
    let m₃ := ((Mutation.reclaimAt first .stack none).perform.run m₂).state
    m₂.extents.map Extent.usage = [.free, .inUse, .free] ∧
      ∃ id e, m₃.find? 0x4321 = some (id, e) ∧
        ((reclaim id second e.previous (some e.usage)).run m₃).state.usageAt? 0x4321 =
          some .free := by
  intro region first second m₁ m₂ m₃
  have hjoined : ∀ (m : ExtentMap) (range : Range) (usage : Usage), m.JoinsAlike range usage →
      Mutation.RetypesAlike m (.reclaimAt range usage none) := fun _ _ _ h => ⟨trivial, fun _ => h⟩
  have hok₁ : ((Mutation.reclaimAt first .inUse none).perform.run
    (created region)).verdict = .ok () := by decide +kernel
  have hok₂ : ((Mutation.reclaimAt second .inUse none).perform.run m₁).verdict = .ok () := by
    decide +kernel
  have hok₃ : ((Mutation.reclaimAt first .stack none).perform.run m₂).verdict = .ok () := by
    decide +kernel
  have hm₁ := (created_remembered Mutation.RetypesAlike region).step
    (.reclaimAt first .inUse none) (hjoined _ _ _ (by decide +kernel))
    (Verdict.not_isExhaustion_of_ok hok₁)
  have hm₂ := hm₁.step (.reclaimAt second .inUse none) (hjoined _ _ _ (by decide +kernel))
    (Verdict.not_isExhaustion_of_ok hok₂)
  have hm₃ := hm₂.step (.reclaimAt first .stack none) (hjoined _ _ _ (by decide +kernel))
    (Verdict.not_isExhaustion_of_ok hok₃)
  have hpast : recalled m₂ m₃ (recalled m₁ m₂ (recalled (created region) m₁ fun _ => none)) 0x4321 =
    some .free := by decide +kernel
  obtain ⟨id, e, hfind, -, hback⟩ := last_usage_remembered hm₃ hpast
  have hinside : (m₃.find? 0x4321).map (fun p => p.2.range.encloses second) = some true := by
    decide +kernel
  have hanswer : (m₃.find? 0x4321).map (fun p =>
      ((reclaim p.1 second p.2.previous (some p.2.usage)).run m₃).verdict) =
    some (.ok ⟨0, 1, 1⟩) := by decide +kernel
  rw [hfind] at hinside hanswer
  obtain ⟨-, hfree⟩ := hback second _ (by decide) (Option.some.inj hinside) rfl
    (Verdict.not_isExhaustion_of_ok (Option.some.inj hanswer))
  exact ⟨by decide +kernel, id, e, hfind, hfree⟩

/-- Two ranges, one free and one of a pool before, are taken into use and merged. When the
second has gone back to the pool, the first is told that it came from there, too. -/
theorem last_usage_forgotten_by_merge :
    let region : Range := ⟨0x0, 0x30, by decide, by decide⟩
    let first : Range := ⟨0x0, 0x10, by decide, by decide⟩
    let second : Range := ⟨0x10, 0x20, by decide, by decide⟩
    let m₁ := ((Mutation.reclaimAt first .inUse none).perform.run (created region)).state
    let m₂ := ((Mutation.reclaimAt second .pool none).perform.run m₁).state
    let m₃ := ((Mutation.reclaimAt second .inUse none).perform.run m₂).state
    let m₄ := ((Mutation.reclaimAt second .pool none).perform.run m₃).state
    ∃ past, Remembered (fun _ c => c.Retypes) region m₄ past ∧
      m₄.usageAt? 0x8 = some .inUse ∧ past 0x8 = some .free ∧ m₄.previousAt? 0x8 = some .pool := by
  intro region first second m₁ m₂ m₃ m₄
  have hok₁ : ((Mutation.reclaimAt first .inUse none).perform.run
    (created region)).verdict = .ok () := by decide +kernel
  have hok₂ : ((Mutation.reclaimAt second .pool none).perform.run m₁).verdict = .ok () := by
    decide +kernel
  have hok₃ : ((Mutation.reclaimAt second .inUse none).perform.run m₂).verdict = .ok () := by
    decide +kernel
  have hok₄ : ((Mutation.reclaimAt second .pool none).perform.run m₃).verdict = .ok () := by
    decide +kernel
  have hm₁ := (created_remembered (fun _ c => c.Retypes) region).step
    (.reclaimAt first .inUse none) trivial (Verdict.not_isExhaustion_of_ok hok₁)
  have hm₂ := hm₁.step (.reclaimAt second .pool none) trivial
    (Verdict.not_isExhaustion_of_ok hok₂)
  have hm₃ := hm₂.step (.reclaimAt second .inUse none) trivial
    (Verdict.not_isExhaustion_of_ok hok₃)
  have hm₄ := hm₃.step (.reclaimAt second .pool none) trivial
    (Verdict.not_isExhaustion_of_ok hok₄)
  exact ⟨_, hm₄, by decide +kernel, by decide +kernel, by decide +kernel⟩

end ExtentMap

end KernelMemory
