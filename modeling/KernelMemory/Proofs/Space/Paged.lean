import KernelMemory.Proofs.Extent.Partition
import KernelMemory.Proofs.Extent.Retyping
import KernelMemory.Proofs.Page
import KernelMemory.Space.Basic

/-!
# Managed maps

The map of an address space is a partition in which everything that is not free was free
before. Reclaims keep it so, as long as one of the two usages is free, and that is all an
address space ever does. Over whole pages they keep it a partition into whole pages, too;
where extents may begin and end is a parameter here, since most of what follows does not
depend on it.

What an address space does is then said by addresses alone: `Converts` lists the ranges that
get a usage, and says that no other address changes. Where extents begin or end needs no
thought any more, since in a partition a range of one usage always lies in one extent.
-/

namespace KernelMemory

def Range.Paged (r : Range) : Prop :=
  Page.size ∣ r.start ∧ Page.size ∣ r.stop

namespace ExtentMap

/-- A partition in which what is not free was free before, and with boundaries only where
they may be. -/
structure Managed (D : Nat → Prop) (m : ExtentMap) : Prop where
  sound : m.Sound
  partition : m.Partition
  aligned : ∀ p ∈ m.toList, D p.2.start ∧ D p.2.stop
  restores : ∀ p ∈ m.toList, p.2.usage ≠ .free → p.2.previous = .free

/-- A partition into whole pages in which what is not free was free before. -/
abbrev Paged (m : ExtentMap) : Prop :=
  m.Managed (Page.size ∣ ·)

theorem managed_seed {D : Nat → Prop} {m : ExtentMap} (h : m.Sound) {id : Handle}
    (hregion : D m.region.start ∧ D m.region.stop) (hl : m.toList = [(id, seed m.region)]) :
    m.Managed D := by
  refine ⟨h, partition_seed rfl hl, fun p hp => ?_, fun p hp hused => ?_⟩
  all_goals
    rw [hl, List.mem_singleton] at hp
    subst hp
  · exact hregion
  · exact absurd rfl hused

/-! ## Ranges that get a usage -/

/-- The addresses of the ranges, and no others, have got the usage. -/
structure Converts (D : Nat → Prop) (m : ExtentMap) (ranges : List Range) (usage : Usage)
    (m' : ExtentMap) : Prop where
  managed : m'.Managed D
  region_eq : m'.region = m.region
  usageAt?_eq : ∀ address, m'.usageAt? address =
    if ranges.any (·.contains address) then some usage else m.usageAt? address

/-- The same over whole pages. -/
abbrev Retypes (m : ExtentMap) (ranges : List Range) (usage : Usage) (m' : ExtentMap) : Prop :=
  m.Converts (Page.size ∣ ·) ranges usage m'

section Steps

variable {D : Nat → Prop} {m m' : ExtentMap} {range : Range} {usage was : Usage}

theorem Managed.converts_nil (hm : m.Managed D) (usage : Usage) : m.Converts D [] usage m :=
  ⟨hm, rfl, fun _ => rfl⟩

theorem Converts.trans {m'' : ExtentMap} {ranges ranges' : List Range}
    (h : m.Converts D ranges usage m') (h' : m'.Converts D ranges' usage m'') :
    m.Converts D (ranges ++ ranges') usage m'' := by
  refine ⟨h'.managed, h'.region_eq.trans h.region_eq, ?_⟩
  intro address
  rw [h'.usageAt?_eq, h.usageAt?_eq, List.any_append]
  cases ranges.any (·.contains address) <;> cases ranges'.any (·.contains address) <;> rfl

theorem Converts.usageAt?_of_apart {ranges : List Range} (h : m.Converts D ranges usage m')
    {address : Nat} (hout : ∀ r ∈ ranges, r.contains address = false) :
    m'.usageAt? address = m.usageAt? address := by
  rw [h.usageAt?_eq, if_neg]
  simpa using hout

theorem Managed.converts (hm : m.Managed D) {id : Handle} (hr : Retyped m range usage id m')
    (hrange : D range.start ∧ D range.stop) (hwas : m.usageAt? range.start = some was)
    (hfree : usage = .free ∨ was = .free) : m.Converts D [range] usage m' := by
  have hrestores : ∀ p ∈ m'.toList, p.2.usage ≠ .free → p.2.previous = .free := by
    refine hr.remembers (Q := fun u old => u ≠ .free → old = .free) hm.sound hm.restores
      ?_
    intro old hold hused
    obtain rfl := Option.some.inj (hwas.symm.trans hold)
    exact hfree.resolve_left hused
  refine ⟨⟨hr.sound hm.sound, hr.partition hm.partition, hr.boundary hm.aligned hrange,
    hrestores⟩, hr.sameFrame.region_eq, ?_⟩
  intro address
  rw [hr.usageAt?_eq hm.sound]
  simp

/-- A reclaim inside an extent. -/
theorem Managed.outcome_reclaim (hm : m.Managed D) {p : Handle × Extent} (hp : p ∈ m.toList)
    (inside : p.2.range.encloses range = true) (hrange : D range.start ∧ D range.stop)
    (usage : Usage) (hfree : usage = .free ∨ p.2.usage = .free) :
    (∃ slots m', (reclaim p.1 range usage (some p.2.usage)).outcome m =
        (.fault (.slotsExhausted slots), m')) ∨
      ∃ id m', (reclaim p.1 range usage (some p.2.usage)).outcome m = (.ok id, m') ∧
        m.Converts D [range] usage m' := by
  obtain ⟨pre, post, hl⟩ := List.append_of_mem hp
  rcases hm.sound.outcome_reclaim hl inside
    (fun _ h => (Option.some.inj h).symm) usage with ⟨slots, m', hout, -⟩ | ⟨id, m', hout, hr⟩
  · exact .inl ⟨slots, m', hout⟩
  · have hwas := hm.sound.usageAt?_of_mem hp
      (Range.contains_of_encloses inside range.contains_start)
    exact .inr ⟨id, m', hout, hm.converts hr hrange hwas hfree⟩

/-- Whatever its arguments are, a reclaim between free and another usage leaves the map
managed. -/
theorem Managed.of_reclaim (hm : m.Managed D) (target : Handle)
    (hrange : D range.start ∧ D range.stop) (usage : Usage) {expected : Usage}
    (hfree : usage = .free ∨ expected = .free)
    (hslots : ¬ ((reclaim target range usage (some expected)).outcome m).1.IsExhaustion) :
    ((reclaim target range usage (some expected)).outcome m).2.Managed D := by
  cases hget : m.get? target with
  | none =>
      rw [outcome_reclaim_of_stale _ hget]
      exact hm
  | some whole =>
      cases inside : whole.range.encloses range with
      | false =>
          rw [outcome_reclaim_of_outside _ hget inside]
          exact hm
      | true =>
          by_cases hexpected : expected = whole.usage
          · subst hexpected
            have hmem : (target, whole) ∈ m.toList := Tree.mem_of_find? hget
            rcases hm.outcome_reclaim hmem inside hrange usage hfree with
              ⟨slots, m', hout⟩ | ⟨id, m', hout, hm'⟩
            · exact absurd ⟨slots, by rw [hout]⟩ hslots
            · rw [hout]
              exact hm'.managed
          · rw [outcome_reclaim_of_mismatch hget inside hexpected]
            exact hm

theorem Managed.of_reclaimAt (hm : m.Managed D) (hrange : D range.start ∧ D range.stop)
    (usage : Usage) {expected : Usage} (hfree : usage = .free ∨ expected = .free)
    (hslots : ¬ ((reclaimAt range usage (some expected)).outcome m).1.IsExhaustion) :
    ((reclaimAt range usage (some expected)).outcome m).2.Managed D := by
  rw [reclaimAt, Operation.outcome_get_bind] at hslots ⊢
  cases hfind : m.find? range.start with
  | none => exact hm
  | some found =>
      simp only [hfind] at hslots
      exact hm.of_reclaim found.1 hrange usage hfree hslots

/-- A reclaim of addresses of one usage, by address. -/
theorem Managed.outcome_reclaimAt (hm : m.Managed D) (hrange : D range.start ∧ D range.stop)
    (hwas : ∀ address, range.contains address = true → m.usageAt? address = some was)
    (usage : Usage) (hfree : usage = .free ∨ was = .free) :
    (∃ slots m', (reclaimAt range usage (some was)).outcome m =
        (.fault (.slotsExhausted slots), m')) ∨
      ∃ id m', (reclaimAt range usage (some was)).outcome m = (.ok id, m') ∧
        m.Converts D [range] usage m' := by
  obtain ⟨p, hp, hfind, rfl, inside⟩ := hm.partition.exists_encloses hm.sound hwas
  rw [reclaimAt, Operation.outcome_get_bind]
  simp only [hfind]
  exact hm.outcome_reclaim hp inside hrange usage hfree

end Steps

end ExtentMap

end KernelMemory
