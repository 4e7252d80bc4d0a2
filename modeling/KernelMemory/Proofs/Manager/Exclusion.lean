import KernelMemory.Proofs.Manager.Granularity
import KernelMemory.Proofs.Pool.Ledger

/-!
# Pools apart from allocations

A pool has its arena for itself, though nothing in the arena says so. If the arena lies in the
virtual address space, its pages are reserved there when the pool is attached, and from then on
every address of it has a usage other than free. Allocations and reservations only ever take
what is free, and a release makes free what it names. So a run that releases no page of an
arena hands none out.

An arena that lies outside of the address space needs no reservation, since nothing outside is
handed out. An arena that reaches across one end of it needs one for its part inside, and does
not get it: attaching looks only for arenas that are inside as a whole. Such a pool is attached
even where its pages are in use, and those that are free are handed out later. So what holds in
every run is said here of all other arenas.
-/

namespace KernelMemory

/-! ## One address space -/

namespace Space

variable {s s' : Space} {a : Nat}

theorem PagesAround.contains_of_mem {address size : Nat} {r : Range}
    (h : PagesAround address size r) (hlo : address ≤ a) (hhi : a < address + size) :
    r.contains a = true := by
  have hdown := Page.roundDown_le address
  have hup := (Page.roundUp?_spec h.stop_eq).1
  rw [Range.contains_iff, h.start_eq]
  omega

/-- What has a usage lies in the region. -/
theorem contains_of_usageAt? (hm : s.map.Sound) {usage : Usage}
    (h : s.map.usageAt? a = some usage) : s.region.contains a = true := by
  obtain ⟨p, hfind, -⟩ := Option.map_eq_some_iff.mp h
  obtain ⟨hmem, hcontains⟩ := ExtentMap.contains_of_find? hfind
  exact Range.contains_of_encloses (hm.inside p hmem) hcontains

/-- What is free when something has been taken was free before. -/
theorem Takes.free_before {ranges : List Range} {usage : Usage} (ht : s.Takes ranges usage s')
    (h : s'.map.usageAt? a = some .free) : s.map.usageAt? a = some .free := by
  rw [ht.retypes.usageAt?_eq] at h
  split at h
  · exact absurd (Option.some.inj h) ht.used
  · exact h

/-- A release frees a part of the extent that its address lies in. -/
theorem free_cases (hm : s.map.Paged) (address : Nat) (size : Option Nat) :
    (∃ error, (free address size).outcome s = (.error error, s)) ∨
      (∃ slots s', (free address size).outcome s = (.fault (.slotsExhausted slots), s')) ∨
      ∃ e range s', s.query? address = some e ∧ releasedRange e address size = .ok range ∧
        (free address size).outcome s = (.ok range.length, s') ∧
        s.map.Retypes [range] .free s'.map := by
  rw [free, Operation.outcome_get_bind]
  cases hfind : s.map.find? address with
  | none => exact .inl ⟨_, rfl⟩
  | some p =>
      obtain ⟨hmem, -⟩ := ExtentMap.contains_of_find? hfind
      dsimp only
      split
      · exact .inl ⟨_, Operation.outcome_bind_ok (outcome_note _ _ s) _⟩
      · next hallocated =>
        have hused : p.2.usage ≠ .free := fun hfree =>
          hallocated (by simp [isUnallocated, hfree, Usage.isFree])
        cases hrange : releasedRange p.2 address size with
        | error e => exact .inl ⟨e, rfl⟩
        | ok range =>
            rw [Operation.outcome_bind_ok (Operation.outcome_ofExcept_ok range s),
              hm.restores p hmem hused]
            have hmap := outcome_onMap
              (ExtentMap.reclaim p.1 range .free (some p.2.usage)) s
            cases inside : p.2.range.encloses range with
            | false =>
                obtain ⟨pre, post, hl⟩ := List.append_of_mem hmem
                rw [ExtentMap.outcome_reclaim_of_outside _ (hm.sound.get?_of_split hl) inside]
                  at hmap
                exact .inl ⟨_, Operation.outcome_bind_error hmap _⟩
            | true =>
                rcases hm.outcome_reclaim hmem inside
                    (released_paged (hm.aligned p hmem) hrange) .free (.inl rfl) with
                  ⟨slots, m', hout⟩ | ⟨id, m', hout, hm'⟩
                · rw [hout] at hmap
                  exact .inr (.inl ⟨slots, _, Operation.outcome_bind_fault hmap _⟩)
                · rw [hout] at hmap
                  refine .inr (.inr ⟨p.2, range, { s with map := m' }, ?_, hrange, ?_, hm'⟩)
                  · rw [query?, hfind, Option.map_some]
                  · rw [Operation.outcome_bind_ok hmap,
                      Operation.outcome_bind_ok (outcome_note _ _ _), Operation.outcome_pure]

end Space

/-! ## Arenas -/

namespace Pool

/-- The arena lies in the range as a whole. -/
def Within (p : Pool) (r : Range) : Prop :=
  ∀ a, p.contains a = true → r.contains a = true

/-- No address of the range is one of the arena. -/
def Avoids (p : Pool) (r : Range) : Prop :=
  ∀ a, r.contains a = true → p.contains a = false

theorem contains_eq_of_ofLength {p : Pool} {r : Range}
    (h : Range.ofLength p.arena.start p.arena.size = .ok r) (a : Nat) :
    p.contains a = r.contains a := by
  obtain ⟨hstart, hstop⟩ := Range.stop_of_ofLength h
  have hlt : p.stop < Word.bound := by
    rw [Pool.stop, ← hstop]
    exact r.stop_lt_bound
  rw [Bool.eq_iff_iff, Accounts.contains_iff hlt, Range.contains_iff, hstart, hstop]
  rfl

/-- What the bounds say of an arena its addresses say, too. -/
theorem encloses_of_within {p : Pool} {r region : Range}
    (h : Range.ofLength p.arena.start p.arena.size = .ok r) (hp : p.Within region) :
    region.encloses r = true := by
  have hlt := r.start_lt_stop
  have hin : ∀ a, r.contains a = true → region.start ≤ a ∧ a < region.stop := fun a ha =>
    Range.contains_iff.mp (hp a (contains_eq_of_ofLength h a ▸ ha))
  have hfirst := hin r.start r.contains_start
  have hlast := hin (r.stop - 1) (Range.contains_iff.mpr (by omega))
  rw [Range.encloses_iff]
  omega

end Pool

/-! ## One manager -/

namespace Manager

variable {m : Manager} {p q : Pool}

theorem virtual_withPool (m : Manager) (p : Pool) : (m.withPool p).virtual = m.virtual := by
  unfold withPool
  split <;> rfl

theorem mem_pools_withPool (h : q ∈ (m.withPool p).pools) : q = p ∨ q ∈ m.pools := by
  unfold withPool at h
  simp only [pools, List.mem_append, Option.mem_toList] at h ⊢
  split at h
  · rcases h with h | h
    · exact .inl (Option.some.inj h).symm
    · exact .inr (.inr h)
  · rcases h with h | h
    · exact .inr (.inl h)
    · exact .inl (Option.some.inj h).symm
  all_goals exact .inr h

/-- No pool gives way to another. -/
theorem mem_pools_of_mem (hfree : m.pool? p.kind = none) (h : q ∈ m.pools) :
    q ∈ (m.withPool p).pools := by
  unfold withPool
  simp only [pools, List.mem_append, Option.mem_toList] at h ⊢
  split
  · next hkind =>
    rw [hkind, pool?] at hfree
    rw [hfree] at h
    exact .inr (h.resolve_left nofun)
  · next hkind =>
    rw [hkind, pool?] at hfree
    rw [hfree] at h
    exact .inl (h.resolve_right nofun)
  all_goals exact h

/-- Every arena that lies in the virtual address space has its addresses taken there. -/
structure Exclusive (m : Manager) : Prop where
  paged : m.virtual.map.Paged
  taken : ∀ p ∈ m.pools, p.Within m.virtual.region → ∀ a, p.contains a = true →
    m.virtual.map.usageAt? a ≠ some .free

/-- It is enough that what is free of the arenas was free before. -/
theorem Exclusive.update (h : m.Exclusive) {s : Space} (hpaged : s.map.Paged)
    (hregion : s.region = m.virtual.region)
    (hfree : ∀ p ∈ m.pools, ∀ a, p.contains a = true → s.map.usageAt? a = some .free →
      m.virtual.map.usageAt? a = some .free) : Exclusive { m with virtual := s } where
  paged := hpaged
  taken p hp hwithin a ha hnow :=
    h.taken p hp (hregion ▸ hwithin) a ha (hfree p hp a ha hnow)

theorem Exclusive.takes (h : m.Exclusive) {s : Space} {ranges : List Range} {usage : Usage}
    (ht : m.virtual.Takes ranges usage s) : Exclusive { m with virtual := s } :=
  h.update ht.retypes.managed ht.retypes.region_eq fun _ _ _ _ => ht.free_before

/-- A pool is refused, or attached with its arena reserved if that lies in the virtual address
space. -/
theorem attach_cases (hm : m.virtual.map.Paged) (p : Pool) :
    (∃ error, (attach p).outcome m = (.error error, m)) ∨
      (∃ slots s, (attach p).outcome m =
        (.fault (.slotsExhausted slots), { m with virtual := s })) ∨
      m.pool? p.kind = none ∧
        ((attach p).outcome m = (.ok (), m.withPool p) ∧ ¬ p.Within m.virtual.region ∨
          ∃ s r, (attach p).outcome m = (.ok (), { m with virtual := s }.withPool p) ∧
            m.virtual.Takes [r] .pool s ∧ ∀ a, p.contains a = true → r.contains a = true) := by
  rw [attach, Operation.outcome_get_bind]
  split
  · exact .inl ⟨_, rfl⟩
  · split
    · exact .inl ⟨_, rfl⟩
    · next hnone =>
      have hnone : m.pool? p.kind = none := by simpa using hnone
      cases harena : Range.ofLength p.arena.start p.arena.size with
      | error e => exact .inl ⟨_, rfl⟩
      | ok arena =>
          rw [Except.mapError, Operation.outcome_bind_ok (Operation.outcome_ofExcept_ok arena m)]
          dsimp only
          split
          · have hreserve : (onVirtual (Space.reserve arena.start arena.length .pool)).outcome m =
                (((Space.reserve arena.start arena.length .pool).outcome m.virtual).1,
                  { m with
                    virtual := ((Space.reserve arena.start arena.length .pool).outcome
                      m.virtual).2 }) := rfl
            rcases Space.reserve_cases hm arena.start arena.length .pool with
              ⟨e, hout⟩ | ⟨slots, s, hout⟩ | ⟨s, r, hout, hr, ht⟩
            · rw [hout] at hreserve
              exact .inl ⟨_, Operation.outcome_bind_error hreserve _⟩
            · rw [hout] at hreserve
              exact .inr (.inl ⟨slots, s, Operation.outcome_bind_fault hreserve _⟩)
            · rw [hout] at hreserve
              refine .inr (.inr ⟨hnone, .inr ⟨s, r, ?_, ht, fun a ha => ?_⟩⟩)
              · rw [Operation.outcome_bind_ok hreserve]
                rfl
              · rw [Pool.contains_eq_of_ofLength harena, Range.contains_iff] at ha
                refine hr.contains_of_mem ha.1 ?_
                rw [Range.length]
                omega
          · next houtside =>
            refine .inr (.inr ⟨hnone, .inl ⟨rfl, fun hwithin => houtside ?_⟩⟩)
            exact Pool.encloses_of_within harena hwithin

theorem Exclusive.withPool (h : m.Exclusive)
    (hp : p.Within m.virtual.region → ∀ a, p.contains a = true →
      m.virtual.map.usageAt? a ≠ some .free) : (m.withPool p).Exclusive where
  paged := by
    rw [virtual_withPool]
    exact h.paged
  taken q hq hwithin := by
    rw [virtual_withPool] at hwithin ⊢
    rcases mem_pools_withPool hq with rfl | hq
    · exact hp hwithin
    · exact h.taken q hq hwithin

theorem keeps_attach_exclusive (p : Pool) : (attach p).Keeps Exclusive := by
  intro m h hslots
  rcases attach_cases h.paged p with
    ⟨e, hout⟩ | ⟨slots, s, hout⟩ | ⟨-, ⟨hout, houtside⟩ | ⟨s, r, hout, ht, hin⟩⟩
  · rw [hout]
    exact h
  · exact absurd ⟨slots, by rw [hout]⟩ hslots
  · rw [hout]
    exact h.withPool fun hwithin => absurd hwithin houtside
  · rw [hout]
    refine (h.takes ht).withPool fun _ a ha => ?_
    rw [ht.retypes.usageAt?_eq, if_pos (by simpa using hin a ha)]
    exact fun hfree => ht.used (Option.some.inj hfree)

/-- Attaching takes no other pool away. -/
theorem mem_pools_attach (hm : m.virtual.map.Paged) (p : Pool) (h : q ∈ m.pools) :
    q ∈ ((attach p).outcome m).2.pools := by
  rcases attach_cases hm p with
    ⟨e, hout⟩ | ⟨slots, s, hout⟩ | ⟨hnone, ⟨hout, -⟩ | ⟨s, r, hout, -⟩⟩
  · rw [hout]
    exact h
  · rw [hout]
    exact h
  · rw [hout]
    exact mem_pools_of_mem hnone h
  · rw [hout]
    exact mem_pools_of_mem (m := { m with virtual := s }) hnone h

theorem yields_create_exclusive (setup : Setup) :
    (create setup : Operation Memory RequestError Manager).Yields Exclusive := by
  refine .ofExcept_bind fun _ hvalid => ?_
  obtain ⟨⟨hstart, hsize⟩, -⟩ := Setup.aligned_of_valid hvalid
  refine Operation.Yields.bind (P := fun s : Space => s.map.Paged)
    (fun _ _ h => Space.paged_of_create hstart hsize h) fun virtual hvirtual => ?_
  refine .bind_last _ fun physical => .pure ⟨hvirtual, fun p hp => ?_⟩
  exact nomatch hp

theorem yields_createWithPools_exclusive (setup : Setup) :
    (createWithPools setup).Yields Exclusive := by
  refine (yields_create_exclusive setup).bind fun m hm => .foldlM (fun m arena hm => ?_) _ hm
  refine .bind_last _ fun p => ?_
  exact (Operation.Yields.build (keeps_attach_exclusive p) hm).bind fun built hbuilt =>
    .pure hbuilt

end Manager

namespace Machine

/-! ## One call -/

/-- If the call is a release that is carried out, it gives back no page of an arena. -/
def Call.Spares (s : Machine) : Call → Prop
  | .freeVirtual address size => ∀ freed e range,
    ((Machine.freeVirtual address size).run s).verdict = .ok freed →
    s.manager.virtual.query? address = some e →
    Space.releasedRange e address size = .ok range →
    ∀ p ∈ s.manager.pools, p.Avoids range
  | _ => True

section Keeps

open Operation (Keeps Fixes)

variable {s : Machine} {buffer : List Range} {p : Pool}

theorem keeps_onVirtual_exclusive {α : Type} {op : SpaceOperation α}
    (h : ∀ t : Space, t.map.Paged → (op.outcome t).2 = t ∨
      (op.outcome t).1.IsExhaustion ∨ ∃ ranges usage, t.Takes ranges usage (op.outcome t).2) :
    (onVirtual op).Keeps fun s => s.manager.Exclusive := by
  intro s hs hslots
  show Manager.Exclusive { s.manager with virtual := (op.outcome s.manager.virtual).2 }
  rcases h s.manager.virtual hs.paged with hsame | hfull | ⟨ranges, usage, ht⟩
  · rw [hsame]
    exact hs
  · exact absurd hfull hslots
  · exact hs.takes ht

theorem keeps_allocateVirtual_exclusive (hint : Option Nat) (size : Nat) (usage : Usage) :
    (Machine.allocateVirtual hint size usage).Keeps fun s => s.manager.Exclusive := by
  refine keeps_onVirtual_exclusive fun t hm => ?_
  rcases Space.allocate_cases hm hint size usage with
    ⟨e, hout⟩ | ⟨slots, t', hout⟩ | ⟨start, t', r, hout, -, -, ht⟩
  · exact .inl (by rw [hout])
  · exact .inr (.inl ⟨slots, by rw [hout]⟩)
  · exact .inr (.inr ⟨[r], usage, by rwa [hout]⟩)

theorem keeps_reserveVirtual_exclusive (start size : Nat) (usage : Usage) :
    (Machine.reserveVirtual start size usage).Keeps fun s => s.manager.Exclusive := by
  refine keeps_onVirtual_exclusive fun t hm => ?_
  rcases Space.reserve_cases hm start size usage with
    ⟨e, hout⟩ | ⟨slots, t', hout⟩ | ⟨t', r, hout, -, ht⟩
  · exact .inl (by rw [hout])
  · exact .inr (.inl ⟨slots, by rw [hout]⟩)
  · exact .inr (.inr ⟨[r], usage, by rwa [hout]⟩)

/-- A release that spares the arenas frees none of their addresses. -/
theorem freeVirtual_cases {address : Nat} {size : Option Nat} (hs : s.manager.Exclusive)
    (hc : (Call.freeVirtual address size).Spares s) :
    (∃ error, (Machine.freeVirtual address size).outcome s = (.error error, s)) ∨
      (∃ slots t, (Machine.freeVirtual address size).outcome s =
        (.fault (.slotsExhausted slots), t)) ∨
      ∃ freed t, (Machine.freeVirtual address size).outcome s = (.ok freed, t) ∧
        t.manager.Exclusive := by
  have hout : (Machine.freeVirtual address size).outcome s =
      (((Space.free address size).outcome s.manager.virtual).1,
        { s with manager := { s.manager with
          virtual := ((Space.free address size).outcome s.manager.virtual).2 } }) := rfl
  rcases Space.free_cases hs.paged address size with
    ⟨e, hfree⟩ | ⟨slots, t, hfree⟩ | ⟨e, range, t, hquery, hrange, hfree, ht⟩
  · exact .inl ⟨e, by rw [hout, hfree]⟩
  · exact .inr (.inl ⟨slots, _, by rw [hout, hfree]⟩)
  · have hverdict : ((Machine.freeVirtual address size).run s).verdict = .ok range.length := by
      rw [Operation.verdict_run, hout, hfree]
    have havoids := hc _ e range hverdict hquery hrange
    refine .inr (.inr ⟨range.length, { s with manager := { s.manager with virtual := t } },
      by rw [hout, hfree], ?_⟩)
    refine hs.update ht.managed ht.region_eq fun p hp a ha hnow => ?_
    rwa [ht.usageAt?_of_apart] at hnow
    intro r hr
    obtain rfl := List.mem_singleton.mp hr
    cases hin : r.contains a with
    | false => rfl
    | true => exact absurd ha (by rw [havoids p hp a hin]; decide)

theorem keeps_ignoringBuffer_exclusive {α : Type} {op : MachineOperation α}
    (h : op.Keeps fun s => s.manager.Exclusive) :
    (ignoringBuffer op).Keeps fun s => s.1.manager.Exclusive :=
  h.within (fun _ hs => hs) fun _ _ _ hm => hm

/-- Work on physical memory and in the pools does not touch the virtual address space. -/
theorem keeps_onPhysical_exclusive {α : Type} (op : SpaceOperation α) :
    (onPhysical op).Keeps fun s => s.manager.Exclusive :=
  fun _ hs _ => ⟨hs.paged, hs.taken⟩

theorem keeps_onPool_exclusive {α : Type} (op : PoolOperation α) :
    (onPool op).Keeps fun s => s.manager.Exclusive :=
  fun _ hs _ => hs

theorem Call.exclusive_perform (c : Call) (hc : c.Spares s) (hs : s.manager.Exclusive)
    (hslots : ¬ (c.perform.outcome (s, buffer)).1.IsExhaustion) :
    (c.perform.outcome (s, buffer)).2.1.manager.Exclusive := by
  have hanswer : ∀ {α : Type} {op : MachineOperation α},
      (op.Keeps fun s => s.manager.Exclusive) →
      (ignoringBuffer do let _ ← op).Keeps fun s => s.1.manager.Exclusive :=
    fun h => keeps_ignoringBuffer_exclusive (h.bind fun _ => .pure _)
  cases c with
  | allocateVirtual hint size usage =>
      exact hanswer (keeps_allocateVirtual_exclusive hint size usage) _ hs hslots
  | allocatePhysical hint size usage =>
      exact hanswer (keeps_onPhysical_exclusive _) _ hs hslots
  | reserveVirtual start size usage =>
      exact keeps_ignoringBuffer_exclusive (keeps_reserveVirtual_exclusive start size usage) _ hs
        hslots
  | reservePhysical start size usage =>
      exact keeps_ignoringBuffer_exclusive (keeps_onPhysical_exclusive _) _ hs hslots
  | freeVirtual address size =>
      have hperform : (Call.freeVirtual address size).perform.outcome (s, buffer) =
          (((do let _ ← Machine.freeVirtual address size : MachineOperation Unit).outcome s).1,
            ((do let _ ← Machine.freeVirtual address size : MachineOperation Unit).outcome s).2,
            buffer) := rfl
      rcases freeVirtual_cases hs hc with
        ⟨e, hout⟩ | ⟨slots, t, hout⟩ | ⟨freed, t, hout, ht⟩
      · rw [hperform, Operation.outcome_bind_error hout]
        exact hs
      · rw [hperform, Operation.outcome_bind_fault hout] at hslots
        exact absurd ⟨slots, rfl⟩ hslots
      · rw [hperform, Operation.outcome_bind_ok hout]
        exact ht
  | freePhysical address size => exact hanswer (keeps_onPhysical_exclusive _) _ hs hslots
  | gather size usage =>
      have hgather : (allocateGather size usage).Keeps fun s => s.1.manager.Exclusive :=
        fun _ hs _ => ⟨hs.paged, hs.taken⟩
      exact hgather.bind (fun _ => .pure _) _ hs hslots
  | freeGather pieces =>
      exact keeps_ignoringBuffer_exclusive (keeps_onPhysical_exclusive _) _ hs hslots
  | poolAllocate kind size alignment tag =>
      refine hanswer (Keeps.get.bind fun s => ?_) _ hs hslots
      split
      · exact .refuse _
      · exact keeps_onPool_exclusive _
  | poolFree payload =>
      refine hanswer (Keeps.get.bind fun s => ?_) _ hs hslots
      split
      · exact .refuse _
      · exact keeps_onPool_exclusive _
  | attach p =>
      exact keeps_ignoringBuffer_exclusive ((Manager.keeps_attach_exclusive p).within
        (fun _ hs => hs) fun _ _ _ hm => hm) _ hs hslots

/-- A pool that is attached stays so, however the call ends. -/
theorem Call.mem_pools_perform (c : Call) (hs : s.manager.Exclusive)
    (hp : p ∈ s.manager.pools) : p ∈ (c.perform.outcome (s, buffer)).2.1.manager.pools := by
  have hkept : ∀ {op : MachineOperation Unit}, (op.Fixes fun s => s.manager.pools) →
      p ∈ ((ignoringBuffer op).outcome (s, buffer)).2.1.manager.pools := by
    intro op h
    have hpools : (op.outcome s).2.manager.pools = s.manager.pools := h s
    rwa [ignoringBuffer, Operation.outcome_within, hpools]
  have hanswer : ∀ {α : Type} {op : MachineOperation α}, (op.Fixes fun s => s.manager.pools) →
      p ∈ ((ignoringBuffer do let _ ← op).outcome (s, buffer)).2.1.manager.pools :=
    fun h => hkept (h.bind fun _ => .pure _)
  cases c with
  | allocateVirtual | allocatePhysical | freeVirtual | freePhysical => exact hanswer fun _ => rfl
  | reserveVirtual | reservePhysical | freeGather => exact hkept fun _ => rfl
  | gather size usage =>
      have hgather : (allocateGather size usage).Fixes fun t => t.1.manager.pools := fun _ => rfl
      exact (hgather.bind (fun _ => .pure _) (s, buffer)).symm ▸ hp
  | poolAllocate kind size alignment tag =>
      refine hanswer (.bind .get fun s => ?_)
      split
      · exact .refuse _
      · exact fun _ => rfl
  | poolFree payload =>
      refine hanswer (.bind .get fun s => ?_)
      split
      · exact .refuse _
      · exact fun _ => rfl
  | attach q => exact Manager.mem_pools_attach hs.paged q hp

end Keeps

/-! ## Every run -/

/-- The machines that a run reaches in which no release gives back a page of an attached pool,
and slots do not run out. Others write to memory as they like. -/
inductive ReachableSparing : Machine → Prop
  | create (setup : Setup) (memory : Memory) {m : Manager}
      (h : ((Manager.create setup : Operation Memory RequestError Manager).run memory).verdict =
        .ok m) : ReachableSparing ⟨memory, m⟩
  | createWithPools (setup : Setup) (memory : Memory) {m : Manager}
      (h : ((Manager.createWithPools setup).run memory).verdict = .ok m) :
      ReachableSparing ⟨((Manager.createWithPools setup).run memory).state, m⟩
  | call {s : Machine} (hs : ReachableSparing s) (c : Call) (hc : c.Spares s)
      (buffer : List Range) (hslots : ¬ (c.perform.run (s, buffer)).verdict.IsExhaustion) :
      ReachableSparing (c.perform.run (s, buffer)).state.1
  | write {s : Machine} (hs : ReachableSparing s) (memory : Memory) :
      ReachableSparing { s with memory }

theorem ReachableSparing.exclusive {s : Machine} (hs : ReachableSparing s) :
    s.manager.Exclusive := by
  induction hs with
  | create setup memory h => exact Manager.yields_create_exclusive setup memory _ h
  | createWithPools setup memory h =>
      exact Manager.yields_createWithPools_exclusive setup memory _ h
  | call _ c hc buffer hslots ih => exact c.exclusive_perform hc ih hslots
  | write _ memory ih => exact ih

/-- What was free is no address of an arena, unless the arena crosses an end of the virtual
address space. -/
theorem avoids_of_free {s : Machine} (hs : s.manager.Exclusive) {p : Pool}
    (hp : p ∈ s.manager.pools)
    (hlies : p.Within s.manager.virtual.region ∨ p.Avoids s.manager.virtual.region) {r : Range}
    (hfree : ∀ a, r.contains a = true → s.manager.virtual.map.usageAt? a = some .free) :
    p.Avoids r := by
  intro a ha
  cases hin : p.contains a with
  | false => rfl
  | true =>
      rcases hlies with hwithin | houtside
      · exact absurd (hfree a ha) (hs.taken p hp hwithin a hin)
      · rw [← hin]
        exact houtside a (Space.contains_of_usageAt? hs.paged.sound (hfree a ha))

/-- As long as no page of an arena is released, no range that is handed out or reserved has an
address of a pool that is attached by then, if the arena lies in the virtual address space as a
whole or outside of it. The pool stays attached whatever is called. -/
theorem pools_exclusive {s : Machine} (hs : ReachableSparing s) {p : Pool}
    (hp : p ∈ s.manager.pools)
    (hlies : p.Within s.manager.virtual.region ∨ p.Avoids s.manager.virtual.region) :
    (∀ hint size usage start,
      ((allocateVirtual hint size usage).run s).verdict = .ok start →
      ∃ r, Space.PagesAround start size r ∧ p.Avoids r) ∧
    (∀ start size usage,
      ((reserveVirtual start size usage).run s).verdict = .ok () →
      ∃ r, Space.PagesAround start size r ∧ p.Avoids r) ∧
    ∀ (c : Call) (buffer : List Range),
      p ∈ (c.perform.run (s, buffer)).state.1.manager.pools := by
  have hm := hs.exclusive
  refine ⟨fun hint size usage start h => ?_, fun start size usage h => ?_,
    fun c buffer => c.mem_pools_perform hm hp⟩
  · change ((Space.allocate hint size usage).outcome s.manager.virtual).1 = .ok start at h
    rcases Space.allocate_cases hm.paged hint size usage with
      ⟨e, hout⟩ | ⟨slots, t, hout⟩ | ⟨start', t, r, hout, -, hr, ht⟩
    · rw [hout] at h
      cases h
    · rw [hout] at h
      cases h
    · rw [hout] at h
      obtain rfl := Verdict.ok.inj h
      exact ⟨r, hr, avoids_of_free hm hp hlies (ht.was_free r List.mem_cons_self)⟩
  · change ((Space.reserve start size usage).outcome s.manager.virtual).1 = .ok () at h
    rcases Space.reserve_cases hm.paged start size usage with
      ⟨e, hout⟩ | ⟨slots, t, hout⟩ | ⟨t, r, hout, hr, ht⟩
    · rw [hout] at h
      cases h
    · rw [hout] at h
      cases h
    · exact ⟨r, hr, avoids_of_free hm hp hlies (ht.was_free r List.mem_cons_self)⟩

/-- An arena of one page that does not start where a page does takes two pages of the virtual
address space. An allocation that is asked for there goes behind them. -/
theorem pools_exclusive_around_bytes :
    let setup : Setup :=
      ⟨⟨.virtual, 0x10000, 0x4000⟩, ⟨.physical, 0x1000, 0x4000⟩, none, none, .touched⟩
    let p : Pool := ⟨.touched, Pool.trimmed ⟨.nonPaged, 0x10010, 0x1000⟩⟩
    let s := ((Call.attach p).perform.run (created setup, [])).state.1
    ((allocateVirtual (some 0x11010) 0x1000 .inUse).run s).verdict = .ok 0x12000 ∧
      ∃ r, Space.PagesAround 0x12000 0x1000 r ∧ p.Avoids r := by
  intro setup p s
  obtain ⟨_, hvirtual, -⟩ := Range.ofLength_eq_ok (show 0 < 0x4000 by decide)
    (show 0x10000 + 0x4000 < Word.bound by decide)
  obtain ⟨_, hphysical, -⟩ := Range.ofLength_eq_ok (show 0 < 0x4000 by decide)
    (show 0x1000 + 0x4000 < Word.bound by decide)
  have hvalid : setup.validate = .ok () := by decide
  obtain ⟨m, hcreate, hcreated⟩ := verdict_create hvalid hvirtual hphysical
  have hattach : ((Call.attach p).perform.run (created setup, [])).verdict = .ok () := by
    decide +kernel
  have hs : ReachableSparing s :=
    (hcreated ▸ ReachableSparing.create setup .zeroed hcreate :
      ReachableSparing (created setup)).call (.attach p) trivial []
      (Verdict.not_isExhaustion_of_ok hattach)
  have hp : p ∈ s.manager.pools := by decide +kernel
  have hregion : s.manager.virtual.region = ⟨0x10000, 0x14000, by decide, by decide⟩ := by
    decide +kernel
  have hwithin : p.Within s.manager.virtual.region := by
    intro a ha
    have hbounds := (Pool.Accounts.contains_iff (by decide)).mp ha
    rw [show p.start = 0x10010 by decide, show p.stop = 0x11010 by decide] at hbounds
    rw [hregion, Range.contains_iff]
    dsimp only
    omega
  have hok : ((allocateVirtual (some 0x11010) 0x1000 .inUse).run s).verdict = .ok 0x12000 := by
    decide +kernel
  exact ⟨hok, (pools_exclusive hs hp (.inl hwithin)).1 _ _ _ _ hok⟩

/-- The first page of an arena is the last one of the virtual address space, and the others lie
behind it. The pool is attached and its page stays free, so the next allocation is handed a page
of the pool. -/
theorem pools_overlap_across_end :
    let setup : Setup :=
      ⟨⟨.virtual, 0x10000, 0x2000⟩, ⟨.physical, 0x1000, 0x4000⟩, none, none, .touched⟩
    let arena : Arena := ⟨.nonPaged, 0x11000, 0x2000⟩
    let p : Pool := ⟨.touched, Pool.trimmed arena⟩
    let memory := ((Pool.create arena .touched).run .zeroed).state
    let s := ((Call.attach p).perform.run ({ created setup with memory }, [])).state.1
    ((Pool.create arena .touched).run .zeroed).verdict = .ok p ∧ ReachableSparing s ∧
      p ∈ s.manager.pools ∧
      ((allocateVirtual none 0x2000 .inUse).run s).verdict = .ok 0x10000 ∧
      ∃ r, Space.PagesAround 0x10000 0x2000 r ∧ ¬ p.Avoids r := by
  intro setup arena p memory s
  obtain ⟨_, hvirtual, -⟩ := Range.ofLength_eq_ok (show 0 < 0x2000 by decide)
    (show 0x10000 + 0x2000 < Word.bound by decide)
  obtain ⟨_, hphysical, -⟩ := Range.ofLength_eq_ok (show 0 < 0x4000 by decide)
    (show 0x1000 + 0x4000 < Word.bound by decide)
  have hvalid : setup.validate = .ok () := by decide
  obtain ⟨m, hcreate, hcreated⟩ := verdict_create hvalid hvirtual hphysical
  have hattach : ((Call.attach p).perform.run
      ({ created setup with memory }, [])).verdict = .ok () := by decide +kernel
  have hs : ReachableSparing s :=
    ((hcreated ▸ ReachableSparing.create setup .zeroed hcreate :
      ReachableSparing (created setup)).write memory).call (.attach p) trivial []
      (Verdict.not_isExhaustion_of_ok hattach)
  refine ⟨by decide, hs, by decide +kernel, by decide +kernel,
    ⟨0x10000, 0x12000, by decide, by decide⟩, ⟨by decide, by decide⟩, fun havoids => ?_⟩
  have hfirst := havoids 0x11000 (by decide)
  revert hfirst
  decide

end Machine

end KernelMemory
