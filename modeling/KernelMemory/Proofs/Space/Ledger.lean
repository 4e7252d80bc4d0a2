import KernelMemory.Proofs.Space.Gather

/-!
# Accounting for an address space

Clients of an address space allocate, reserve and gather, and give back what they hold, in
any order. A ledger lists the grants that have not been given back, each with the arguments
it was made with. The invariant is that the ledger says what every address is used for:
grants are apart, and an address has another usage than free exactly if a grant of that
usage covers it. Grants of one usage may well share an extent; a release does not mind,
because all that matters to it is that the pages of the grant still have its usage.

A run ends where the slots do, so a call that runs out of them is not a step.
-/

namespace KernelMemory

namespace Space

inductive Grant
  | block (address size : Nat) (usage : Usage)
  | pieces (ranges : List Range) (usage : Usage)

namespace Grant

def usage : Grant → Usage
  | block _ _ usage => usage
  | pieces _ usage => usage

/-- The stretches of addresses that a grant holds, in whole pages: their starts and ends. -/
def stretches : Grant → List (Nat × Nat)
  | block address size _ =>
    [(Page.roundDown address, Page.roundDown (address + size + (Page.size - 1)))]
  | pieces ranges _ => ranges.map fun r => (r.start, r.stop)

def Covers (g : Grant) (address : Nat) : Prop :=
  ∃ t ∈ g.stretches, t.1 ≤ address ∧ address < t.2

end Grant

/-- The ledger after a call that may have made a grant. -/
def record {α : Type} (verdict : Verdict RequestError α) (grant : α → Grant)
    (ledger : List Grant) : List Grant :=
  match verdict with
  | .ok answer => grant answer :: ledger
  | _ => ledger

/-- The ledger after a call that may have released the grant between `front` and `back`. -/
def strike {α : Type} (verdict : Verdict RequestError α) (front : List Grant) (grant : Grant)
    (back : List Grant) : List Grant :=
  match verdict with
  | .ok _ => front ++ back
  | _ => front ++ grant :: back

/-- The spaces over an arena that a run of calls reaches, with the ledgers they leave. -/
inductive Reachable (arena : Arena) : Space → List Grant → Prop
  | create (owner : Nat) {s : Space}
      (h : ((Space.create owner arena : Operation Unit RequestError Space).run ()).verdict =
        .ok s) : Reachable arena s []
  | allocate {s : Space} {ledger : List Grant} (hs : Reachable arena s ledger)
      (hint : Option Nat) (size : Nat) (usage : Usage) {reply : Reply Space RequestError Nat}
      (hreply : (Space.allocate hint size usage).run s = reply)
      (hslots : ¬ reply.verdict.IsExhaustion) :
      Reachable arena reply.state (record reply.verdict (.block · size usage) ledger)
  | reserve {s : Space} {ledger : List Grant} (hs : Reachable arena s ledger)
      (start size : Nat) (usage : Usage) {reply : Reply Space RequestError Unit}
      (hreply : (Space.reserve start size usage).run s = reply)
      (hslots : ¬ reply.verdict.IsExhaustion) :
      Reachable arena reply.state
        (record reply.verdict (fun _ => .block start size usage) ledger)
  | gather {s : Space} {ledger : List Grant} (hs : Reachable arena s ledger)
      (size : Nat) (usage : Usage) (buffer : List Range)
      {reply : Reply Gathering RequestError Nat}
      (hreply : (Gathering.allocate size usage).run ⟨s, buffer⟩ = reply)
      (hslots : ¬ reply.verdict.IsExhaustion) :
      Reachable arena reply.state.space
        (record reply.verdict (fun count => .pieces (reply.state.buffer.take count) usage) ledger)
  | free {s : Space} {front back : List Grant} {address size : Nat} {usage : Usage}
      (hs : Reachable arena s (front ++ .block address size usage :: back))
      {reply : Reply Space RequestError Nat}
      (hreply : (Space.free address (some size)).run s = reply)
      (hslots : ¬ reply.verdict.IsExhaustion) :
      Reachable arena reply.state
        (strike reply.verdict front (.block address size usage) back)
  | freeGather {s : Space} {front back : List Grant} {ranges : List Range} {usage : Usage}
      (hs : Reachable arena s (front ++ .pieces ranges usage :: back))
      {reply : Reply Space RequestError Unit}
      (hreply : (Space.freeGather ranges).run s = reply)
      (hslots : ¬ reply.verdict.IsExhaustion) :
      Reachable arena reply.state
        (strike reply.verdict front (.pieces ranges usage) back)

/-! ## The ranges of a grant -/

/-- The ranges that were taken for a grant. -/
inductive Grant.Holds : Grant → List Range → Prop
  | block {address size : Nat} {usage : Usage} {r : Range} (hr : PagesAround address size r) :
      Holds (.block address size usage) [r]
  | pieces {ranges : List Range} {usage : Usage} (hap : ranges.Pairwise Range.Apart)
      (hpaged : ∀ r ∈ ranges, r.Paged) : Holds (.pieces ranges usage) ranges

theorem PagesAround.stop_eq_roundDown {address size : Nat} {r : Range}
    (h : PagesAround address size r) :
    r.stop = Page.roundDown (address + size + (Page.size - 1)) := by
  exact (Word.roundUp?_eq_some_iff.mp h.stop_eq).1.symm

namespace Grant.Holds

variable {g : Grant} {ranges : List Range}

theorem stretches_eq (h : g.Holds ranges) :
    g.stretches = ranges.map fun r => (r.start, r.stop) := by
  cases h with
  | block hr => rw [stretches, List.map_singleton, hr.start_eq, hr.stop_eq_roundDown]
  | pieces => rfl

theorem paged (h : g.Holds ranges) : ∀ r ∈ ranges, r.Paged := by
  cases h with
  | block hr => simpa using hr.paged
  | pieces _ hpaged => exact hpaged

theorem apart (h : g.Holds ranges) : ranges.Pairwise Range.Apart := by
  cases h with
  | block => exact List.pairwise_singleton _ _
  | pieces hap => exact hap

theorem covers_iff (h : g.Holds ranges) {address : Nat} :
    g.Covers address ↔ ∃ r ∈ ranges, r.contains address = true := by
  simp only [Covers, h.stretches_eq, List.mem_map, Range.contains_iff]
  constructor
  · rintro ⟨_, ⟨r, hr, rfl⟩, hin⟩
    exact ⟨r, hr, hin⟩
  · rintro ⟨r, hr, hin⟩
    exact ⟨_, ⟨r, hr, rfl⟩, hin⟩

end Grant.Holds

/-! ## The invariant -/

/-- The two stretches have no address in common. -/
def ApartStretches (t t' : Nat × Nat) : Prop :=
  t.2 ≤ t'.1 ∨ t'.2 ≤ t.1

/-- The ledger says what every address of the arena is used for. -/
structure Accounts (arena : Arena) (s : Space) (ledger : List Grant) : Prop where
  paged : s.map.Paged
  region_eq : s.map.region.start = arena.start ∧ s.map.region.stop = arena.start + arena.size
  holds : ∀ g ∈ ledger, ∃ ranges, g.Holds ranges
  used : ∀ g ∈ ledger, g.usage ≠ .free
  apart : (ledger.flatMap Grant.stretches).Pairwise ApartStretches
  usage_iff : ∀ address usage, usage ≠ .free →
    (s.map.usageAt? address = some usage ↔ ∃ g ∈ ledger, g.usage = usage ∧ g.Covers address)

namespace Accounts

variable {arena : Arena} {s s' : Space} {ledger front back : List Grant} {g : Grant}
variable {ranges : List Range}

/-- The order in which the grants were made does not matter. -/
theorem perm {ledger' : List Grant} (ha : Accounts arena s ledger) (h : ledger.Perm ledger') :
    Accounts arena s ledger' where
  paged := ha.paged
  region_eq := ha.region_eq
  holds g hg := ha.holds g (h.mem_iff.mpr hg)
  used g hg := ha.used g (h.mem_iff.mpr hg)
  apart := ((h.flatMap_right Grant.stretches).pairwise_iff fun hap => Or.symm hap).mp ha.apart
  usage_iff address usage hused := by
    rw [ha.usage_iff address usage hused]
    exact exists_congr fun g => and_congr_left fun _ => h.mem_iff

theorem not_covers_of_free (ha : Accounts arena s ledger) (hg : g ∈ ledger) {address : Nat}
    (hfree : s.map.usageAt? address = some .free) : ¬ g.Covers address := by
  intro hcovers
  have hused := (ha.usage_iff address g.usage (ha.used g hg)).mpr ⟨g, hg, rfl, hcovers⟩
  exact ha.used g hg (Option.some.inj (hused.symm.trans hfree))

/-- Taking free ranges makes a grant. -/
theorem take (ha : Accounts arena s ledger) (hg : g.Holds ranges)
    (ht : s.Takes ranges g.usage s') : Accounts arena s' (g :: ledger) := by
  refine ⟨ht.retypes.managed, ht.retypes.region_eq ▸ ha.region_eq,
    List.forall_mem_cons.mpr ⟨⟨ranges, hg⟩, ha.holds⟩,
    List.forall_mem_cons.mpr ⟨ht.used, ha.used⟩, ?_, ?_⟩
  · rw [List.flatMap_cons, List.pairwise_append]
    refine ⟨?_, ha.apart, ?_⟩
    · rw [hg.stretches_eq]
      exact List.pairwise_map.mpr hg.apart
    · intro t ht₁ t' ht'
      obtain ⟨other, hother, ht'⟩ := List.mem_flatMap.mp ht'
      obtain ⟨ranges', hheld⟩ := ha.holds other hother
      rw [hg.stretches_eq, List.mem_map] at ht₁
      rw [hheld.stretches_eq, List.mem_map] at ht'
      obtain ⟨r, hr, rfl⟩ := ht₁
      obtain ⟨r', hr', rfl⟩ := ht'
      -- an address of both would have been free and used
      refine Range.apart_of_no_common ?_
      intro address hin hin'
      exact ha.not_covers_of_free hother (ht.was_free r hr address hin)
        (hheld.covers_iff.mpr ⟨r', hr', hin'⟩)
  · intro address usage hused
    rw [ht.retypes.usageAt?_eq]
    simp only [List.any_eq_true]
    split
    · next hin =>
      have hcovers : g.Covers address := hg.covers_iff.mpr hin
      obtain ⟨r, hr, hin⟩ := hin
      have hfree := ht.was_free r hr address hin
      constructor
      · intro hsome
        exact ⟨g, by simp, Option.some.inj hsome, hcovers⟩
      · rintro ⟨other, hother, rfl, hcovers'⟩
        rcases List.mem_cons.mp hother with rfl | hother
        · rfl
        · exact absurd hcovers' (ha.not_covers_of_free hother hfree)
    · next hout =>
      have hcovers : ¬ g.Covers address := fun h => hout (hg.covers_iff.mp h)
      rw [ha.usage_iff address usage hused]
      constructor
      · rintro ⟨other, hother, h⟩
        exact ⟨other, List.mem_cons_of_mem g hother, h⟩
      · rintro ⟨other, hother, h⟩
        rcases List.mem_cons.mp hother with rfl | hother
        · exact absurd h.2 hcovers
        · exact ⟨other, hother, h⟩

theorem not_covers_of_mem (ha : Accounts arena s (g :: ledger)) {other : Grant}
    (hother : other ∈ ledger) {address : Nat} (h : other.Covers address) : ¬ g.Covers address := by
  rintro ⟨t, ht, hlo, hhi⟩
  obtain ⟨t', ht', hlo', hhi'⟩ := h
  have hap := ha.apart
  rw [List.flatMap_cons, List.pairwise_append] at hap
  have := hap.2.2 t ht t' (List.mem_flatMap.mpr ⟨other, hother, ht'⟩)
  unfold ApartStretches at this
  omega

/-- Giving back the ranges of a grant strikes it. -/
theorem release (ha : Accounts arena s (front ++ g :: back)) (hg : g.Holds ranges)
    (hr : s.map.Retypes ranges .free s'.map) : Accounts arena s' (front ++ back) := by
  replace ha := ha.perm List.perm_middle
  refine ⟨hr.managed, hr.region_eq ▸ ha.region_eq,
    fun x hx => ha.holds x (List.mem_cons_of_mem g hx),
    fun x hx => ha.used x (List.mem_cons_of_mem g hx), ?_, ?_⟩
  · have hap := ha.apart
    rw [List.flatMap_cons, List.pairwise_append] at hap
    exact hap.2.1
  · intro address usage hused
    rw [hr.usageAt?_eq]
    simp only [List.any_eq_true]
    split
    · next hin =>
      have hcovers : g.Covers address := hg.covers_iff.mpr hin
      refine iff_of_false (fun h => hused (Option.some.inj h).symm) ?_
      rintro ⟨other, hother, -, hcovers'⟩
      exact ha.not_covers_of_mem hother hcovers' hcovers
    · next hout =>
      have hcovers : ¬ g.Covers address := fun h => hout (hg.covers_iff.mp h)
      rw [ha.usage_iff address usage hused]
      constructor
      · rintro ⟨other, hother, h⟩
        rcases List.mem_cons.mp hother with rfl | hother
        · exact absurd h.2 hcovers
        · exact ⟨other, hother, h⟩
      · rintro ⟨other, hother, h⟩
        exact ⟨other, List.mem_cons_of_mem g hother, h⟩

theorem usageAt?_eq (ha : Accounts arena s ledger) (hmem : g ∈ ledger) (hg : g.Holds ranges) :
    ∀ r ∈ ranges, ∀ address, r.contains address = true →
      s.map.usageAt? address = some g.usage := fun r hr address hin =>
  (ha.usage_iff address g.usage (ha.used g hmem)).mpr
    ⟨g, hmem, rfl, hg.covers_iff.mpr ⟨r, hr, hin⟩⟩

theorem outcome_free {address size : Nat} {usage : Usage} (ha : Accounts arena s ledger)
    (hmem : .block address size usage ∈ ledger) :
    (∃ slots s', (Space.free address (some size)).outcome s =
        (.fault (.slotsExhausted slots), s')) ∨
      ∃ r s', (Space.free address (some size)).outcome s = (.ok r.length, s') ∧
        PagesAround address size r ∧ s.map.Retypes [r] .free s'.map := by
  obtain ⟨ranges, hholds⟩ := ha.holds _ hmem
  cases hholds with
  | @block _ _ _ r hr =>
      rcases Space.outcome_free ha.paged hr (ha.used _ hmem)
        (ha.usageAt?_eq hmem (.block hr) r (by simp)) with hfull | ⟨s', hout, hs'⟩
      · exact .inl hfull
      · exact .inr ⟨r, s', hout, hr, hs'⟩

theorem outcome_freeGather {usage : Usage} (ha : Accounts arena s ledger)
    (hmem : .pieces ranges usage ∈ ledger) :
    (∃ slots s', (Space.freeGather ranges).outcome s =
        (.fault (.slotsExhausted slots), s')) ∨
      ∃ s', (Space.freeGather ranges).outcome s = (.ok (), s') ∧
        (Grant.pieces ranges usage).Holds ranges ∧ s.map.Retypes ranges .free s'.map := by
  obtain ⟨ranges', hholds⟩ := ha.holds _ hmem
  cases hholds with
  | pieces hap hpaged =>
      have hheld : ∀ r ∈ ranges, s.Held r := fun r hr =>
        ⟨usage, ha.used _ hmem, ha.usageAt?_eq hmem (.pieces hap hpaged) r hr⟩
      rcases Space.outcome_freeGather ha.paged hap hpaged hheld with hfull | ⟨s', hout, hs'⟩
      · exact .inl hfull
      · exact .inr ⟨s', hout, .pieces hap hpaged, hs'⟩

theorem inside (ha : Accounts arena s ledger) {t : Nat × Nat}
    (ht : t ∈ ledger.flatMap Grant.stretches) :
    arena.start ≤ t.1 ∧ t.1 < t.2 ∧ t.2 ≤ arena.start + arena.size := by
  obtain ⟨g, hmem, ht⟩ := List.mem_flatMap.mp ht
  obtain ⟨ranges, hg⟩ := ha.holds g hmem
  rw [hg.stretches_eq, List.mem_map] at ht
  obtain ⟨r, hr, rfl⟩ := ht
  obtain ⟨p, hp, -, -, inside⟩ := ha.paged.partition.exists_encloses ha.paged.sound
    (ha.usageAt?_eq hmem hg r hr)
  have hregion := Range.encloses_iff.mp (ha.paged.sound.inside p hp)
  have hextent := Range.encloses_iff.mp inside
  have hlt := r.start_lt_stop
  rw [← ha.region_eq.2, ← ha.region_eq.1]
  simp only
  omega

theorem eq_singleton (ha : Accounts arena s []) :
    ∃ e, s.map.extents = [e] ∧ e.range = s.map.region ∧ e.usage = .free := by
  have hall : ∀ address, s.map.region.contains address = true →
      s.map.usageAt? address = some .free := by
    intro address hin
    obtain ⟨usage, husage⟩ := ha.paged.partition.tracked ha.paged.sound hin
    by_cases hused : usage = .free
    · rw [husage, hused]
    · obtain ⟨g, hg, -⟩ := (ha.usage_iff address usage hused).mp husage
      simp at hg
  obtain ⟨p, hl, hrange, hfree⟩ := ha.paged.partition.eq_singleton ha.paged.sound hall
  exact ⟨p.2, by rw [ExtentMap.extents, hl]; rfl, hrange, hfree⟩

end Accounts

/-! ## Every run -/

/-- A space is created over every arena that is a range. -/
theorem outcome_create {σ : Type} (owner : Nat) {arena : Arena} {region : Range}
    (h : Range.ofLength arena.start arena.size = .ok region) (outer : σ) :
    ∃ s id, (Space.create owner arena).outcome outer = (.ok s, outer) ∧ s.map.Sound ∧
      s.map.region = region ∧ s.map.toList = [(id, ExtentMap.seed region)] := by
  obtain ⟨id, m, hout, hsound, hregion, hl⟩ :=
    ExtentMap.outcome_create owner arena.kind.name region outer
  refine ⟨⟨arena.kind, m⟩, id, ?_, hsound, hregion, hl⟩
  rw [Space.create, Operation.outcome_bind, Operation.outcome_mapError, ExtentMap.ofArena, h,
    Operation.outcome_bind_ok (Operation.outcome_ofExcept_ok region outer), hout]
  rfl

/-- A space that was created is one free extent over its arena. -/
theorem create_eq_ok {σ : Type} {owner : Nat} {arena : Arena} {s : Space} {outer : σ}
    (h : ((Space.create owner arena : Operation σ RequestError Space).outcome outer).1 = .ok s) :
    ∃ region id, s.map.Sound ∧ Range.ofLength arena.start arena.size = .ok region ∧
      s.map.region = region ∧ s.map.toList = [(id, ExtentMap.seed s.map.region)] := by
  cases hregion : Range.ofLength arena.start arena.size with
  | error e =>
      rw [Space.create, Operation.outcome_bind, Operation.outcome_mapError, ExtentMap.ofArena,
        hregion, Operation.outcome_bind_error (Operation.outcome_ofExcept_error e outer)] at h
      simp at h
  | ok region =>
      obtain ⟨s', id, hout, hsound, hmap, hl⟩ := outcome_create owner hregion outer
      rw [hout] at h
      obtain rfl := Verdict.ok.inj h
      exact ⟨region, id, hsound, rfl, hmap, hmap ▸ hl⟩

theorem paged_of_create {σ : Type} {owner : Nat} {arena : Arena} {s : Space} {outer : σ}
    (hstart : Page.isAligned arena.start = true) (hsize : Page.isAligned arena.size = true)
    (h : ((Space.create owner arena : Operation σ RequestError Space).outcome outer).1 = .ok s) :
    s.map.Paged := by
  obtain ⟨region, id, hsound, hregion, rfl, hl⟩ := create_eq_ok h
  obtain ⟨hlo, hhi⟩ := Range.stop_of_ofLength hregion
  rw [Page.isAligned_iff] at hstart hsize
  exact ExtentMap.managed_seed hsound ⟨hlo ▸ hstart, hhi ▸ Nat.dvd_add hstart hsize⟩ hl

/-- Over whole pages, all of them are free at first. -/
theorem accounts_create {owner : Nat} {arena : Arena} {s : Space}
    (hstart : Page.isAligned arena.start = true) (hsize : Page.isAligned arena.size = true)
    (h : ((Space.create owner arena : Operation Unit RequestError Space).run ()).verdict = .ok s) :
    Accounts arena s [] := by
  rw [Operation.verdict_run] at h
  have hm := paged_of_create hstart hsize h
  obtain ⟨region, id, hsound, hregion, rfl, hl⟩ := create_eq_ok h
  obtain ⟨hlo, hhi⟩ := Range.stop_of_ofLength hregion
  refine ⟨hm, ⟨hlo, hhi⟩, by simp, by simp, by simp, ?_⟩
  intro address usage hused
  refine iff_of_false ?_ (by simp)
  intro husage
  obtain ⟨p, hp, rfl, -⟩ := hsound.contains_of_usageAt? husage
  rw [hl, List.mem_singleton] at hp
  exact hused (by rw [hp]; rfl)

theorem Reachable.accounts {arena : Arena} {s : Space} {ledger : List Grant}
    (hs : Reachable arena s ledger) (hstart : Page.isAligned arena.start = true)
    (hsize : Page.isAligned arena.size = true) : Accounts arena s ledger := by
  induction hs with
  | create owner h => exact accounts_create hstart hsize h
  | @allocate s ledger _ hint size usage reply hreply hslots ha =>
      subst hreply
      rw [Operation.verdict_run] at hslots ⊢
      rw [Operation.state_run]
      rcases allocate_cases ha.paged hint size usage with
        ⟨e, hout⟩ | ⟨slots, s', hout⟩ | ⟨start, s', r, hout, -, hr, ht⟩
      · rw [hout]
        exact ha
      · exact absurd ⟨slots, by rw [hout]⟩ hslots
      · rw [hout]
        exact ha.take (.block hr) ht
  | @reserve s ledger _ start size usage reply hreply hslots ha =>
      subst hreply
      rw [Operation.verdict_run] at hslots ⊢
      rw [Operation.state_run]
      rcases reserve_cases ha.paged start size usage with
        ⟨e, hout⟩ | ⟨slots, s', hout⟩ | ⟨s', r, hout, hr, ht⟩
      · rw [hout]
        exact ha
      · exact absurd ⟨slots, by rw [hout]⟩ hslots
      · rw [hout]
        exact ha.take (.block hr) ht
  | @gather s ledger _ size usage buffer reply hreply hslots ha =>
      subst hreply
      rw [Operation.verdict_run] at hslots ⊢
      rw [Operation.state_run]
      rcases Gathering.allocate_cases (g := ⟨s, buffer⟩) ha.paged size usage with
        ⟨e, g', hout, hsame⟩ | ⟨slots, g', hout⟩ | ⟨count, g', hout, hap, hpaged, ht⟩
      · rw [hout]
        show Accounts arena g'.space ledger
        rw [hsame]
        exact ha
      · exact absurd ⟨slots, by rw [hout]⟩ hslots
      · rw [hout]
        exact ha.take (.pieces hap hpaged) ht
  | @free s front back address size usage _ reply hreply hslots ha =>
      subst hreply
      rw [Operation.verdict_run] at hslots ⊢
      rw [Operation.state_run]
      rcases ha.outcome_free List.mem_append_cons_self with
        ⟨slots, s', hout⟩ | ⟨r, s', hout, hr, hs'⟩
      · exact absurd ⟨slots, by rw [hout]⟩ hslots
      · rw [hout]
        exact ha.release (.block hr) hs'
  | @freeGather s front back ranges usage _ reply hreply hslots ha =>
      subst hreply
      rw [Operation.verdict_run] at hslots ⊢
      rw [Operation.state_run]
      rcases ha.outcome_freeGather List.mem_append_cons_self with
        ⟨slots, s', hout⟩ | ⟨s', hout, hholds, hs'⟩
      · exact absurd ⟨slots, by rw [hout]⟩ hslots
      · rw [hout]
        exact ha.release hholds hs'

/-- No byte is handed out twice or lost: the stretches of the live grants are apart and in
the arena, they are what is not free, each with the usage it was granted for, every grant
can be given back whole, and when all are, the arena is one free extent again. -/
theorem ledger_accounts_for_arena {arena : Arena} {s : Space} {ledger : List Grant}
    (hstart : Page.isAligned arena.start = true) (hsize : Page.isAligned arena.size = true)
    (hs : Reachable arena s ledger) :
    ((ledger.flatMap Grant.stretches).Pairwise fun t t' => t.2 ≤ t'.1 ∨ t'.2 ≤ t.1) ∧
    (∀ t ∈ ledger.flatMap Grant.stretches,
      arena.start ≤ t.1 ∧ t.1 < t.2 ∧ t.2 ≤ arena.start + arena.size) ∧
    (∀ address usage, usage ≠ .free →
      (s.map.usageAt? address = some usage ↔
        ∃ g ∈ ledger, g.usage = usage ∧ g.Covers address)) ∧
    (∀ address size usage, .block address size usage ∈ ledger →
      ∀ reply, (free address (some size)).run s = reply → ¬ reply.verdict.IsExhaustion →
        reply.verdict = .ok (Page.roundDown (address + size + (Page.size - 1)) -
          Page.roundDown address)) ∧
    (∀ ranges usage, .pieces ranges usage ∈ ledger →
      ∀ reply, (freeGather ranges).run s = reply → ¬ reply.verdict.IsExhaustion →
        reply.verdict = .ok ()) ∧
    (ledger = [] → ∃ e, s.map.extents = [e] ∧ e.usage = .free ∧ e.start = arena.start ∧
      e.stop = arena.start + arena.size) := by
  have ha := hs.accounts hstart hsize
  refine ⟨ha.apart, fun t ht => ha.inside ht, ha.usage_iff, ?_, ?_, ?_⟩
  · intro address size usage hmem reply hreply hslots
    subst hreply
    rw [Operation.verdict_run] at hslots ⊢
    rcases ha.outcome_free hmem with ⟨slots, s', hout⟩ | ⟨r, s', hout, hr, -⟩
    · exact absurd ⟨slots, by rw [hout]⟩ hslots
    · rw [hout, ← hr.start_eq, ← hr.stop_eq_roundDown]
      rfl
  · intro ranges usage hmem reply hreply hslots
    subst hreply
    rw [Operation.verdict_run] at hslots ⊢
    rcases ha.outcome_freeGather hmem with ⟨slots, s', hout⟩ | ⟨s', hout, -⟩
    · exact absurd ⟨slots, by rw [hout]⟩ hslots
    · rw [hout]
  · intro hempty
    subst hempty
    obtain ⟨e, hextents, hrange, hfree⟩ := ha.eq_singleton
    refine ⟨e, hextents, hfree, ?_, ?_⟩
    · rw [Extent.start, hrange, ha.region_eq.1]
    · rw [Extent.stop, hrange, ha.region_eq.2]

def created (arena : Arena) : Space :=
  match ((Space.create 0 arena : Operation Unit RequestError Space).run ()).verdict with
  | .ok s => s
  | _ => default

theorem verdict_create {arena : Arena} {region : Range}
    (h : Range.ofLength arena.start arena.size = .ok region) :
    ((Space.create 0 arena : Operation Unit RequestError Space).run ()).verdict =
      .ok (created arena) := by
  obtain ⟨s, id, hout, -⟩ := outcome_create (σ := Unit) 0 h ()
  have hverdict : ((Space.create 0 arena : Operation Unit RequestError Space).run
      ()).verdict = .ok s := by
    rw [Operation.verdict_run, hout]
  have hs : created arena = s := by
    unfold created
    rw [hverdict]
  exact hs ▸ hverdict

theorem created_reachable {arena : Arena} {region : Range}
    (h : Range.ofLength arena.start arena.size = .ok region) :
    Reachable arena (created arena) [] :=
  .create 0 (verdict_create h)

/-- A reservation that starts in the middle of a page holds all of that page. -/
theorem ledger_accounts_for_pages :
    let arena : Arena := ⟨.physical, 0x100000, 0x10000⟩
    let s := ((reserve 0x100800 0x1000 .inUse).run (created arena)).state
    s.map.usageAt? 0x100000 = some .inUse ∧ s.map.usageAt? 0x101fff = some .inUse := by
  intro arena s
  obtain ⟨_, hregion, -⟩ := Range.ofLength_eq_ok (show 0 < 0x10000 by decide)
    (show 0x100000 + 0x10000 < Word.bound by decide)
  have hreserve : ((reserve 0x100800 0x1000 .inUse).run (created arena)).verdict = .ok () := by
    decide
  have hs : Reachable arena s [.block 0x100800 0x1000 .inUse] := by
    have := Reachable.reserve (created_reachable hregion) 0x100800 0x1000 .inUse rfl fun ⟨_, h⟩ =>
      nomatch hreserve.symm.trans h
    rwa [hreserve] at this
  obtain ⟨-, -, husage, -⟩ := ledger_accounts_for_arena
    (show Page.isAligned arena.start = true by decide) (by decide) hs
  have hstretch : (0x100000, 0x102000) ∈ (Grant.block 0x100800 0x1000 .inUse).stretches := by
    decide
  have hheld : ∀ address, 0x100000 ≤ address → address < 0x102000 →
      s.map.usageAt? address = some .inUse := fun address hlo hhi =>
    (husage address .inUse (by decide)).mpr
      ⟨_, List.mem_singleton_self _, rfl, _, hstretch, hlo, hhi⟩
  exact ⟨hheld _ (by decide) (by decide), hheld _ (by decide) (by decide)⟩

end Space

end KernelMemory
