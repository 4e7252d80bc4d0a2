import KernelMemory.Proofs.Space.Run

/-!
# Exact releases

A release is asked for by an address, and what it covers depends on the extent that has the
address. Clients know nothing of extents: several allocations of one usage that lie side by
side are one extent, and a part of an allocation may have been released before. In a partition
without equal neighbours, though, the extent around an address is the longest range of one
usage around it. So what a release covers, and whether it is granted, can be said by addresses
alone.

The usage that a release leaves behind is read from the extent, which remembers what was there
before. On a managed map that is free memory, whatever allocations have been cut and merged
since.
-/

namespace KernelMemory

namespace Space

variable {s : Space} {D : Nat → Prop} {address : Nat} {usage : Usage}

/-! ## Runs of one usage -/

/-- The longest range of one usage around an address: any other lies inside it. -/
structure IsRunAround (s : Space) (address : Nat) (usage : Usage) (run : Range) : Prop where
  contains : run.contains address = true
  uniform : s.Uniform usage run
  longest : ∀ r : Range, r.contains address = true → s.Uniform usage r → run.encloses r = true

/-- The extent that has an address is the run around it. -/
theorem isRunAround_of_mem (hm : s.map.Managed D) {p : Handle × Extent} (hp : p ∈ s.map.toList)
    (hcontains : p.2.range.contains address = true) :
    s.IsRunAround address p.2.usage p.2.range where
  contains := hcontains
  uniform _ hin := hm.sound.usageAt?_of_mem hp hin
  longest r hr huniform := by
    obtain ⟨q, hq, -, -, inside⟩ := hm.partition.exists_encloses hm.sound huniform
    have hqcontains := Range.contains_of_encloses inside hr
    obtain rfl := hm.sound.ordered.eq_of_contains hp hq hcontains hqcontains
    exact inside

theorem IsRunAround.uniform_iff {run r : Range} (h : s.IsRunAround address usage run)
    (hr : r.contains address = true) : s.Uniform usage r ↔ run.encloses r = true :=
  ⟨h.longest r hr, fun inside a hin => h.uniform a (Range.contains_of_encloses inside hin)⟩

/-! ## What is released -/

theorem releasedRange_of_overflow (e : Extent) {size : Nat}
    (h : Word.bound ≤ address + size + (Page.size - 1)) :
    releasedRange e address (some size) = .error .invalidArgument := by
  rw [releasedRange, pageStop_of_overflow h]
  rfl

/-- A range around the address is released if it has one usage, and refused otherwise. -/
theorem free_cases_of_range (hm : s.map.Managed fun _ => True) {p : Handle × Extent}
    (hfind : s.map.find? address = some p) (hused : p.2.usage ≠ .free) {size : Option Nat}
    {r : Range} (hr : releasedRange p.2 address size = .ok r)
    (hcontains : r.contains address = true)
    (hslots : ¬ ((free address size).outcome s).1.IsExhaustion) :
    (s.Uniform p.2.usage r ∧
        ∃ s', (free address size).outcome s = (.ok r.length, s') ∧ s.Assigned r .free s') ∨
      ¬ s.Uniform p.2.usage r ∧
        (free address size).outcome s = (.error (.invalidRange r.start r.stop), s) := by
  obtain ⟨hmem, hin⟩ := ExtentMap.contains_of_find? hfind
  rw [(isRunAround_of_mem hm hmem hin).uniform_iff hcontains]
  cases inside : p.2.range.encloses r with
  | false =>
      exact .inr ⟨Bool.false_ne_true, outcome_free_of_outside hm hfind hused hr inside⟩
  | true =>
      refine .inl ⟨rfl, ?_⟩
      rcases outcome_free_of_encloses hm hfind hused hr inside ⟨trivial, trivial⟩ with
        ⟨slots, s', hout⟩ | ⟨s', hout, hs'⟩
      · exact absurd ⟨slots, by rw [hout]⟩ hslots
      · exact ⟨s', hout, assigned_of_converts hs'⟩

/-- Without a size it is the run around the address that is released. -/
theorem free_of_used (hm : s.map.Managed fun _ => True) {p : Handle × Extent}
    (hfind : s.map.find? address = some p) (hused : p.2.usage ≠ .free)
    (hslots : ¬ ((free address none).outcome s).1.IsExhaustion) :
    ∃ s', (free address none).outcome s = (.ok p.2.range.length, s') ∧
      s.Assigned p.2.range .free s' := by
  obtain ⟨hmem, hin⟩ := ExtentMap.contains_of_find? hfind
  rcases free_cases_of_range hm hfind hused (r := p.2.range) rfl hin hslots with
    ⟨-, hfreed⟩ | ⟨hnot, -⟩
  · exact hfreed
  · exact absurd (isRunAround_of_mem hm hmem hin).uniform hnot

/-- With a size it is the pages around the bytes, unless their end leaves the address range. -/
theorem free_cases_of_size (hm : s.map.Managed fun _ => True) {p : Handle × Extent}
    (hfind : s.map.find? address = some p) (hused : p.2.usage ≠ .free) {n : Nat} (hn : n ≠ 0)
    (hslots : ¬ ((free address (some n)).outcome s).1.IsExhaustion) :
    (Word.bound ≤ address + n + (Page.size - 1) ∧
        (free address (some n)).outcome s = (.error .invalidArgument, s)) ∨
      address + n + (Page.size - 1) < Word.bound ∧ ∃ r, PagesAround address n r ∧
        ((s.Uniform p.2.usage r ∧
            ∃ s', (free address (some n)).outcome s = (.ok r.length, s') ∧ s.Assigned r .free s') ∨
          ¬ s.Uniform p.2.usage r ∧
            (free address (some n)).outcome s = (.error (.invalidRange r.start r.stop), s)) := by
  rcases Nat.lt_or_ge (address + n + (Page.size - 1)) Word.bound with hlt | hge
  · obtain ⟨r, hr⟩ := PagesAround.exists_of_lt (Nat.pos_of_ne_zero hn) hlt
    exact .inr ⟨hlt, r, hr, free_cases_of_range hm hfind hused (hr.releasedRange_eq p.2)
      hr.contains_address hslots⟩
  · refine .inl ⟨hge, ?_⟩
    simp only [outcome_free_of_used hm hfind hused, releasedRange_of_overflow p.2 hge]

/-! ## Every release -/

/-- What a release from an address in use comes to. Without a size the run around the address
is freed. With a size it is the pages around the bytes, if there are any and all of them are
in the run. -/
structure Releases (s : Space) (address : Nat) (usage : Usage) (size : Option Nat)
    (verdict : Verdict RequestError Nat) (s' : Space) : Prop where
  whole : size = none →
    ∃ run, s.IsRunAround address usage run ∧ verdict = .ok run.length ∧ s.Assigned run .free s'
  invalid_iff : ∀ n, size = some n →
    (verdict = .error .invalidArgument ↔ Word.bound ≤ address + n + (Page.size - 1))
  pages : ∀ n, size = some n → address + n + (Page.size - 1) < Word.bound →
    ∃ r, PagesAround address n r ∧ ((∃ k, verdict = .ok k) ↔ s.Uniform usage r) ∧
      (s.Uniform usage r → verdict = .ok r.length ∧ s.Assigned r .free s') ∧
      (¬ s.Uniform usage r → verdict = .error (.invalidRange r.start r.stop))

/-- A release from an address in use is granted, or refused for one of two reasons. -/
theorem free_of_tracked (hm : s.map.Managed fun _ => True) {p : Handle × Extent}
    (hfind : s.map.find? address = some p) (hused : p.2.usage ≠ .free) {size : Option Nat}
    (hsize : size ≠ some 0) (hslots : ¬ ((free address size).outcome s).1.IsExhaustion) :
    ((∃ k s', (free address size).outcome s = (.ok k, s')) ∨
        (free address size).outcome s = (.error .invalidArgument, s) ∨
        ∃ start stop, (free address size).outcome s = (.error (.invalidRange start stop), s)) ∧
      s.Releases address p.2.usage size ((free address size).outcome s).1
        ((free address size).outcome s).2 := by
  cases size with
  | none =>
      obtain ⟨hmem, hin⟩ := ExtentMap.contains_of_find? hfind
      obtain ⟨s', hout, hfreed⟩ := free_of_used hm hfind hused hslots
      rw [hout]
      exact ⟨.inl ⟨_, s', rfl⟩, fun _ => ⟨_, isRunAround_of_mem hm hmem hin, rfl, hfreed⟩,
        nofun, nofun⟩
  | some n =>
      have hn : n ≠ 0 := fun h => hsize (congrArg some h)
      rcases free_cases_of_size hm hfind hused hn hslots with
        ⟨hge, hout⟩ | ⟨hlt, r, hr, ⟨huniform, s', hout, hfreed⟩ | ⟨hnot, hout⟩⟩
      · rw [hout]
        refine ⟨.inr (.inl rfl), nofun, ?_, ?_⟩
        · rintro _ ⟨⟩
          exact iff_of_true rfl hge
        · rintro _ ⟨⟩ hlt
          exact absurd hlt (Nat.not_lt.mpr hge)
      · rw [hout]
        refine ⟨.inl ⟨_, s', rfl⟩, nofun, ?_, ?_⟩
        · rintro _ ⟨⟩
          exact iff_of_false nofun (Nat.not_le.mpr hlt)
        · rintro _ ⟨⟩ -
          exact ⟨r, hr, iff_of_true ⟨_, rfl⟩ huniform, fun _ => ⟨rfl, hfreed⟩,
            fun hnot => absurd huniform hnot⟩
      · rw [hout]
        refine ⟨.inr (.inr ⟨_, _, rfl⟩), nofun, ?_, ?_⟩
        · rintro _ ⟨⟩
          exact iff_of_false nofun (Nat.not_le.mpr hlt)
        · rintro _ ⟨⟩ -
          exact ⟨r, hr, iff_of_false nofun hnot, fun huniform => absurd huniform hnot,
            fun _ => rfl⟩

/-- A release is answered as not found exactly if the address is not tracked and as not
allocated exactly if it is free. From an address in use, the run around it is released or the
pages around the given bytes, whatever allocations they belong to, and they become free.
A refused release changes nothing. -/
theorem freeing_exact {arena : Arena} (hs : Reached arena s) (address : Nat) (size : Option Nat)
    (hsize : size ≠ some 0) {reply : Reply Space RequestError Nat}
    (hreply : (free address size).run s = reply) (hslots : ¬ reply.verdict.IsExhaustion) :
    (∀ f, reply.verdict ≠ .fault f) ∧ (∀ e, reply.verdict = .error e → reply.state = s) ∧
    (reply.verdict = .error .notFound ↔ s.map.usageAt? address = none) ∧
    (reply.verdict = .error (.notAllocated address) ↔ s.map.usageAt? address = some .free) ∧
    ∀ usage, usage ≠ .free → s.map.usageAt? address = some usage →
      s.Releases address usage size reply.verdict reply.state := by
  have hm : s.map.Managed fun _ => True := hs.managed
  subst hreply
  rw [Operation.verdict_run] at hslots ⊢
  rw [Operation.state_run]
  cases hfind : s.map.find? address with
  | none =>
      have husage : s.map.usageAt? address = none := by rw [ExtentMap.usageAt?, hfind]; rfl
      rw [outcome_free_of_untracked hfind, husage]
      simp
  | some p =>
      obtain ⟨hmem, hin⟩ := ExtentMap.contains_of_find? hfind
      have husage := hm.sound.usageAt?_of_mem hmem hin
      rw [husage]
      by_cases hfree : p.2.usage = .free
      · have hunallocated : isUnallocated p.2 = true := by
          rw [isUnallocated, hfree]
          rfl
        rw [outcome_free_of_unallocated hfind hunallocated, hfree]
        refine ⟨by simp, by simp, by simp, by simp, fun usage hused husage => ?_⟩
        exact absurd (Option.some.inj husage).symm hused
      · obtain ⟨hcases, hreleases⟩ := free_of_tracked hm hfind hfree hsize hslots
        refine ⟨?_, ?_, iff_of_false ?_ (by simp), iff_of_false ?_ (by simp [hfree]),
          fun usage _ husage => Option.some.inj husage ▸ hreleases⟩
        all_goals
          rcases hcases with ⟨k, s', hout⟩ | hout | ⟨start, stop, hout⟩ <;> rw [hout] <;> simp

/-- Two reservations of one usage lie side by side in one extent. A release of a few bytes
around the boundary between them takes a page from each. -/
theorem freeing_exact_across_reservations :
    let arena : Arena := ⟨.physical, 0x1000, 0x8000⟩
    let s₁ := ((Call.reserve 0x2000 0x2000 .inUse).perform.run ⟨created arena, []⟩).state.space
    let s := ((Call.reserve 0x4000 0x2000 .inUse).perform.run ⟨s₁, []⟩).state.space
    let reply := (free 0x3ff0 (some 0x20)).run s
    s.map.extents.map Extent.usage = [.free, .inUse, .free] ∧ reply.verdict = .ok 0x2000 ∧
      ∃ r, PagesAround 0x3ff0 0x20 r ∧ s.Uniform .inUse r ∧ s.Assigned r .free reply.state := by
  intro arena s₁ s reply
  have h₁ : ((Call.reserve 0x2000 0x2000 .inUse).perform.run
    ⟨created arena, []⟩).verdict = .ok () := by decide
  have h₂ : ((Call.reserve 0x4000 0x2000 .inUse).perform.run ⟨s₁, []⟩).verdict = .ok () := by
    decide +kernel
  have hs : Reached arena s :=
    ((reached_created (by decide) (by decide)).step (.reserve 0x2000 0x2000 .inUse) []
      (Verdict.not_isExhaustion_of_ok h₁)).step (.reserve 0x4000 0x2000 .inUse) []
      (Verdict.not_isExhaustion_of_ok h₂)
  have hok : reply.verdict = .ok 0x2000 := by decide +kernel
  obtain ⟨-, -, -, -, hused⟩ := freeing_exact hs 0x3ff0 (some 0x20) (by decide)
    (show _ = reply from rfl) (Verdict.not_isExhaustion_of_ok hok)
  have hreleases := hused .inUse (by decide) (by decide +kernel)
  obtain ⟨r, hr, hok_iff, hreleased, -⟩ := hreleases.pages 0x20 rfl (by decide)
  have huniform := hok_iff.mp ⟨_, hok⟩
  exact ⟨by decide +kernel, hok, r, hr, huniform, (hreleased huniform).2⟩

end Space

end KernelMemory
