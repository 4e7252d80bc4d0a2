import KernelMemory.Proofs.Space.Run

/-!
# Requests for nothing

An allocation tests its size before it rounds it, so no bytes are never granted. A reservation
and a release round their ends outwards first. At a page boundary both ends stay where they are,
and the empty range is refused. Inside a page they part, and a request for no bytes is a request
for the page around the address, like that for one byte.
-/

namespace KernelMemory

namespace Space

variable {s : Space}

/-- The call is refused, and nothing has changed. -/
def Refused {σ ε α : Type} (op : Operation σ ε α) (s : σ) : Prop :=
  ∃ e, op.outcome s = (.error e, s)

theorem Refused.verdict_ne_ok {σ ε α : Type} {op : Operation σ ε α} {s : σ} (h : Refused op s)
    (a : α) : (op.run s).verdict ≠ .ok a := by
  obtain ⟨e, hout⟩ := h
  rw [Operation.verdict_run, hout]
  exact nofun

theorem pages_zero (usage : Usage) : Space.pages 0 usage = .error .invalidArgument := rfl

/-! ## At a boundary -/

theorem eq_of_pageStop_zero {address stop : Nat} (hdvd : Page.size ∣ address)
    (h : pageStop address 0 = .ok stop) : stop = address := by
  obtain ⟨hle, hlt, hstop⟩ := Page.roundUp?_spec (pageStop_eq_ok h)
  exact Page.eq_of_dvd hstop hdvd hlt (by omega)

theorem refused_reserve_zero {start : Nat} (hdvd : Page.size ∣ start) (usage : Usage) :
    Refused (reserve start 0 usage) s := by
  refine ⟨.invalidArgument, ?_⟩
  cases hstop : pageStop start 0 with
  | error e =>
      obtain rfl := pageStop_eq_error hstop
      rw [reserve, hstop]
      rfl
  | ok last =>
      refine outcome_reserve_of_le hstop (Nat.le_of_eq ?_) usage
      rw [eq_of_pageStop_zero hdvd hstop, Page.roundDown_of_dvd hdvd]

theorem releasedRange_zero {address : Nat} (hdvd : Page.size ∣ address) (e : Extent) :
    ∃ error, releasedRange e address (some 0) = .error error := by
  rw [releasedRange]
  cases hstop : pageStop address 0 with
  | error error => exact ⟨error, rfl⟩
  | ok stop =>
      refine ⟨.ofExtentError (.invalidRange address address), ?_⟩
      obtain rfl := eq_of_pageStop_zero hdvd hstop
      show (Range.new (Page.roundDown stop) stop).mapError _ = _
      rw [Page.roundDown_of_dvd hdvd, Range.new, dif_neg fun h => Nat.lt_irrefl _ h.1]
      rfl

theorem refused_free_zero {D : Nat → Prop} (hm : s.map.Managed D) {address : Nat}
    (hdvd : Page.size ∣ address) : Refused (free address (some 0)) s := by
  cases hfind : s.map.find? address with
  | none => exact ⟨_, outcome_free_of_untracked hfind _⟩
  | some p =>
      cases hunallocated : isUnallocated p.2 with
      | true => exact ⟨_, outcome_free_of_unallocated hfind hunallocated _⟩
      | false =>
          have hused : p.2.usage ≠ .free := by
            intro hfree
            rw [isUnallocated, hfree] at hunallocated
            cases hunallocated
          obtain ⟨e, hrange⟩ := releasedRange_zero hdvd p.2
          refine ⟨e, ?_⟩
          simp only [outcome_free_of_used hm hfind hused, hrange]

/-! ## Inside a page -/

theorem pageStop_zero_of_inside {address : Nat} (hinside : ¬ Page.size ∣ address) :
    pageStop address 0 = pageStop address 1 := by
  cases hround : Page.roundUp? address with
  | some stop =>
      have hnext : Page.roundUp? (address + 1) = some stop :=
        (Page.roundUp?_succ hinside).trans hround
      rw [pageStop_of_roundUp? hnext]
      exact pageStop_of_roundUp? hround
  | none =>
      have hbound := Page.roundUp?_eq_none_iff.mp hround
      rw [pageStop_of_overflow (by omega), pageStop_of_overflow (by omega)]

theorem reserve_zero_of_inside {start : Nat} (hinside : ¬ Page.size ∣ start) (usage : Usage) :
    reserve start 0 usage = reserve start 1 usage := by
  rw [reserve, reserve, pageStop_zero_of_inside hinside]

theorem free_zero_of_inside {address : Nat} (hinside : ¬ Page.size ∣ address) :
    free address (some 0) = free address (some 1) := by
  have hrange : ∀ e, releasedRange e address (some 0) = releasedRange e address (some 1) :=
    fun e => by rw [releasedRange, releasedRange, pageStop_zero_of_inside hinside]
  simp only [free, hrange]

/-- An allocation of no bytes is refused, placed or gathered, and at a page boundary so is a
reservation or a release of no bytes; nothing has changed then. Inside a page, a reservation and
a release of no bytes are those of one byte. -/
theorem empty_requests_refused {arena : Arena} (hs : Reached arena s) (hint : Option Nat)
    (address : Nat) (usage : Usage) (buffer : List Range) :
    Refused (allocate hint 0 usage) s ∧ Refused (Gathering.allocate 0 usage) ⟨s, buffer⟩ ∧
    (Page.size ∣ address →
      Refused (reserve address 0 usage) s ∧ Refused (free address (some 0)) s) ∧
    (¬ Page.size ∣ address →
      reserve address 0 usage = reserve address 1 usage ∧
      free address (some 0) = free address (some 1)) := by
  have hm : s.map.Managed fun _ => True := hs.managed
  refine ⟨⟨_, outcome_allocate_of_pages_error (pages_zero usage) hint⟩, ⟨.invalidArgument, ?_⟩,
    fun hdvd => ⟨refused_reserve_zero hdvd usage, refused_free_zero hm hdvd⟩,
    fun hinside => ⟨reserve_zero_of_inside hinside usage, free_zero_of_inside hinside⟩⟩
  rw [Gathering.allocate, pages_zero]
  rfl

/-- At the boundaries of a page in use, no bytes are refused. -/
theorem empty_requests_refused_at_boundary :
    let arena : Arena := ⟨.physical, 0x1000, 0x4000⟩
    let s := ((Call.reserve 0x2000 0x1000 .inUse).perform.run ⟨created arena, []⟩).state.space
    Reached arena s ∧ Refused (free 0x2000 (some 0)) s ∧ Refused (reserve 0x3000 0 .inUse) s := by
  intro arena s
  have hreserve : ((Call.reserve 0x2000 0x1000 .inUse).perform.run
    ⟨created arena, []⟩).verdict = .ok () := by decide
  have hs : Reached arena s :=
    (reached_created (by decide) (by decide)).step (.reserve 0x2000 0x1000 .inUse) []
      (Verdict.not_isExhaustion_of_ok hreserve)
  obtain ⟨-, -, hstart, -⟩ := empty_requests_refused hs none 0x2000 .inUse []
  obtain ⟨-, -, hstop, -⟩ := empty_requests_refused hs none 0x3000 .inUse []
  exact ⟨hs, (hstart (by decide)).2, (hstop (by decide)).1⟩

/-- In the middle of a page, no bytes are granted: the page is reserved, and released again. -/
theorem empty_requests_granted_inside_page :
    let arena : Arena := ⟨.physical, 0x1000, 0x4000⟩
    let s := created arena
    let s' := ((Call.reserve 0x1800 0 .inUse).perform.run ⟨s, []⟩).state.space
    Reached arena s ∧ ¬ Refused (reserve 0x1800 0 .inUse) s ∧
      s.map.usageAt? 0x1000 = some .free ∧ s'.map.usageAt? 0x1000 = some .inUse ∧
      Reached arena s' ∧ ((free 0x1800 (some 0)).run s').verdict = .ok 0x1000 ∧
      ¬ Refused (free 0x1800 (some 0)) s' := by
  intro arena s s'
  have hs : Reached arena s := reached_created (by decide) (by decide)
  have hperform : ((Call.reserve 0x1800 0 .inUse).perform.run ⟨s, []⟩).verdict = .ok () := by
    decide
  have hreserve : ((reserve 0x1800 0 .inUse).run s).verdict = .ok () := by decide
  have hfree : ((free 0x1800 (some 0)).run s').verdict = .ok 0x1000 := by decide +kernel
  exact ⟨hs, fun h => h.verdict_ne_ok () hreserve, by decide +kernel, by decide +kernel,
    hs.step (.reserve 0x1800 0 .inUse) [] (Verdict.not_isExhaustion_of_ok hperform), hfree,
    fun h => h.verdict_ne_ok 0x1000 hfree⟩

end Space

end KernelMemory
