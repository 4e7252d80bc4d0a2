import KernelMemory.Proofs.Space.Placement
import KernelMemory.Proofs.Space.Safety

/-!
# Exact reservations

A reservation looks for one free extent that has all of its pages, while its client only asks
for addresses. On a managed map it is the same: a range whose addresses are free lies in one
free extent, since two of them are never side by side.

The pages are computed in three steps, each of which could fail: the end of the bytes is
rounded up, the start is subtracted from it, and the difference is rounded up once more. Only
the first can. The end does not lie before the start, and the distance of two page boundaries
is a number of whole pages already. It is less than the address range by at least a page, so
even the addition that rounding begins with stays in range.
-/

namespace KernelMemory

namespace Space

variable {s : Space} {D : Nat → Prop}

/-! ## The pages that are asked for -/

/-- A search for a range that can be asked for fails only for lack of a free extent there. -/
theorem freeFrom_eq_error (h : s.map.Sound) (r : Range) {e : ExtentError}
    (he : s.freeFrom r.start r.length = .error e) : e = .notFound := by
  have hlt := r.start_lt_stop
  have hbound := r.stop_lt_bound
  have hanswers := h.answersAt_searchAt (c := { Criteria.containing r.start with
    size := some r.length, usage := some .free }) rfl
  rcases hanswers.error e he with hnone | ⟨start, stop, rfl⟩
  · exact hnone
  · obtain ⟨-, -, size, hsize, hbad⟩ := (hanswers.invalidRange_iff start stop).mp he
    obtain rfl : r.stop - r.start = size := Option.some.inj hsize
    omega

/-- A free extent with the whole range is found exactly if all of its addresses are free. -/
theorem freeFrom_cases (hm : s.map.Managed D) (r : Range) :
    (s.Uniform .free r ∧ ∃ p, s.freeFrom r.start r.length = .ok p) ∨
      ¬ s.Uniform .free r ∧ s.freeFrom r.start r.length = .error .notFound := by
  have hlt := r.start_lt_stop
  have hstop : r.start + r.length = r.stop := Nat.add_sub_cancel' (Nat.le_of_lt hlt)
  cases hfree : s.freeFrom r.start r.length with
  | ok p =>
      have hf := freeFrom_eq_ok hm.sound hfree
      refine .inl ⟨fun a hin => hf.usageAt?_eq hm.sound ?_, p, rfl⟩
      exact Range.contains_of_encloses
        (Range.encloses_iff.mpr ⟨hf.start_le, hstop ▸ hf.le_stop⟩) hin
  | error e =>
      obtain rfl := freeFrom_eq_error hm.sound r hfree
      refine .inr ⟨fun huniform => ?_, rfl⟩
      obtain ⟨p, hp, -, husage, inside⟩ := hm.partition.exists_encloses hm.sound huniform
      obtain ⟨hlo, hhi⟩ := Range.encloses_iff.mp inside
      have hf : s.Fits p.1 r.start r.length p.2 := ⟨hp, husage, hlo, hstop ▸ hhi⟩
      exact nomatch hfree.symm.trans (hf.freeFrom_eq hm.sound (Nat.sub_pos_of_lt hlt))

/-- The steps between the bytes of a request and its pages: the first decides, and the others
cannot fail. -/
theorem PagesAround.steps {start size : Nat} {r : Range} (hr : PagesAround start size r) :
    pageStop start size = .ok r.stop ∧ Page.roundDown start ≤ r.stop ∧
      Page.roundUp? (r.stop - Page.roundDown start) = some (r.stop - Page.roundDown start) := by
  have hlt := r.start_lt_stop
  rw [← hr.start_eq]
  exact ⟨hr.pageStop_eq, Nat.le_of_lt hlt, hr.roundUp?_length⟩

/-! ## Every reservation -/

/-- The pages around the bytes are taken if they are free, and refused otherwise. -/
theorem reserve_cases_of_pages (hm : s.map.Managed fun _ => True) {start size : Nat} {r : Range}
    (hr : PagesAround start size r) {usage : Usage} (hused : usage ≠ .free) :
    (∃ slots s', (reserve start size usage).outcome s = (.fault (.slotsExhausted slots), s')) ∨
      (s.Uniform .free r ∧
        ∃ s', (reserve start size usage).outcome s = (.ok (), s') ∧ s.Assigned r usage s') ∨
      ¬ s.Uniform .free r ∧ (reserve start size usage).outcome s = (.error .notFound, s) := by
  rcases freeFrom_cases hm r with ⟨huniform, p, hfree⟩ | ⟨hnot, hfree⟩
  · rcases outcome_reserve hm hr hused hfree ⟨trivial, trivial⟩ with
      hslots | ⟨s', hout, -, hs'⟩
    · exact .inl hslots
    · exact .inr (.inl ⟨huniform, s', hout, assigned_of_converts hs'⟩)
  · refine .inr (.inr ⟨hnot, ?_⟩)
    simp only [outcome_reserve_of_pages hr hused, hfree]
    rfl

/-- A reservation of some bytes is refused as invalid, or it is one of the pages around them. -/
theorem reserve_cases_of_pos (start : Nat) {size : Nat} (hpos : 0 < size) (usage : Usage) :
    ((usage = .free ∨ Word.bound ≤ start + size + (Page.size - 1)) ∧
        (reserve start size usage).outcome s = (.error .invalidArgument, s)) ∨
      (usage ≠ .free ∧ start + size + (Page.size - 1) < Word.bound) ∧
        ∃ r, PagesAround start size r := by
  by_cases hfree : usage = .free
  · exact .inl ⟨.inl hfree, hfree ▸ outcome_reserve_of_free start size⟩
  · rcases Nat.lt_or_ge (start + size + (Page.size - 1)) Word.bound with hlt | hge
    · exact .inr ⟨⟨hfree, hlt⟩, PagesAround.exists_of_lt hpos hlt⟩
    · exact .inl ⟨.inr hge, outcome_reserve_of_overflow hge usage⟩

/-- In memory, where the difference is checked, a reservation ends with a fault only if the
slots run out. -/
theorem isExhaustion_of_fault_reserve {arena : Arena} {x : LinkedSpace}
    (hx : LinkedSpace.Reached arena x) (start : Nat) {size : Nat} (hpos : 0 < size)
    (usage : Usage) {f : Fault}
    (hf : ((LinkedSpace.reserve start size usage).outcome x).1 = .fault f) :
    ((LinkedSpace.reserve start size usage).outcome x).1.IsExhaustion := by
  obtain ⟨t, ht, hmirrors⟩ := hx.exists_mirrors
  rw [(hmirrors.reserve start size usage).verdict_eq] at hf ⊢
  rcases reserve_cases_of_pos (s := t) start hpos usage with ⟨-, hout⟩ | ⟨⟨hused, -⟩, r, hr⟩
  · rw [hout] at hf
    cases hf
  · rcases reserve_cases_of_pages ht.managed hr hused with
      ⟨slots, s', hout⟩ | ⟨-, s', hout, -⟩ | ⟨-, hout⟩
    · exact ⟨slots, by rw [hout]⟩
    · rw [hout] at hf
      cases hf
    · rw [hout] at hf
      cases hf

/-- What a reservation of pages comes to: they are taken if all of them are free. -/
structure Reserves (s : Space) (r : Range) (usage : Usage) (verdict : Verdict RequestError Unit)
    (s' : Space) : Prop where
  ok_iff : verdict = .ok () ↔ s.Uniform .free r
  assigned : verdict = .ok () → s.Assigned r usage s'
  refused : verdict ≠ .ok () → verdict = .error .notFound

/-- A reservation is refused as invalid exactly if it asks for free memory or the end of its
last page leaves the address range, whatever its start. Otherwise it takes the pages around its
bytes if all of them are free, and is refused as not found if not. A refused reservation
changes nothing, and no other step of computing the pages can go wrong. -/
theorem reservation_exact {arena : Arena} (hs : Reached arena s) (start size : Nat)
    (hsize : size ≠ 0) (usage : Usage) {reply : Reply Space RequestError Unit}
    (hreply : (reserve start size usage).run s = reply) (hslots : ¬ reply.verdict.IsExhaustion) :
    (∀ f, reply.verdict ≠ .fault f) ∧ (∀ e, reply.verdict = .error e → reply.state = s) ∧
    (reply.verdict = .error .invalidArgument ↔
      usage = .free ∨ Word.bound ≤ start + size + (Page.size - 1)) ∧
    (usage ≠ .free → start + size + (Page.size - 1) < Word.bound →
      ∃ r, PagesAround start size r ∧ s.Reserves r usage reply.verdict reply.state) ∧
    (∀ last, pageStop start size = .ok last → Page.roundDown start ≤ last ∧
      Page.roundUp? (last - Page.roundDown start) = some (last - Page.roundDown start)) ∧
    ∀ x, LinkedSpace.Reached arena x →
      ∀ f, ((LinkedSpace.reserve start size usage).outcome x).1 = .fault f →
        ((LinkedSpace.reserve start size usage).outcome x).1.IsExhaustion := by
  have hm : s.map.Managed fun _ => True := hs.managed
  have hpos : 0 < size := Nat.pos_of_ne_zero hsize
  subst hreply
  rw [Operation.verdict_run] at hslots ⊢
  rw [Operation.state_run, ← and_assoc, ← and_assoc, ← and_assoc]
  refine ⟨?_, fun last hlast => ?_,
    fun x hx f => isExhaustion_of_fault_reserve hx start hpos usage⟩
  · rcases reserve_cases_of_pos (s := s) start hpos usage with
      ⟨hbad, hout⟩ | ⟨⟨hused, hlt⟩, r, hr⟩
    · rw [hout]
      refine ⟨⟨⟨by simp, by simp⟩, iff_of_true rfl hbad⟩, fun hused hlt => ?_⟩
      rcases hbad with hfree | hge
      · exact absurd hfree hused
      · exact absurd hlt (Nat.not_lt.mpr hge)
    · have hgood : ¬ (usage = .free ∨ Word.bound ≤ start + size + (Page.size - 1)) :=
        not_or.mpr ⟨hused, Nat.not_le.mpr hlt⟩
      rcases reserve_cases_of_pages hm hr hused with
        ⟨slots, s', hout⟩ | ⟨huniform, s', hout, hs'⟩ | ⟨hnot, hout⟩
      · exact absurd ⟨slots, by rw [hout]⟩ hslots
      · rw [hout]
        refine ⟨⟨⟨by simp, by simp⟩, iff_of_false (by simp) hgood⟩, fun _ _ => ⟨r, hr, ?_⟩⟩
        exact ⟨iff_of_true rfl huniform, fun _ => hs', fun hne => absurd rfl hne⟩
      · rw [hout]
        refine ⟨⟨⟨by simp, by simp⟩, iff_of_false (by simp) hgood⟩, fun _ _ => ⟨r, hr, ?_⟩⟩
        exact ⟨iff_of_false (by simp) hnot, fun hok => (nomatch hok), fun _ => rfl⟩
  · have hround := pageStop_eq_ok hlast
    have hdown := Page.roundDown_le start
    have hle := (Page.roundUp?_spec hround).1
    let r : Range := ⟨Page.roundDown start, last, by omega, Page.roundUp?_lt_bound hround⟩
    have hr : PagesAround start size r := ⟨rfl, hround⟩
    obtain ⟨-, hstart, hdistance⟩ := hr.steps
    exact ⟨hstart, hdistance⟩

/-- The last pages that can be asked for: their end is the last page boundary there is. Bytes
up to that boundary are reserved from the middle of a page on. -/
theorem reservation_exact_at_last_boundary :
    let arena : Arena := ⟨.physical, Word.bound - 0x9000, 0x8000⟩
    let s := created arena
    let reply := (reserve (Word.bound - 0x2800) 0x1800 .inUse).run s
    reply.verdict = .ok () ∧ reply.state.map.usageAt? (Word.bound - 0x3000) = some .inUse ∧
      reply.state.map.usageAt? (Word.bound - 0x1001) = some .inUse ∧
      reply.state.map.usageAt? (Word.bound - 0x3001) = some .free := by
  intro arena s reply
  have hs : Reached arena s := reached_created (by decide) (by decide)
  have hok : reply.verdict = .ok () := by decide +kernel
  obtain ⟨-, -, -, hreserves, -⟩ := reservation_exact hs (Word.bound - 0x2800) 0x1800 (by decide)
    .inUse (show _ = reply from rfl) (Verdict.not_isExhaustion_of_ok hok)
  obtain ⟨r, hr, hr'⟩ := hreserves (by decide) (by decide)
  have hassigned := hr'.assigned hok
  have hstart : r.start = Word.bound - 0x3000 := hr.start_eq.trans (by decide)
  have hstop : r.stop = Word.bound - 0x1000 :=
    Option.some.inj (hr.stop_eq.symm.trans (by decide))
  have hin : ∀ a, r.contains a = true ↔ Word.bound - 0x3000 ≤ a ∧ a < Word.bound - 0x1000 :=
    fun a => hstart ▸ hstop ▸ Range.contains_iff
  refine ⟨hok, ?_, ?_, ?_⟩
  · rw [hassigned, if_pos ((hin _).mpr (by decide))]
  · rw [hassigned, if_pos ((hin _).mpr (by decide))]
  · rw [hassigned, if_neg (mt (hin _).mp (by decide))]
    decide +kernel

end Space

end KernelMemory
