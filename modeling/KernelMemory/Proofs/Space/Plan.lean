import KernelMemory.Proofs.Space.Run

/-!
# Exact gathering

The plan of a gather allocation goes through the free extents as they are listed and takes
every one whole until the request is covered; the last is cut. So the pieces are as long as
the request if there is enough free memory in the listing, and the listing has all of it. No
piece can be lost while the pieces are taken one by one, although taking one changes extents
and listings: the addresses of the others stay free.
-/

namespace KernelMemory

namespace Gathering

/-! ## The candidates -/

/-- The free extents with their handles, in the order in which they are taken. -/
def sources (m : ExtentMap) : List (Handle × Extent) :=
  (List.range SizeClasses.count).reverse.flatMap m.members

theorem candidates_eq (m : ExtentMap) : candidates m = (sources m).map Prod.snd := rfl

theorem nodup_toList {m : ExtentMap} (h : m.Sound) : m.toList.Nodup :=
  List.Nodup.of_map Prod.fst h.index.nodup

/-- The listing has every free extent, once. -/
theorem sources_perm {m : ExtentMap} (h : m.Sound) :
    (sources m).Perm (m.toList.filter (·.2.usage = .free)) := by
  refine (List.perm_ext_iff_of_nodup (nodup_classes h) ((nodup_toList h).filter _)).mpr ?_
  intro p
  rw [mem_classes_iff h, List.mem_filter, decide_eq_true_eq]

theorem candidates_perm {m : ExtentMap} (h : m.Sound) :
    (candidates m).Perm (m.extents.filter (·.usage = .free)) := by
  rw [candidates_eq, ExtentMap.extents, List.filter_map]
  exact (sources_perm h).map Prod.snd

theorem total_candidates {m : ExtentMap} (h : m.Sound) :
    ((candidates m).map Extent.length).sum = m.bytesOf .free :=
  ((candidates_perm h).map Extent.length).sum_nat

/-! ## The pieces -/

theorem length_plan_le (l : List Extent) (size : Nat) : (plan l size).length ≤ l.length := by
  induction l generalizing size with
  | nil => simp [plan]
  | cons e rest ih =>
      cases size with
      | zero => simp [plan]
      | succ size =>
          rw [plan]
          split
          · simp
          · simpa using ih _

/-- The pieces of a plan make up the request, if the extents do. -/
theorem total_plan {l : List Extent} {size : Nat} (h : size ≤ (l.map Extent.length).sum) :
    ((plan l size).map Range.length).sum = size := by
  induction l generalizing size with
  | nil => simpa [plan, eq_comm] using h
  | cons e rest ih =>
      cases size with
      | zero => simp [plan]
      | succ size =>
          rw [List.map_cons, List.sum_cons] at h
          rw [plan]
          split
          · next hcut =>
            simp only [List.map_singleton, List.sum_singleton, Range.length, Range.takeTo,
              Extent.start]
            omega
          · next hwhole =>
            rw [List.map_cons, List.sum_cons, ih (by omega)]
            show e.length + _ = _
            omega

/-- Piece by piece, a plan starts where the extents start and stays inside them. -/
theorem forall₂_plan (l : List Extent) (size : Nat) :
    List.Forall₂ (fun r e => r.start = e.start ∧ e.range.encloses r = true) (plan l size)
      (l.take (plan l size).length) := by
  induction l generalizing size with
  | nil => simp [plan]
  | cons e rest ih =>
      cases size with
      | zero => simp [plan]
      | succ size =>
          rw [plan]
          split
          · next hcut =>
            refine .cons ⟨rfl, Range.encloses_iff.mpr ⟨Nat.le_refl _, ?_⟩⟩ .nil
            simp only [Extent.length, Range.length] at hcut
            simp only [Range.takeTo, Extent.start]
            omega
          · exact .cons ⟨rfl, Range.encloses_iff.mpr ⟨Nat.le_refl _, Nat.le_refl _⟩⟩ (ih _)

/-- All pieces but the last are whole extents. -/
theorem dropLast_plan (l : List Extent) (size : Nat) :
    (plan l size).dropLast = (l.take (plan l size).length).dropLast.map Extent.range := by
  induction l generalizing size with
  | nil => simp [plan]
  | cons e rest ih =>
      cases size with
      | zero => simp [plan]
      | succ size =>
          rw [plan]
          split
          · rfl
          · have ih := ih (size + 1 - e.length)
            cases hplan : plan rest (size + 1 - e.length) with
            | nil => simp
            | cons r pieces =>
                rw [hplan] at ih
                cases rest with
                | nil => simp [plan] at hplan
                | cons f rest => simpa using ih

end Gathering

namespace Space

theorem pages_eq_error_iff {size : Nat} {usage : Usage} {e : RequestError} :
    Space.pages size usage = .error e ↔ e = .invalidArgument ∧
      (size = 0 ∨ usage = .free ∨ Word.bound ≤ size + (Page.size - 1)) := by
  have hfree : usage.isFree = true ↔ usage = .free := beq_iff_eq
  unfold Space.pages
  split
  · next h =>
    rw [hfree] at h
    have hbad : size = 0 ∨ usage = .free ∨ Word.bound ≤ size + (Page.size - 1) :=
      h.imp_right .inl
    simp [eq_comm, hbad]
  · next h =>
    rw [hfree, not_or] at h
    cases hround : Page.roundUp? size with
    | some S =>
        have hlt := (Word.roundUp?_eq_some_iff.mp hround).2
        simp [h.1, h.2, hlt]
    | none =>
        have hle := Page.roundUp?_eq_none_iff.mp hround
        simp [eq_comm, hle]

theorem pages_eq_ok_iff {size S : Nat} {usage : Usage} :
    Space.pages size usage = .ok S ↔ size ≠ 0 ∧ usage ≠ .free ∧ Page.roundUp? size = some S := by
  refine ⟨pages_eq_ok, ?_⟩
  rintro ⟨hsize, hused, hround⟩
  cases hpages : Space.pages size usage with
  | error e =>
      have hlt := (Word.roundUp?_eq_some_iff.mp hround).2
      rcases (pages_eq_error_iff.mp hpages).2 with hzero | hfree | hle
      · exact absurd hzero hsize
      · exact absurd hfree hused
      · exact absurd hlt (Nat.not_lt.mpr hle)
  | ok S' =>
      obtain ⟨-, -, hround'⟩ := pages_eq_ok hpages
      rw [Option.some.inj (hround.symm.trans hround')]

/-- The pieces are `S` bytes in all. They lie in extents that were free, one in each from its
start on, and all but the last are whole extents. The addresses of the pieces, and no
others, have got the usage. -/
structure Gathered (s : Space) (S : Nat) (usage : Usage) (pieces : List Range) (s' : Space) :
    Prop where
  apart : pieces.Pairwise Range.Apart
  total : (pieces.map Range.length).sum = S
  sources : ∃ sources : List (Handle × Extent), sources.Nodup ∧
    (∀ p ∈ sources, p ∈ s.map.toList ∧ p.2.usage = .free) ∧
    List.Forall₂ (fun piece p => piece.start = p.2.start ∧ p.2.range.encloses piece = true)
      pieces sources ∧
    pieces.dropLast = sources.dropLast.map fun p => p.2.range
  was_free : ∀ piece ∈ pieces, ∀ address, piece.contains address = true →
    s.map.usageAt? address = some .free
  usageAt?_eq : ∀ address, s'.map.usageAt? address =
    if pieces.any (·.contains address) then some usage else s.map.usageAt? address

/-- A plan needs no more pieces than there are free extents. -/
theorem length_plan_le_free {m : ExtentMap} (h : m.Sound) (size : Nat) :
    (Gathering.plan (Gathering.candidates m) size).length ≤
      (m.extents.filter (·.usage = .free)).length := by
  rw [← (Gathering.candidates_perm h).length_eq]
  exact Gathering.length_plan_le _ size

theorem gathered_plan {D : Nat → Prop} {s s' : Space} {S : Nat} {usage : Usage}
    (hm : s.map.Managed D) (henough : S ≤ s.bytesOf .free)
    (hconverts : s.map.Converts D (Gathering.plan (Gathering.candidates s.map) S) usage s'.map) :
    s.Gathered S usage (Gathering.plan (Gathering.candidates s.map) S) s' where
  apart := Gathering.pairwise_plan (Gathering.candidates_spec hm.sound).1 S
  total := Gathering.total_plan ((Gathering.total_candidates hm.sound).symm ▸ henough)
  sources := by
    refine ⟨(Gathering.sources s.map).take
      (Gathering.plan (Gathering.candidates s.map) S).length,
      (Gathering.nodup_classes hm.sound).sublist (List.take_sublist _ _), ?_, ?_, ?_⟩
    · intro p hp
      exact (Gathering.mem_classes_iff hm.sound).mp (List.mem_of_mem_take hp)
    · have hstarts := Gathering.forall₂_plan (Gathering.candidates s.map) S
      rw [Gathering.candidates_eq, ← List.map_take, List.forall₂_map_right_iff] at hstarts
      exact hstarts
    · rw [Gathering.dropLast_plan]
      conv_lhs => rw [Gathering.candidates_eq, ← List.map_take, ← List.map_dropLast]
      rw [List.map_map]
      rfl
  was_free _ hr _ hin := Gathering.free_of_mem_plan hm.sound hr hin
  usageAt?_eq := hconverts.usageAt?_eq

/-- A request of whole pages is refused for lack of free memory or for lack of places, or it
is met. -/
theorem gather_cases {s : Space} (hm : s.map.Managed fun _ => True) {size S : Nat}
    {usage : Usage} (hpages : Space.pages size usage = .ok S) (buffer : List Range)
    (hslots : ¬ ((Gathering.allocate size usage).outcome ⟨s, buffer⟩).1.IsExhaustion) :
    (s.bytesOf .free < S ∧ (Gathering.allocate size usage).outcome ⟨s, buffer⟩ =
      (.error (.insufficientMemory S (s.bytesOf .free)), ⟨s, buffer⟩)) ∨
    S ≤ s.bytesOf .free ∧
      ((∃ g', (Gathering.allocate size usage).outcome ⟨s, buffer⟩ =
          (.error (.bufferTooSmall buffer.length), g') ∧ g'.space = s ∧
          buffer.length < (s.map.extents.filter (·.usage = .free)).length) ∨
        ∃ count g', (Gathering.allocate size usage).outcome ⟨s, buffer⟩ = (.ok count, g') ∧
          (g'.buffer.take count).length = count ∧
          s.Gathered S usage (g'.buffer.take count) g'.space) := by
  rcases Nat.lt_or_ge (s.bytesOf .free) S with hscarce | henough
  · exact .inl ⟨hscarce, Gathering.outcome_allocate_of_scarce (g := ⟨s, buffer⟩) hpages hscarce⟩
  · refine .inr ⟨henough, ?_⟩
    rcases Gathering.allocate_cases_of_enough (g := ⟨s, buffer⟩) hm hpages henough
      (fun _ _ => ⟨trivial, trivial⟩) with
      ⟨g', hout, hsame, hsmall⟩ | ⟨slots, g', hout⟩ | ⟨g', hout, htaken, hg'⟩
    · exact .inl ⟨g', hout, hsame, Nat.lt_of_lt_of_le hsmall (length_plan_le_free hm.sound S)⟩
    · exact absurd ⟨slots, by rw [hout]⟩ hslots
    · refine .inr ⟨_, g', hout, congrArg List.length htaken, ?_⟩
      rw [htaken]
      exact gathered_plan hm henough hg'

/-- A gather allocation is refused as invalid only if nothing or free memory is asked for or
the size overflows when it is rounded to pages, and then as insufficient exactly if all the
free memory there is does not suffice, with the two amounts. Otherwise the buffer is too
small, and then there are more free extents than it has places, or the answered number of
pieces at the front of the buffer has been gathered. No fault ends the call: no piece
vanishes. -/
theorem gather_exact {arena : Arena} {s : Space} (hs : Reached arena s) (size : Nat)
    (usage : Usage) (buffer : List Range) {reply : Reply Gathering RequestError Nat}
    (hreply : (Gathering.allocate size usage).run ⟨s, buffer⟩ = reply)
    (hslots : ¬ reply.verdict.IsExhaustion) :
    (∀ f, reply.verdict ≠ .fault f) ∧
    (reply.verdict = .error .invalidArgument ↔
      size = 0 ∨ usage = .free ∨ Word.bound ≤ size + (Page.size - 1)) ∧
    ∀ S available, size ≠ 0 → usage ≠ .free → Page.roundUp? size = some S →
      ((s.map.extents.filter (·.usage = .free)).map Extent.length).sum = available →
      (∀ requested found, reply.verdict = .error (.insufficientMemory requested found) ↔
        requested = S ∧ found = available ∧ available < S) ∧
      (S ≤ available →
        reply.verdict = .error (.bufferTooSmall buffer.length) ∧ reply.state.space = s ∧
            buffer.length < (s.map.extents.filter (·.usage = .free)).length ∨
          ∃ count, reply.verdict = .ok count ∧ (reply.state.buffer.take count).length = count ∧
            s.Gathered S usage (reply.state.buffer.take count) reply.state.space) := by
  have hm : s.map.Managed fun _ => True := hs.managed
  subst hreply
  rw [Operation.verdict_run] at hslots ⊢
  rw [Operation.state_run]
  cases hpages : Space.pages size usage with
  | error e =>
      obtain ⟨rfl, hbad⟩ := pages_eq_error_iff.mp hpages
      have hout : (Gathering.allocate size usage).outcome ⟨s, buffer⟩ =
          (.error .invalidArgument, ⟨s, buffer⟩) := by
        rw [Gathering.allocate, hpages]
        rfl
      rw [hout]
      refine ⟨by simp, iff_of_true rfl hbad, ?_⟩
      intro S available hsize hused hround
      have hok := pages_eq_ok_iff.mpr ⟨hsize, hused, hround⟩
      rw [hpages] at hok
      cases hok
  | ok S =>
      obtain ⟨hsize, hused, hround⟩ := pages_eq_ok_iff.mp hpages
      have hgood : ¬ (size = 0 ∨ usage = .free ∨ Word.bound ≤ size + (Page.size - 1)) := by
        intro hbad
        rw [pages_eq_error_iff.mpr ⟨rfl, hbad⟩] at hpages
        cases hpages
      have hsame : ∀ S', Page.roundUp? size = some S' → S' = S := fun S' hround' =>
        Option.some.inj (hround'.symm.trans hround)
      rcases gather_cases hm hpages buffer hslots with
        ⟨hscarce, hout⟩ | ⟨henough, ⟨g', hout, hspace, hsmall⟩ | ⟨count, g', hout, hcount, hg'⟩⟩
      · rw [hout]
        refine ⟨by simp, iff_of_false (by simp) hgood, ?_⟩
        rintro S' available - - hround' (rfl : s.bytesOf .free = available)
        obtain rfl := hsame S' hround'
        refine ⟨?_, fun henough => absurd hscarce (Nat.not_lt.mpr henough)⟩
        intro requested found
        simp only [Verdict.error.injEq, RequestError.insufficientMemory.injEq]
        exact ⟨fun h => ⟨h.1.symm, h.2.symm, hscarce⟩, fun h => ⟨h.1.symm, h.2.1.symm⟩⟩
      · rw [hout]
        refine ⟨by simp, iff_of_false (by simp) hgood, ?_⟩
        rintro S' available - - hround' (rfl : s.bytesOf .free = available)
        obtain rfl := hsame S' hround'
        refine ⟨fun requested found => iff_of_false (by simp) fun h => ?_, fun _ => ?_⟩
        · exact absurd h.2.2 (Nat.not_lt.mpr henough)
        · exact .inl ⟨rfl, hspace, hsmall⟩
      · rw [hout]
        refine ⟨by simp, iff_of_false (by simp) hgood, ?_⟩
        rintro S' available - - hround' (rfl : s.bytesOf .free = available)
        obtain rfl := hsame S' hround'
        refine ⟨fun requested found => iff_of_false (by simp) fun h => ?_, fun _ => ?_⟩
        · exact absurd h.2.2 (Nat.not_lt.mpr henough)
        · exact .inr ⟨count, rfl, hcount, hg'⟩

/-- A page in use parts the free memory of an arena. Six pages fit on neither side of it,
and are gathered from both. -/
theorem gather_exact_around_page :
    let arena : Arena := ⟨.physical, 0x1000, 0x8000⟩
    let s := ((Call.reserve 0x3000 0x1000 .inUse).perform.run ⟨created arena, []⟩).state.space
    let buffer : List Range :=
      [⟨1, 2, by decide, by decide⟩, ⟨1, 2, by decide, by decide⟩, ⟨1, 2, by decide, by decide⟩]
    let reply := (Gathering.allocate 0x5800 .inUse).run ⟨s, buffer⟩
    ∃ count, reply.verdict = .ok count ∧
      ((reply.state.buffer.take count).map Range.length).sum = 0x6000 ∧
      s.Gathered 0x6000 .inUse (reply.state.buffer.take count) reply.state.space := by
  intro arena s buffer reply
  obtain ⟨_, hregion, -⟩ := Range.ofLength_eq_ok (show 0 < 0x8000 by decide)
    (show 0x1000 + 0x8000 < Word.bound by decide)
  have hreserve : ((Call.reserve 0x3000 0x1000 .inUse).perform.run
    ⟨created arena, []⟩).verdict = .ok () := by decide
  have hs : Reached arena s :=
    (Reached.create 0 (verdict_create hregion)).step (.reserve 0x3000 0x1000 .inUse) []
      fun ⟨_, h⟩ => nomatch hreserve.symm.trans h
  have hgather : reply.verdict = .ok 2 := by decide +kernel
  have hslots : ¬ reply.verdict.IsExhaustion := fun ⟨_, h⟩ => nomatch hgather.symm.trans h
  obtain ⟨-, -, hexact⟩ := gather_exact hs 0x5800 .inUse buffer (show _ = reply from rfl) hslots
  obtain ⟨-, hcover⟩ := hexact 0x6000 0x7000 (by decide) (by decide) (by decide)
    (by decide +kernel)
  rcases hcover (by decide) with ⟨hsmall, -⟩ | ⟨count, hcount, -, hgathered⟩
  · exact nomatch hgather.symm.trans hsmall
  · exact ⟨count, hcount, hgathered.total, hgathered⟩

end Space

end KernelMemory
