import KernelMemory.Proofs.Space.Plan
import Mathlib.Algebra.BigOperators.Ring.List
import Mathlib.Algebra.Order.BigOperators.Group.List
import Mathlib.Algebra.Order.Group.Nat
import Mathlib.Data.List.Perm.Subperm

/-!
# Gathering from the largest extents

A gather allocation goes through the size classes from the largest down, so no extent is taken
while one of a larger class is left. Within a class it goes by listing, and the listing is by
time: the extent that was freed last comes first, whatever its length. Where the longer members
of every class happen to be listed first, the extents are taken in the order of their lengths,
and a greedy choice is a best one: no fewer extents are enough. Where they are not, an extent of
a class is still more than half as long as any other, so that fewer extents may be enough, but
not for twice the request.
-/

namespace KernelMemory

/-! ## Weights -/

/-- From a list that begins with the heaviest, no choice of as many is heavier than the front. -/
theorem sum_le_sum_take {α : Type} {weight : α → Nat} {l choice : List α} {k : Nat}
    (hl : l.Pairwise fun a b => weight b ≤ weight a) (hsub : choice.Sublist l)
    (hk : choice.length ≤ k) : (choice.map weight).sum ≤ ((l.take k).map weight).sum := by
  induction l generalizing choice k with
  | nil => simp [List.sublist_nil.mp hsub]
  | cons a l ih =>
      obtain ⟨hhead, htail⟩ := List.pairwise_cons.mp hl
      cases choice with
      | nil => simp
      | cons b choice =>
          obtain ⟨k, rfl⟩ : ∃ k', k = k' + 1 :=
            Nat.exists_eq_add_one.mpr (Nat.lt_of_lt_of_le (Nat.succ_pos _) hk)
          -- Whether it takes `a` or not, the rest of the choice is one from `l`.
          have hb : weight b ≤ weight a := by
            rcases List.mem_cons.mp (hsub.subset List.mem_cons_self) with rfl | hb
            · exact Nat.le_refl _
            · exact hhead b hb
          have hrest := ih htail hsub.tail (Nat.le_of_succ_le_succ hk)
          simpa using Nat.add_le_add hb hrest

/-- What an extent of a class has at least, if it has a page. -/
def classLength (length : Nat) : Nat :=
  2 ^ sizeClass length * Page.size

theorem length_lt_two_mul_classLength (length : Nat) : length < 2 * classLength length := by
  have hlog := Nat.lt_log2_self (n := length / Page.size)
  have hlt := (Nat.div_lt_iff_lt_mul Page.size_pos).mp hlog
  rwa [Nat.pow_succ, Nat.mul_comm (2 ^ _) 2, Nat.mul_assoc] at hlt

theorem classLength_le {length : Nat} (h : Page.size ≤ length) : classLength length ≤ length := by
  have hpages : length / Page.size ≠ 0 := (Nat.div_pos h Page.size_pos).ne'
  calc classLength length
      ≤ length / Page.size * Page.size := Nat.mul_le_mul_right _ (Nat.log2_self_le hpages)
    _ ≤ length := Nat.div_mul_le_self _ _

theorem classLength_le_of_sizeClass_le {m n : Nat} (h : sizeClass m ≤ sizeClass n) :
    classLength m ≤ classLength n :=
  Nat.mul_le_mul_right _ (Nat.pow_le_pow_right (by decide) h)

namespace Gathering

/-! ## The plan -/

/-- While a plan goes on the request is not covered. -/
theorem sum_take_lt_of_lt_plan {l : List Extent} {size k : Nat}
    (hk : k < (plan l size).length) : ((l.take k).map Extent.length).sum < size := by
  induction l generalizing size k with
  | nil => simp [plan] at hk
  | cons e rest ih =>
      cases size with
      | zero => simp [plan] at hk
      | succ size =>
          cases k with
          | zero => simp
          | succ k =>
              rw [plan] at hk
              split at hk
              · simp at hk
              · have hrest := ih (Nat.lt_of_succ_lt_succ hk)
                rw [List.take_succ_cons, List.map_cons, List.sum_cons]
                omega

/-- The classes come from the largest down. -/
theorem pairwise_candidates {m : ExtentMap} (h : m.Sound) {R : Extent → Extent → Prop}
    (hclass : ∀ index < SizeClasses.count, (m.members index).Pairwise fun p q => R p.2 q.2)
    (hclasses : ∀ e f : Extent, sizeClass f.length < sizeClass e.length → R e f) :
    (candidates m).Pairwise R := by
  refine List.pairwise_map.mpr (List.pairwise_flatMap.mpr ⟨fun index hindex => ?_, ?_⟩)
  · exact hclass index (List.mem_range.mp (List.mem_reverse.mp hindex))
  · refine List.pairwise_reverse.mpr (List.pairwise_lt_range.imp ?_)
    intro i j hlt p hp q hq
    refine hclasses p.2 q.2 ?_
    rwa [h.sizeClass_of_mem_members hp, h.sizeClass_of_mem_members hq]

theorem pairwise_sizeClass_candidates {m : ExtentMap} (h : m.Sound) :
    (candidates m).Pairwise fun e f => sizeClass f.length ≤ sizeClass e.length := by
  refine pairwise_candidates h (fun index _ => ?_) fun _ _ => Nat.le_of_lt
  refine List.pairwise_of_forall_mem_list fun p hp q hq => Nat.le_of_eq ?_
  rw [h.sizeClass_of_mem_members hp, h.sizeClass_of_mem_members hq]

theorem mem_candidates_iff {m : ExtentMap} (h : m.Sound) {e : Extent} :
    e ∈ candidates m ↔ e ∈ m.extents ∧ e.usage = .free := by
  rw [(candidates_perm h).mem_iff, List.mem_filter, decide_eq_true_eq]

theorem nodup_candidates {m : ExtentMap} (h : m.Sound) : (candidates m).Nodup := by
  refine (candidates_spec h).1.imp ?_
  rintro e _ hapart rfl
  have hcontains : e.range.contains e.start = true :=
    Range.contains_iff.mpr ⟨Nat.le_refl _, e.start_lt_stop⟩
  exact Bool.false_ne_true ((hapart.not_contains hcontains).symm.trans hcontains)

end Gathering

namespace Space

open Gathering (candidates plan)

variable {s : Space}

/-- Free extents of the space, each once. -/
structure Choice (s : Space) (choice : List Extent) : Prop where
  nodup : choice.Nodup
  free : ∀ e ∈ choice, e ∈ s.map.extents ∧ e.usage = .free

/-- No choice of `k` free extents is enough for `size` bytes. -/
def TooFew (s : Space) (k size : Nat) : Prop :=
  ∀ choice, s.Choice choice → choice.length ≤ k → (choice.map Extent.length).sum < size

/-- Every size class lists its longer members first. -/
def LongestFirst (s : Space) : Prop :=
  ∀ index < SizeClasses.count,
    (s.map.members index).Pairwise fun p q => q.2.length ≤ p.2.length

instance (s : Space) : Decidable s.LongestFirst :=
  inferInstanceAs (Decidable (∀ index < SizeClasses.count,
    (s.map.members index).Pairwise fun p q => q.2.length ≤ p.2.length))

/-- The pieces lie in these free extents, one in each from its start on. No extent is taken
before one of a larger class. -/
structure DrawnFrom (s : Space) (pieces : List Range) (sources : List Extent) : Prop where
  choice : s.Choice sources
  pieces : List.Forall₂ (fun piece e => piece.start = e.start ∧ e.range.encloses piece = true)
    pieces sources
  classes : sources.Pairwise fun e f => sizeClass f.length ≤ sizeClass e.length
  left : ∀ f ∈ s.map.extents, f.usage = .free → f ∉ sources →
    ∀ e ∈ sources, sizeClass f.length ≤ sizeClass e.length

theorem choice_iff (hm : s.map.Sound) {choice : List Extent} :
    s.Choice choice ↔ choice.Nodup ∧ choice ⊆ candidates s.map := by
  constructor
  · exact fun h => ⟨h.nodup, fun e he => (Gathering.mem_candidates_iff hm).mpr (h.free e he)⟩
  · rintro ⟨hnodup, hsub⟩
    exact ⟨hnodup, fun e he => (Gathering.mem_candidates_iff hm).mp (hsub he)⟩

/-- No choice of candidates is heavier than as many of them from the front. -/
theorem Choice.sum_le {weight : Extent → Nat} {choice : List Extent} (h : s.Choice choice)
    (hm : s.map.Sound) {k : Nat} (hk : choice.length ≤ k)
    (hsorted : (candidates s.map).Pairwise fun e f => weight f ≤ weight e) :
    (choice.map weight).sum ≤ (((candidates s.map).take k).map weight).sum := by
  obtain ⟨hnodup, hsub⟩ := (choice_iff hm).mp h
  obtain ⟨choice', hperm, hsublist⟩ := List.subperm_of_subset hnodup hsub
  rw [← (hperm.map weight).sum_nat]
  exact sum_le_sum_take hsorted hsublist (hperm.length_eq ▸ hk)

theorem drawnFrom_plan (hm : s.map.Sound) (size : Nat) :
    s.DrawnFrom (plan (candidates s.map) size)
      ((candidates s.map).take (plan (candidates s.map) size).length) := by
  have hclasses := Gathering.pairwise_sizeClass_candidates hm
  have htake := List.take_sublist (plan (candidates s.map) size).length (candidates s.map)
  have hnodup := (Gathering.nodup_candidates hm).sublist htake
  refine ⟨(choice_iff hm).mpr ⟨hnodup, htake.subset⟩, Gathering.forall₂_plan _ _,
    hclasses.sublist htake, ?_⟩
  intro f hf hfree hleft e he
  have hmem := (Gathering.mem_candidates_iff hm).mpr ⟨hf, hfree⟩
  rw [← List.take_append_drop (plan (candidates s.map) size).length (candidates s.map)]
    at hmem hclasses
  have hdrop := (List.mem_append.mp hmem).resolve_left hleft
  exact (List.pairwise_append.mp hclasses).2.2 e he f hdrop

/-! ## How many extents it takes -/

theorem LongestFirst.pairwise_candidates (h : s.LongestFirst) (hm : s.map.Sound) :
    (candidates s.map).Pairwise fun e f => f.length ≤ e.length := by
  refine Gathering.pairwise_candidates hm h fun e f hlt => ?_
  exact Nat.le_of_not_le fun hle => Nat.not_le.mpr hlt (sizeClass_mono hle)

/-- As long as the plan has not come to its end, no other choice of as many extents has
covered the request. -/
theorem LongestFirst.tooFew (h : s.LongestFirst) (hm : s.map.Sound) {k size : Nat}
    (hk : k < (plan (candidates s.map) size).length) : s.TooFew k size :=
  fun choice hchoice hlength =>
    calc (choice.map Extent.length).sum
      _ ≤ (((candidates s.map).take k).map Extent.length).sum :=
        hchoice.sum_le hm hlength (h.pairwise_candidates hm)
      _ < size := Gathering.sum_take_lt_of_lt_plan hk

/-- By class alone, the order of the extents loses less than a factor of two. -/
theorem tooFew_twice (hm : s.map.Sound)
    (hpages : ∀ e ∈ s.map.extents, e.usage = .free → Page.size ≤ e.length) {k size : Nat}
    (hk : k < (plan (candidates s.map) size).length) :
    s.TooFew k (2 * size) := by
  intro choice hchoice hlength
  have hfront : ∀ e ∈ (candidates s.map).take k,
      2 * classLength e.length ≤ 2 * e.length := by
    intro e he
    obtain ⟨hmem, hfree⟩ := (Gathering.mem_candidates_iff hm).mp (List.mem_of_mem_take he)
    exact Nat.mul_le_mul_left 2 (classLength_le (hpages e hmem hfree))
  calc (choice.map Extent.length).sum
    _ ≤ (choice.map fun e => 2 * classLength e.length).sum :=
      List.sum_le_sum fun e _ => Nat.le_of_lt (length_lt_two_mul_classLength e.length)
    _ ≤ (((candidates s.map).take k).map fun e => 2 * classLength e.length).sum :=
      hchoice.sum_le hm hlength ((Gathering.pairwise_sizeClass_candidates hm).imp fun hle =>
        Nat.mul_le_mul_left 2 (classLength_le_of_sizeClass_le hle))
    _ ≤ (((candidates s.map).take k).map fun e => 2 * e.length).sum :=
      List.sum_le_sum hfront
    _ = 2 * (((candidates s.map).take k).map Extent.length).sum :=
      List.sum_map_mul_left _ _ _
    _ < 2 * size := Nat.mul_lt_mul_of_pos_left (Gathering.sum_take_lt_of_lt_plan hk) (by decide)

/-- The extents are taken by class from the largest down. If every class lists its longer members
first, they are taken in the order of their lengths, the buffer is too small only if no choice
of as many free extents is enough for the request, and no choice of fewer extents than were
taken would have been. Whatever the listing, no such choice is enough for twice the request, if
no free extent is shorter than a page. -/
theorem gathers_largest_first {arena : Arena} (hs : Reached arena s) {size S : Nat}
    (hsize : size ≠ 0) (hround : Page.roundUp? size = some S) {usage : Usage}
    (hused : usage ≠ .free) (buffer : List Range) {reply : Reply Gathering RequestError Nat}
    (hreply : (Gathering.allocate size usage).run ⟨s, buffer⟩ = reply)
    (hslots : ¬ reply.verdict.IsExhaustion) :
    (∀ capacity, reply.verdict = .error (.bufferTooSmall capacity) →
      capacity = buffer.length ∧ S ≤ s.bytesOf .free ∧
      (s.LongestFirst → s.TooFew capacity S) ∧
      ((∀ e ∈ s.map.extents, e.usage = .free → Page.size ≤ e.length) →
        s.TooFew capacity (2 * S))) ∧
    (∀ count, reply.verdict = .ok count → ∃ sources, sources.length = count ∧
      s.DrawnFrom (reply.state.buffer.take count) sources ∧
      (s.LongestFirst → sources.Pairwise (fun e f => f.length ≤ e.length) ∧
        ∀ k < count, s.TooFew k S) ∧
      ((∀ e ∈ s.map.extents, e.usage = .free → Page.size ≤ e.length) →
        ∀ k < count, s.TooFew k (2 * S))) := by
  have hm : s.map.Managed fun _ => True := hs.managed
  have hpages := pages_eq_ok_iff.mpr ⟨hsize, hused, hround⟩
  subst hreply
  rw [Operation.verdict_run] at hslots ⊢
  rw [Operation.state_run]
  rcases Nat.lt_or_ge (s.bytesOf .free) S with hscarce | henough
  · rw [Gathering.outcome_allocate_of_scarce (g := ⟨s, buffer⟩) hpages hscarce]
    exact ⟨nofun, nofun⟩
  · rcases Gathering.allocate_cases_of_enough (g := ⟨s, buffer⟩) hm hpages henough
      (fun _ _ => ⟨trivial, trivial⟩) with
      ⟨g', hout, -, hsmall⟩ | ⟨slots, g', hout⟩ | ⟨g', hout, htaken, -⟩
    · rw [hout]
      refine ⟨?_, nofun⟩
      rintro _ ⟨⟩
      exact ⟨rfl, henough, fun hlongest => hlongest.tooFew hm.sound hsmall,
        fun hpage => tooFew_twice hm.sound hpage hsmall⟩
    · exact absurd ⟨slots, by rw [hout]⟩ hslots
    · rw [hout]
      refine ⟨nofun, ?_⟩
      rintro _ ⟨⟩
      dsimp only
      rw [htaken]
      refine ⟨_, List.length_take_of_le (Gathering.length_plan_le _ S),
        drawnFrom_plan hm.sound S, fun hlongest => ⟨?_, ?_⟩, ?_⟩
      · exact (hlongest.pairwise_candidates hm.sound).sublist (List.take_sublist _ _)
      · exact fun k hk => hlongest.tooFew hm.sound hk
      · exact fun hpage k hk => tooFew_twice hm.sound hpage hk

/-- Five pages on one side of a page in use and two on the other are of different classes. Six
pages are gathered from the five and one of the two. -/
theorem gathers_largest_first_around_page :
    let arena : Arena := ⟨.physical, 0x1000, 0x8000⟩
    let s := ((Call.reserve 0x3000 0x1000 .inUse).perform.run ⟨created arena, []⟩).state.space
    let buffer : List Range := [⟨1, 2, by decide, by decide⟩, ⟨1, 2, by decide, by decide⟩]
    let reply := (Gathering.allocate 0x6000 .inUse).run ⟨s, buffer⟩
    s.LongestFirst ∧ reply.verdict = .ok 2 ∧ s.TooFew 1 0x6000 ∧
      ∃ sources, s.DrawnFrom (reply.state.buffer.take 2) sources ∧
        sources.Pairwise fun e f => f.length ≤ e.length := by
  intro arena s buffer reply
  have hreserve : ((Call.reserve 0x3000 0x1000 .inUse).perform.run
    ⟨created arena, []⟩).verdict = .ok () := by decide
  have hs : Reached arena s :=
    (reached_created (by decide) (by decide)).step (.reserve 0x3000 0x1000 .inUse) []
      (Verdict.not_isExhaustion_of_ok hreserve)
  have hlongest : s.LongestFirst := by decide +kernel
  have hok : reply.verdict = .ok 2 := by decide +kernel
  have hround : Page.roundUp? 0x6000 = some 0x6000 := by decide
  have hused : Usage.inUse ≠ .free := by decide
  obtain ⟨-, hgathered⟩ := gathers_largest_first hs (by decide) hround hused buffer
    (show _ = reply from rfl) (Verdict.not_isExhaustion_of_ok hok)
  obtain ⟨sources, -, hdrawn, hlengths, -⟩ := hgathered 2 hok
  obtain ⟨hsorted, hfew⟩ := hlengths hlongest
  exact ⟨hlongest, hok, hfew 1 (by decide), sources, hdrawn, hsorted⟩

/-- Three pages are free, and after a page in use two more, which were listed later. They are of
one class. Three pages are gathered from the two and one of the three, and one place is not
enough for what one extent could have held. -/
theorem gathers_latest_first_in_class :
    let arena : Arena := ⟨.physical, 0x1000, 0x6000⟩
    let s := ((Call.reserve 0x4000 0x1000 .inUse).perform.run ⟨created arena, []⟩).state.space
    let place : Range := ⟨1, 2, by decide, by decide⟩
    let reply := (Gathering.allocate 0x3000 .inUse).run ⟨s, [place, place]⟩
    Reached arena s ∧
      s.map.extents.map (fun e => (e.start, e.stop, e.usage)) =
        [(0x1000, 0x4000, .free), (0x4000, 0x5000, .inUse), (0x5000, 0x7000, .free)] ∧
      ((Gathering.allocate 0x3000 .inUse).run ⟨s, [place]⟩).verdict =
        .error (.bufferTooSmall 1) ∧
      reply.verdict = .ok 2 ∧
      (reply.state.buffer.take 2).map (fun r => (r.start, r.stop)) =
        [(0x5000, 0x7000), (0x1000, 0x2000)] ∧
      ¬ s.TooFew 1 0x3000 := by
  intro arena s place reply
  have hreserve : ((Call.reserve 0x4000 0x1000 .inUse).perform.run
    ⟨created arena, []⟩).verdict = .ok () := by decide
  have hs : Reached arena s :=
    (reached_created (by decide) (by decide)).step (.reserve 0x4000 0x1000 .inUse) []
      (Verdict.not_isExhaustion_of_ok hreserve)
  have hlargest : ∃ e ∈ s.map.extents, e.usage = .free ∧ e.length = 0x3000 := by decide +kernel
  refine ⟨hs, by decide +kernel, by decide +kernel, by decide +kernel, by decide +kernel, ?_⟩
  intro hfew
  obtain ⟨e, he, hfree, hlength⟩ := hlargest
  have hlt := hfew [e] ⟨List.nodup_singleton e, by simpa using ⟨he, hfree⟩⟩ (Nat.le_refl 1)
  simp [hlength] at hlt

end Space

end KernelMemory
