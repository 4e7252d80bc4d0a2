import KernelMemory.Extent.Search
import KernelMemory.Proofs.Checks
import KernelMemory.Proofs.Extent.Audit
import KernelMemory.Proofs.Extent.Mutation
import Mathlib.Data.List.Induction
import Mathlib.Data.Nat.Log

/-!
# Searches against scans

A search never looks at more than it has to: one descent of the tree for an address, a few
size classes for free memory. What it answers is stated here in terms of the plain sequence
of extents. By address the answer is determined, since no two extents share one. By size
there may be several that fit, and the search names one that no other is preferred to.

The one step with an argument is the start of the walk through the size classes. A free
extent of at least `n` bytes is in the class of `n` or in a later one, because a logarithm
does not fall, so nothing is missed below. In the class of `n` itself some members may be too
short, so each is still compared with `n`.
-/

namespace KernelMemory

theorem sizeClass_mono {a b : Nat} (h : a ≤ b) : sizeClass a ≤ sizeClass b := by
  rw [sizeClass, sizeClass, Nat.log2_eq_log_two, Nat.log2_eq_log_two]
  exact Nat.log_mono_right (Nat.div_le_div_right h)

/-! ## Stretches of a length -/

namespace Range

variable {start length : Nat}

theorem ofLength_eq_ok (hpos : 0 < length) (hbound : start + length < Word.bound) :
    ∃ r : Range, ofLength start length = .ok r ∧ r.start = start ∧ r.stop = start + length := by
  refine ⟨⟨start, start + length, by omega, hbound⟩, ?_, rfl, rfl⟩
  rw [ofLength, Word.add?, if_pos hbound]
  exact dif_pos ⟨by omega, hbound⟩

theorem stop_of_ofLength {r : Range} (h : ofLength start length = .ok r) :
    r.start = start ∧ r.stop = start + length := by
  unfold ofLength at h
  split at h
  · next hsum =>
    obtain ⟨rfl, -⟩ := Word.add?_eq_some_iff.mp hsum
    unfold new at h
    split at h
    · obtain rfl := Except.ok.inj h
      exact ⟨rfl, rfl⟩
    · cases h
  · cases h

/-- A stretch of no bytes is refused, and one that leaves the address range. -/
theorem ofLength_eq_error_iff {error : ExtentError} (hstart : start < Word.bound) :
    ofLength start length = .error error ↔
      length = 0 ∧ error = .invalidRange start start ∨
        Word.bound ≤ start + length ∧ error = .invalidRange start Word.max := by
  by_cases hsum : start + length < Word.bound
  · rw [ofLength, Word.add?, if_pos hsum]
    by_cases hlength : length = 0
    · subst hlength
      simp only [new, Nat.add_zero, Nat.lt_irrefl, false_and, dite_false, Except.error.injEq]
      simp [Nat.not_le_of_lt hstart, eq_comm]
    · simp only [new, dif_pos (show start < start + length ∧ _ from ⟨by omega, hsum⟩), hlength,
        Nat.not_le_of_lt hsum, reduceCtorEq, false_and, or_false]
  · rw [ofLength, Word.add?, if_neg hsum, Except.error.injEq]
    have hlength : length ≠ 0 := by omega
    simp [hlength, Nat.le_of_not_lt hsum, eq_comm]

end Range

namespace ExtentMap

variable {m : ExtentMap} {c : Criteria} {address : Nat} {p : Handle × Extent}

/-! ## By address -/

/-- The extent is the one that criteria with an address speak of. -/
structure Located (c : Criteria) (address : Nat) (e : Extent) : Prop where
  contains : e.range.contains address = true
  starts : c.flags.exactStart = true → e.start = address

/-- It meets the other criteria as well. -/
structure Meets (c : Criteria) (address : Nat) (e : Extent) : Prop
    extends Located c address e where
  holds : ∀ size, c.size = some size → 0 < size ∧ address + size ≤ e.stop
  usage : c.flags.anyUsage = false → ∀ usage, c.usage = some usage → e.usage = usage

/-- The criteria ask for a stretch of no bytes, or for one that leaves the address range,
and this is how it is reported. -/
def Misasks (c : Criteria) (address stop : Nat) : Prop :=
  ∃ size, c.size = some size ∧
    (size = 0 ∧ stop = address ∨ Word.bound ≤ address + size ∧ stop = Word.max)

/-- What a scan of the extents answers to criteria with an address. -/
structure AnswersAt (m : ExtentMap) (c : Criteria) (address : Nat)
    (answer : Except ExtentError (Handle × Extent)) : Prop where
  ok_iff : ∀ p, answer = .ok p ↔ p ∈ m.toList ∧ Meets c address p.2
  invalidRange_iff : ∀ start stop, answer = .error (.invalidRange start stop) ↔
    start = address ∧ (∃ p ∈ m.toList, Located c address p.2) ∧ Misasks c address stop
  error : ∀ error, answer = .error error →
    error = .notFound ∨ ∃ start stop, error = .invalidRange start stop

theorem hasUsage_iff {e : Extent} (hc : c.address = some address) :
    hasUsage c.requiredUsage e = true ↔
      (c.flags.anyUsage = false → ∀ usage, c.usage = some usage → e.usage = usage) := by
  unfold hasUsage Criteria.requiredUsage
  cases c.flags.anyUsage
  · simp [hc, Option.all_eq_true]
  · simp

namespace Located

theorem lt_bound {e : Extent} (h : Located c address e) : address < Word.bound :=
  Nat.lt_trans (Extent.contains_iff.mp h.contains).2 e.range.stop_lt_bound

/-- There is at most one extent that criteria speak of. -/
theorem unique {q : Handle × Extent} (hm : m.Sound) (hp : p ∈ m.toList) (hq : q ∈ m.toList)
    (h : Located c address p.2) (h' : Located c address q.2) : p = q :=
  hm.ordered.eq_of_contains hp hq h.contains h'.contains

end Located

theorem Misasks.unique {stop stop' : Nat} (hlt : address < Word.bound)
    (h : Misasks c address stop) (h' : Misasks c address stop') : stop = stop' := by
  obtain ⟨size, hsize, hstop⟩ := h
  obtain ⟨size', hsize', hstop'⟩ := h'
  obtain rfl := Option.some.inj (hsize.symm.trans hsize')
  omega

theorem Meets.not_misasks {e : Extent} (h : Meets c address e) (stop : Nat) :
    ¬ Misasks c address stop := by
  rintro ⟨size, hsize, hstop⟩
  have hholds := h.holds size hsize
  have hbound : e.stop < Word.bound := e.range.stop_lt_bound
  omega

theorem searchAt_of_not_located (hnone : ∀ p ∈ m.toList, ¬ Located c address p.2) :
    m.searchAt c address = .error .notFound := by
  unfold searchAt
  cases hfind : m.find? address with
  | none => rfl
  | some p =>
      obtain ⟨hp, hcontains⟩ := contains_of_find? hfind
      have hstart : (c.flags.exactStart && p.2.start != address) = true := by
        by_contra hpass
        refine hnone p hp ⟨hcontains, fun hexact => ?_⟩
        simpa [hexact] using hpass
      simp only [hstart, if_true]

namespace Sound

/-- The extent that the criteria speak of is compared with their size and their usage. -/
theorem searchAt_of_located (h : m.Sound) (hp : p ∈ m.toList) (hl : Located c address p.2) :
    m.searchAt c address = (do
      let fits ←
        match c.size with
        | none => pure true
        | some size => (Range.ofLength address size).map p.2.range.encloses
      if fits && hasUsage c.requiredUsage p.2 then .ok p else .error .notFound) := by
  have hpass : (c.flags.exactStart && p.2.start != address) = false := by
    cases hexact : c.flags.exactStart with
    | false => rfl
    | true => simp [hl.starts hexact]
  unfold searchAt
  rw [h.find?_eq_some_iff.mpr ⟨hp, hl.contains⟩]
  exact if_neg (Bool.eq_false_iff.mp hpass)

theorem searchAt_of_misasks (h : m.Sound) (hp : p ∈ m.toList) (hl : Located c address p.2)
    {stop : Nat} (hmis : Misasks c address stop) :
    m.searchAt c address = .error (.invalidRange address stop) := by
  obtain ⟨size, hsize, hstop⟩ := hmis
  have herror : Range.ofLength address size = .error (.invalidRange address stop) := by
    refine (Range.ofLength_eq_error_iff hl.lt_bound).mpr ?_
    rcases hstop with ⟨rfl, rfl⟩ | ⟨hbound, rfl⟩
    · exact .inl ⟨rfl, rfl⟩
    · exact .inr ⟨hbound, rfl⟩
  rw [h.searchAt_of_located hp hl]
  simp only [hsize, herror]
  rfl

/-- Where a stretch can be asked for, all that is left is whether the extent holds it. -/
theorem searchAt_of_not_misasks (h : m.Sound) (hc : c.address = some address)
    (hp : p ∈ m.toList) (hl : Located c address p.2) (hmis : ∀ stop, ¬ Misasks c address stop) :
    (Meets c address p.2 ∧ m.searchAt c address = .ok p) ∨
      ¬ Meets c address p.2 ∧ m.searchAt c address = .error .notFound := by
  rw [h.searchAt_of_located hp hl]
  have hcontains := Extent.contains_iff.mp hl.contains
  cases hsize : c.size with
  | none =>
      by_cases husage : hasUsage c.requiredUsage p.2 = true
      · refine .inl ⟨⟨hl, by simp [hsize], (hasUsage_iff hc).mp husage⟩, ?_⟩
        simp [husage]
      · refine .inr ⟨fun hmeets => husage ((hasUsage_iff hc).mpr hmeets.usage), ?_⟩
        simp [husage]
  | some size =>
      cases hrange : Range.ofLength address size with
      | error error =>
          exfalso
          rcases (Range.ofLength_eq_error_iff hl.lt_bound).mp hrange with
            ⟨hzero, -⟩ | ⟨hbound, -⟩
          · exact hmis _ ⟨size, hsize, .inl ⟨hzero, rfl⟩⟩
          · exact hmis _ ⟨size, hsize, .inr ⟨hbound, rfl⟩⟩
      | ok wanted =>
          obtain ⟨hstart, hstop⟩ := Range.stop_of_ofLength hrange
          have hlt := wanted.start_lt_stop
          have hencloses : p.2.range.encloses wanted = true ↔ address + size ≤ p.2.stop := by
            rw [Range.encloses_iff, hstart, hstop]
            exact and_iff_right hcontains.1
          by_cases hfits : (p.2.range.encloses wanted && hasUsage c.requiredUsage p.2) = true
          · refine .inl ⟨⟨hl, ?_, ?_⟩, ?_⟩
            · intro size' hsize'
              obtain rfl := Option.some.inj (hsize.symm.trans hsize')
              rw [Bool.and_eq_true, hencloses] at hfits
              exact ⟨by omega, hfits.1⟩
            · rw [Bool.and_eq_true] at hfits
              exact (hasUsage_iff hc).mp hfits.2
            · simp only [hrange, Except.map]
              exact if_pos hfits
          · refine .inr ⟨fun hmeets => hfits ?_, ?_⟩
            · rw [Bool.and_eq_true, hencloses]
              exact ⟨(hmeets.holds size hsize).2, (hasUsage_iff hc).mpr hmeets.usage⟩
            · simp only [hrange, Except.map]
              exact if_neg hfits

/-- One extent decides, the one that the criteria speak of. -/
theorem answersAt_searchAt (h : m.Sound) (hc : c.address = some address) :
    AnswersAt m c address (m.searchAt c address) := by
  by_cases hloc : ∃ p ∈ m.toList, Located c address p.2
  · obtain ⟨p, hp, hl⟩ := hloc
    have hmeets : ∀ q ∈ m.toList, Meets c address q.2 → p = q := fun q hq hq' =>
      Located.unique h hp hq hl hq'.toLocated
    by_cases hmis : ∃ stop, Misasks c address stop
    · obtain ⟨stop, hmis⟩ := hmis
      rw [h.searchAt_of_misasks hp hl hmis]
      refine ⟨fun q => ?_, fun start stop' => ?_, fun error he => ?_⟩
      · simp only [reduceCtorEq, false_iff, not_and]
        exact fun _ hq => hq.not_misasks stop hmis
      · rw [Except.error.injEq, ExtentError.invalidRange.injEq, eq_comm, eq_comm (a := stop)]
        refine and_congr_right fun _ => ?_
        refine ⟨fun hstop => ⟨⟨p, hp, hl⟩, hstop ▸ hmis⟩, fun hstop => ?_⟩
        exact hstop.2.unique hl.lt_bound hmis
      · exact .inr ⟨_, _, (Except.error.inj he).symm⟩
    · have hnone := not_exists.mp hmis
      rcases h.searchAt_of_not_misasks hc hp hl hnone with ⟨hyes, hout⟩ | ⟨hno, hout⟩
      · rw [hout]
        refine ⟨fun q => ?_, fun start stop => ?_, fun error he => nomatch he⟩
        · refine ⟨?_, fun ⟨hq, hq'⟩ => by rw [hmeets q hq hq']⟩
          rintro ⟨⟩
          exact ⟨hp, hyes⟩
        · simp [hnone]
      · rw [hout]
        refine ⟨fun q => ?_, fun start stop => ?_, fun error he => ?_⟩
        · simp only [reduceCtorEq, false_iff, not_and]
          intro hq hq'
          obtain rfl := hmeets q hq hq'
          exact hno hq'
        · simp [hnone]
        · exact .inl (Except.error.inj he).symm
  · have hnone : ∀ p ∈ m.toList, ¬ Located c address p.2 := fun p hp hl => hloc ⟨p, hp, hl⟩
    rw [searchAt_of_not_located hnone]
    refine ⟨fun q => ?_, fun start stop => ?_, fun error he => ?_⟩
    · simp only [reduceCtorEq, false_iff, not_and]
      exact fun hq hq' => hnone q hq hq'.toLocated
    · simp [hloc]
    · exact .inl (Except.error.inj he).symm

end Sound

/-! ## By size -/

/-- The extent is long enough and has the usage that is meant, free memory if none is
named. -/
structure Fits (c : Criteria) (e : Extent) : Prop where
  room : c.size.getD 1 ≤ e.length
  usage : c.flags.anyUsage = false → e.usage = c.usage.getD .free

/-- Whether free memory is looked for. -/
def seeksFree (c : Criteria) : Bool :=
  !c.flags.anyUsage && c.usage.getD .free == .free

/-- The first extent is at least as good an answer as the second. Out of free memory a small
size class is taken first, otherwise a low address, and on request the largest. -/
def Prefers (c : Criteria) (e e' : Extent) : Prop :=
  match seeksFree c, c.flags.largestFirst with
  | true, false => sizeClass e.length ≤ sizeClass e'.length
  | true, true => sizeClass e'.length ≤ sizeClass e.length
  | false, false => e.start ≤ e'.start
  | false, true => e'.length ≤ e.length

/-- What a scan of the extents answers to criteria without an address. -/
structure AnswersSize (m : ExtentMap) (c : Criteria)
    (answer : Except ExtentError (Handle × Extent)) : Prop where
  of_zero : c.size.getD 1 = 0 → answer = .error (.invalidRange 0 0)
  error_iff : c.size.getD 1 ≠ 0 → ∀ error,
    answer = .error error ↔ error = .notFound ∧ ∀ p ∈ m.toList, ¬ Fits c p.2
  best : ∀ p, answer = .ok p → p ∈ m.toList ∧ Fits c p.2 ∧
    ∀ q ∈ m.toList, Fits c q.2 → Prefers c p.2 q.2

/-- A candidate is named if there is one, and none is preferred to it. -/
structure Selects (c : Criteria) (l : List (Handle × Extent))
    (found : Option (Handle × Extent)) : Prop where
  of_none : found = none → ∀ p ∈ l, ¬ Fits c p.2
  of_some : ∀ p, found = some p → p ∈ l ∧ Fits c p.2 ∧ ∀ q ∈ l, Fits c q.2 → Prefers c p.2 q.2

/-! ### Out of the size classes -/

/-- The first answer along an ordered list comes from the place that is in front of all
others with an answer. -/
theorem rel_of_findSome?_eq_some {α β : Type} {R : α → α → Prop} (hrefl : ∀ a, R a a)
    {l : List α} (hl : l.Pairwise R) {f : α → Option β} {b : β} (h : l.findSome? f = some b) :
    ∃ a ∈ l, f a = some b ∧ ∀ a' ∈ l, f a' ≠ none → R a a' := by
  obtain ⟨front, a, back, rfl, ha, hfront⟩ := List.findSome?_eq_some_iff.mp h
  refine ⟨a, by simp, ha, fun a' ha' hsome => ?_⟩
  rw [List.mem_append, List.mem_cons] at ha'
  rcases ha' with ha' | rfl | ha'
  · exact absurd (hfront a' ha') hsome
  · exact hrefl a'
  · exact List.rel_of_pairwise_cons (List.pairwise_append.mp hl).2.1 ha'

theorem fits_iff_of_seeksFree {e : Extent} (hfree : seeksFree c = true) :
    Fits c e ↔ c.size.getD 1 ≤ e.length ∧ e.usage = .free := by
  simp only [seeksFree, Bool.and_eq_true, Bool.not_eq_true', beq_iff_eq] at hfree
  refine ⟨fun h => ⟨h.room, (h.usage hfree.1).trans hfree.2⟩, fun h => ⟨h.1, fun _ => ?_⟩⟩
  rw [h.2, hfree.2]

/-- What a size class offers to the criteria. -/
def offer (m : ExtentMap) (size index : Nat) : Option (Handle × Extent) :=
  (m.members index).find? fun found => size ≤ found.2.length && found.2.usage.isFree

theorem Sound.offer_eq_some (h : m.Sound) {size index : Nat} (hp : m.offer size index = some p) :
    p ∈ m.toList ∧ size ≤ p.2.length ∧ p.2.usage = .free ∧ sizeClass p.2.length = index := by
  have hmember := List.mem_of_find?_eq_some hp
  have hmeets := List.find?_some hp
  rw [Bool.and_eq_true, decide_eq_true_eq] at hmeets
  obtain ⟨hmem, hfree, hclass⟩ := h.mem_class_iff.mp hmember
  exact ⟨hmem, hmeets.1, hfree, hclass⟩

/-- A free extent that is long enough is offered by its class, and its class is visited. -/
theorem Sound.offer_ne_none (h : m.Sound) {size : Nat} (hp : p ∈ m.toList)
    (hsize : size ≤ p.2.length) (hfree : p.2.usage = .free) :
    m.offer size (sizeClass p.2.length) ≠ none ∧
      sizeClass p.2.length ∈
        List.range' (sizeClass size) (SizeClasses.count - sizeClass size) := by
  have hisFree : p.2.usage.isFree = true := beq_iff_eq.mpr hfree
  have hmember : p ∈ m.members (sizeClass p.2.length) := h.mem_class_iff.mpr ⟨hp, hfree, rfl⟩
  have hlow := sizeClass_mono hsize
  have hhigh : sizeClass p.2.length < SizeClasses.count :=
    sizeClass_lt p.2.range.length_lt_bound
  refine ⟨fun hnone => ?_, List.mem_range'_1.mpr (by omega)⟩
  refine List.find?_eq_none.mp hnone p hmember ?_
  simp [hsize, hisFree]

/-- The classes are visited from the low end or from the high end, so the one that answers is
the lowest or the highest of those with an offer. -/
theorem searchClasses_eq_some {size : Nat} {largestFirst : Bool}
    (hp : m.searchClasses size largestFirst = some p) :
    ∃ index, m.offer size index = some p ∧
      ∀ index' ∈ List.range' (sizeClass size) (SizeClasses.count - sizeClass size),
        m.offer size index' ≠ none →
          if largestFirst then index' ≤ index else index ≤ index' := by
  have hup : (List.range' (sizeClass size) (SizeClasses.count - sizeClass size)).Pairwise
      (· ≤ ·) := (List.pairwise_lt_range' 1).imp Nat.le_of_lt
  cases largestFirst with
  | false =>
      obtain ⟨index, -, hoffer, hleast⟩ := rel_of_findSome?_eq_some Nat.le_refl hup hp
      exact ⟨index, hoffer, hleast⟩
  | true =>
      obtain ⟨index, -, hoffer, hgreatest⟩ := rel_of_findSome?_eq_some (R := fun i j => j ≤ i)
        Nat.le_refl (List.pairwise_reverse.mpr hup) hp
      exact ⟨index, hoffer, fun index' hindex => hgreatest index' (List.mem_reverse.mpr hindex)⟩

theorem Sound.selects_searchClasses (h : m.Sound) (hfree : seeksFree c = true) :
    Selects c m.toList (m.searchClasses (c.size.getD 1) c.flags.largestFirst) := by
  constructor
  · intro hnone p hp hfits
    obtain ⟨hsize, husage⟩ := (fits_iff_of_seeksFree hfree).mp hfits
    obtain ⟨hoffer, hvisited⟩ := h.offer_ne_none hp hsize husage
    refine hoffer (List.findSome?_eq_none_iff.mp hnone _ ?_)
    split
    · exact List.mem_reverse.mpr hvisited
    · exact hvisited
  · intro p hp
    obtain ⟨index, hoffer, hbest⟩ := searchClasses_eq_some hp
    obtain ⟨hmem, hsize, husage, rfl⟩ := h.offer_eq_some hoffer
    refine ⟨hmem, (fits_iff_of_seeksFree hfree).mpr ⟨hsize, husage⟩, fun q hq hfits => ?_⟩
    obtain ⟨hsize', husage'⟩ := (fits_iff_of_seeksFree hfree).mp hfits
    obtain ⟨hoffer', hvisited⟩ := h.offer_ne_none hq hsize' husage'
    have hrel := hbest _ hvisited hoffer'
    unfold Prefers
    rw [hfree]
    cases hlargest : c.flags.largestFirst with
    | false => simpa [hlargest] using hrel
    | true => simpa [hlargest] using hrel

/-! ### Out of all extents -/

/-- The longest of a list is one of its members, and none is longer. -/
theorem longest?_spec (l : List (Handle × Extent)) :
    (longest? l = none → l = []) ∧
      ∀ p, longest? l = some p → p ∈ l ∧ ∀ q ∈ l, q.2.length ≤ p.2.length := by
  induction l using List.reverseRecOn with
  | nil => exact ⟨fun _ => rfl, fun p hp => nomatch hp⟩
  | append_singleton l last ih =>
      have hstep : longest? (l ++ [last]) = (longest? l).elim (some last) fun best =>
          if best.2.length ≤ last.2.length then some last else some best := by
        rw [longest?, List.foldl_append, ← longest?]
        cases longest? l <;> rfl
      rw [hstep]
      cases hbest : longest? l with
      | none =>
          obtain rfl := ih.1 hbest
          refine ⟨by simp, fun p hp => ?_⟩
          obtain rfl := Option.some.inj hp
          simp
      | some best =>
          obtain ⟨hmem, hall⟩ := ih.2 best hbest
          simp only [Option.elim_some, List.mem_append, List.mem_singleton]
          split
          · next hle =>
            refine ⟨by simp, fun p hp => ?_⟩
            obtain rfl := Option.some.inj hp
            refine ⟨.inr rfl, fun q hq => ?_⟩
            rcases hq with hq | rfl
            · exact Nat.le_trans (hall q hq) hle
            · exact Nat.le_refl _
          · next hgt =>
            refine ⟨by simp, fun p hp => ?_⟩
            obtain rfl := Option.some.inj hp
            refine ⟨.inl hmem, fun q hq => ?_⟩
            rcases hq with hq | rfl
            · exact hall q hq
            · exact Nat.le_of_not_le hgt

theorem requiredUsage_eq (hc : c.address = none) :
    c.requiredUsage = if c.flags.anyUsage then none else some (c.usage.getD .free) := by
  unfold Criteria.requiredUsage
  rw [hc]
  cases c.usage <;> rfl

theorem mem_candidates_iff (hc : c.address = none) :
    p ∈ m.toList.filter (fun found => c.size.getD 1 ≤ found.2.length &&
      hasUsage c.requiredUsage found.2) ↔ p ∈ m.toList ∧ Fits c p.2 := by
  have husage : hasUsage c.requiredUsage p.2 = true ↔
      (c.flags.anyUsage = false → p.2.usage = c.usage.getD .free) := by
    rw [requiredUsage_eq hc]
    cases c.flags.anyUsage <;> simp [hasUsage]
  rw [List.mem_filter, Bool.and_eq_true, decide_eq_true_eq, husage]
  exact and_congr_right fun _ => ⟨fun h => ⟨h.1, h.2⟩, fun h => ⟨h.room, h.usage⟩⟩

theorem Sound.selects_searchExtents (h : m.Sound) (hc : c.address = none)
    (hfree : seeksFree c = false) :
    Selects c m.toList
      (m.searchExtents (c.size.getD 1) c.requiredUsage c.flags.largestFirst) := by
  have hmem := fun p => mem_candidates_iff (m := m) (p := p) hc
  have hordered : Ordered (m.toList.filter fun found => c.size.getD 1 ≤ found.2.length &&
      hasUsage c.requiredUsage found.2) := h.ordered.filter _
  unfold searchExtents
  revert hmem hordered
  generalize m.toList.filter _ = candidates
  intro hmem hordered
  cases hlargest : c.flags.largestFirst with
  | false =>
      cases candidates with
      | nil =>
          refine ⟨fun _ p hp hfits => ?_, by simp⟩
          exact absurd ((hmem p).mpr ⟨hp, hfits⟩) List.not_mem_nil
      | cons first rest =>
          refine ⟨by simp, fun p hp => ?_⟩
          obtain rfl : first = p := Option.some.inj hp
          obtain ⟨hp, hfits⟩ := (hmem first).mp List.mem_cons_self
          refine ⟨hp, hfits, fun q hq hq' => ?_⟩
          simp only [Prefers, hfree, hlargest]
          rcases List.mem_cons.mp ((hmem q).mpr ⟨hq, hq'⟩) with rfl | hrest
          · exact Nat.le_refl _
          · exact Nat.le_trans (Nat.le_of_lt first.2.start_lt_stop)
              (List.rel_of_pairwise_cons hordered hrest)
  | true =>
      obtain ⟨hnone, hsome⟩ := longest?_spec candidates
      refine ⟨fun h p hp hfits => ?_, fun p hp => ?_⟩
      · have hin := (hmem p).mpr ⟨hp, hfits⟩
        rw [hnone h] at hin
        cases hin
      · obtain ⟨hin, hlongest⟩ := hsome p hp
        obtain ⟨hp, hfits⟩ := (hmem p).mp hin
        refine ⟨hp, hfits, fun q hq hq' => ?_⟩
        simp only [Prefers, hfree, hlargest]
        exact hlongest q ((hmem q).mpr ⟨hq, hq'⟩)

theorem requiredUsage_eq_free_iff (hc : c.address = none) :
    c.requiredUsage = some .free ↔ seeksFree c = true := by
  rw [requiredUsage_eq hc, seeksFree]
  cases c.flags.anyUsage <;> simp

theorem Sound.searchSize_cases (h : m.Sound) (hc : c.address = none) :
    (m.searchSize c (c.size.getD 1) = .error .notFound ∧ ∀ p ∈ m.toList, ¬ Fits c p.2) ∨
      ∃ p ∈ m.toList, m.searchSize c (c.size.getD 1) = .ok p ∧ Fits c p.2 ∧
        ∀ q ∈ m.toList, Fits c q.2 → Prefers c p.2 q.2 := by
  have hfound : Selects c m.toList
      (if c.requiredUsage = some .free then
        m.searchClasses (c.size.getD 1) c.flags.largestFirst
      else m.searchExtents (c.size.getD 1) c.requiredUsage c.flags.largestFirst) := by
    split
    · next hfree => exact h.selects_searchClasses ((requiredUsage_eq_free_iff hc).mp hfree)
    · next hother =>
      refine h.selects_searchExtents hc (Bool.eq_false_iff.mpr fun hfree => hother ?_)
      exact (requiredUsage_eq_free_iff hc).mpr hfree
  unfold searchSize
  revert hfound
  generalize ite (c.requiredUsage = some .free) _ _ = found
  intro hfound
  cases found with
  | none => exact .inl ⟨rfl, hfound.of_none rfl⟩
  | some p =>
      obtain ⟨hp, hfits, hbest⟩ := hfound.of_some p rfl
      exact .inr ⟨p, hp, rfl, hfits, hbest⟩

theorem Sound.answersSize_search (h : m.Sound) (hc : c.address = none) :
    AnswersSize m c (m.search c) := by
  by_cases hzero : c.size.getD 1 = 0
  · have hout : m.search c = .error (.invalidRange 0 0) := by
      rw [search, hc]
      simp only [hzero]
    rw [hout]
    exact ⟨fun _ => rfl, fun hne => absurd hzero hne, fun p hp => nomatch hp⟩
  · have hout : m.search c = m.searchSize c (c.size.getD 1) := by
      rw [search, hc]
      simp only
    rw [hout]
    rcases h.searchSize_cases hc with ⟨hsearch, hnone⟩ | ⟨p, hp, hsearch, hfits, hbest⟩
    · rw [hsearch]
      refine ⟨fun h => absurd h hzero, fun _ error => ?_, fun p hp => nomatch hp⟩
      rw [Except.error.injEq, eq_comm]
      exact (and_iff_left hnone).symm
    · rw [hsearch]
      refine ⟨fun h => absurd h hzero, fun _ error => ?_, fun q hq => ?_⟩
      · simp only [reduceCtorEq, false_iff, not_and]
        exact fun _ hnone => hnone p hp hfits
      · obtain rfl := Except.ok.inj hq
        exact ⟨hp, hfits, hbest⟩

/-! ## Every search of every map -/

/-- A search answers what a scan of the extents answers, on every reachable map and for all
criteria. -/
theorem search_agrees_with_scan {region : Range} (hm : Reachable (fun _ => True) region m)
    (c : Criteria) :
    (∀ address, c.address = some address → AnswersAt m c address (m.search c)) ∧
      (c.address = none → AnswersSize m c (m.search c)) := by
  refine ⟨fun address hc => ?_, hm.sound.answersSize_search⟩
  have hat := hm.sound.answersAt_searchAt hc
  unfold search
  rwa [hc]

/-- A page in the middle is in use, with three free pages in front of it and four behind. For
one byte more than three pages the search starts in the class of the three, where nothing is
long enough, and goes on to the next. A page from the middle of the one in use is too much. -/
theorem search_agrees_with_scan_around_page :
    let region : Range := ⟨0x1000, 0x9000, by decide, by decide⟩
    let page : Range := ⟨0x4000, 0x5000, by decide, by decide⟩
    let m := ((Mutation.reclaimAt page .inUse none).perform.run (created region)).state
    (∃ p, m.search (.ofSize 0x3001) = .ok p ∧ p.2.start = 0x5000 ∧
      ∀ q ∈ m.toList, Fits (.ofSize 0x3001) q.2 → sizeClass p.2.length ≤ sizeClass q.2.length) ∧
    ∀ p, m.search ⟨some 0x4321, some 0x1000, none, .none⟩ ≠ .ok p := by
  intro region page m
  have hm : Reachable (fun _ => True) region m :=
    .step (created_reachable _ region) _ trivial fun ⟨_, h⟩ => by
      have hok : ((Mutation.reclaimAt page .inUse none).perform.run
        (created region)).verdict = .ok () := by decide +kernel
      exact nomatch hok.symm.trans h
  refine ⟨?_, fun p hp => ?_⟩
  · have hstart : (m.search (.ofSize 0x3001)).toOption.map (fun p => p.2.start) =
        some 0x5000 := by decide +kernel
    cases hsearch : m.search (.ofSize 0x3001) with
    | error error => rw [hsearch] at hstart; cases hstart
    | ok p =>
        rw [hsearch] at hstart
        obtain ⟨-, -, hbest⟩ := ((search_agrees_with_scan hm _).2 rfl).best p hsearch
        exact ⟨p, rfl, Option.some.inj hstart, hbest⟩
  · obtain ⟨hmem, hmeets⟩ := (((search_agrees_with_scan hm _).1 0x4321 rfl).ok_iff p).mp hp
    have hholds := (hmeets.holds 0x1000 rfl).2
    have hstop : ∀ q ∈ m.toList, q.2.range.contains 0x4321 = true → q.2.stop = 0x5000 := by
      decide +kernel
    rw [hstop p hmem hmeets.contains] at hholds
    exact absurd hholds (by decide)

end ExtentMap

end KernelMemory
