import KernelMemory.Proofs.Extent.Lockstep

/-!
# The size classes of a linked map

Calls of every kind, with any arguments, change a map that starts as one free extent. A map
they reach mirrors one whose classes are lists, however the calls ended, and that map is
sound. So iterating a class comes to an end and gives the free extents of its lengths.

An iteration is followed along the list it is known to trace. The list cannot be longer than
there are extents, which is what bounds the number of steps.
-/

namespace KernelMemory

namespace LinkedMap

variable {x : LinkedMap} {m : ExtentMap} {id k : Handle} {index : Nat}

/-! ## Iterating a class -/

/-- From any place in a threaded list on, the walk visits the rest of it. -/
theorem Threads.outcome_walk {pre l : List Handle} (h : x.Threads (pre ++ l)) {steps : Nat}
    (hsteps : l.length ≤ steps) :
    ∃ found, (walk steps l.head?).outcome x = (.ok found, x) ∧ found.map Prod.fst = l ∧
      ∀ p ∈ found, x.get? p.1 = some p.2 := by
  induction l generalizing pre steps with
  | nil =>
      refine ⟨[], ?_, rfl, fun p hp => nomatch hp⟩
      cases steps <;> rfl
  | cons id l ih =>
      obtain ⟨e, hget, -, hafter⟩ := h pre id l rfl
      obtain ⟨steps, rfl⟩ : ∃ n, steps = n + 1 := Nat.exists_eq_add_one.mpr (by
        rw [List.length_cons] at hsteps
        omega)
      rw [List.append_cons] at h
      obtain ⟨found, hout, hfst, hfound⟩ := ih h (Nat.le_of_succ_le_succ hsteps)
      refine ⟨(id, e) :: found, ?_, by rw [List.map_cons, hfst], ?_⟩
      · rw [List.head?_cons, walk, Operation.outcome_get_bind]
        simp only [hget]
        rw [hafter, Operation.outcome_bind_ok hout, Operation.outcome_pure]
      · intro p hp
        rcases List.mem_cons.mp hp with rfl | hp
        · exact hget
        · exact hfound p hp

/-- Only the classes there are can be iterated. -/
theorem lt_count_of_listing {found : List (Handle × LinkedExtent)}
    (h : (listing index).outcome x = (.ok found, x)) : index < SizeClasses.count := by
  refine Decidable.byContradiction fun hge => ?_
  rw [listing, Operation.outcome_bind, classAt, Operation.outcome_get_bind, if_neg hge] at h
  cases (Prod.mk.inj h).1

namespace Mirrors

/-- An iteration goes through the list of the class. -/
theorem outcome_listing (h : x.Mirrors m) (hindex : index < SizeClasses.count) :
    ∃ found, (listing index).outcome x = (.ok found, x) ∧
      found.map Prod.fst = m.classes.get index ∧ ∀ p ∈ found, x.get? p.1 = some p.2 := by
  have hthreads : x.Threads ([] ++ m.classes.get index) := h.threads index
  obtain ⟨found, hout, hfound⟩ := hthreads.outcome_walk (h.length_class_le_size index)
  refine ⟨found, ?_, hfound⟩
  rw [listing, Operation.outcome_bind_ok (outcome_classAt x hindex), Operation.outcome_get_bind,
    h.class_eq index hindex]
  exact hout

/-! ## Links -/

theorem listedIn_of_linked (h : x.Mirrors m) {e : LinkedExtent} (hget : x.get? id = some e)
    (hlink : e.before ≠ none ∨ e.after ≠ none) : ∃ index, e.extent.listedIn = some index := by
  refine Option.ne_none_iff_exists'.mp fun hnone => ?_
  obtain ⟨hbefore, hafter⟩ := h.loose id e hget hnone
  exact hlink.elim (· hbefore) (· hafter)

/-- The extent that a link leads on to links back. -/
theorem before_of_after (h : x.Mirrors m) {e : LinkedExtent} (hget : x.get? k = some e)
    (hafter : e.after = some id) : ∃ d, x.get? id = some d ∧ d.before = some k := by
  obtain ⟨index, hlisted⟩ := h.listedIn_of_linked hget (.inr (by simp [hafter]))
  obtain ⟨pre, post, hs⟩ := h.exists_stands hget hlisted
  rw [hs.after_eq, List.head?_eq_some_iff] at hafter
  obtain ⟨rest, rfl⟩ := hafter
  obtain ⟨d, hd, hbefore, -⟩ := h.threads index (pre ++ [k]) id rest (by simp [hs.class_eq])
  exact ⟨d, hd, by simpa using hbefore⟩

/-- The extent that a link leads back to links on. -/
theorem after_of_before (h : x.Mirrors m) {e : LinkedExtent} (hget : x.get? k = some e)
    (hbefore : e.before = some id) : ∃ d, x.get? id = some d ∧ d.after = some k := by
  obtain ⟨index, hlisted⟩ := h.listedIn_of_linked hget (.inl (by simp [hbefore]))
  obtain ⟨pre, post, hs⟩ := h.exists_stands hget hlisted
  rw [hs.before_eq, List.getLast?_eq_some_iff] at hbefore
  obtain ⟨front, rfl⟩ := hbefore
  obtain ⟨d, hd, -, hafter⟩ := h.threads index front id (k :: post) (by simp [hs.class_eq])
  exact ⟨d, hd, hafter⟩

theorem get?_of_mem (h : x.Mirrors m) {p : Handle × LinkedExtent} (hp : p ∈ x.toList) :
    x.get? p.1 = some p.2 :=
  h.sound.get?_eq_some_iff.mpr hp

theorem after_iff (h : x.Mirrors m) {p : Handle × LinkedExtent} (hp : p ∈ x.toList) :
    p.2.after = some id ↔ ∃ e, (id, e) ∈ x.toList ∧ e.before = some p.1 := by
  constructor
  · intro hafter
    obtain ⟨e, hget, hbefore⟩ := h.before_of_after (h.get?_of_mem hp) hafter
    exact ⟨e, h.sound.get?_eq_some_iff.mp hget, hbefore⟩
  · rintro ⟨e, he, hbefore⟩
    obtain ⟨d, hget, hafter⟩ := h.after_of_before (h.get?_of_mem he) hbefore
    obtain rfl := Option.some.inj ((h.get?_of_mem hp).symm.trans hget)
    exact hafter

theorem before_iff (h : x.Mirrors m) {p : Handle × LinkedExtent} (hp : p ∈ x.toList) :
    p.2.before = some id ↔ ∃ e, (id, e) ∈ x.toList ∧ e.after = some p.1 := by
  constructor
  · intro hbefore
    obtain ⟨e, hget, hafter⟩ := h.after_of_before (h.get?_of_mem hp) hbefore
    exact ⟨e, h.sound.get?_eq_some_iff.mp hget, hafter⟩
  · rintro ⟨e, he, hafter⟩
    obtain ⟨d, hget, hbefore⟩ := h.before_of_after (h.get?_of_mem he) hafter
    obtain rfl := Option.some.inj ((h.get?_of_mem hp).symm.trans hget)
    exact hbefore

end Mirrors

/-! ## Runs -/

/-- The maps of `region` that calls reach, however each of them ends. -/
inductive Reachable (region : Range) : LinkedMap → Prop
  | create (owner : Nat) (name : String) {x : LinkedMap}
      (h : ((LinkedMap.create owner name region : Operation Unit ExtentError LinkedMap).run
        ()).verdict = .ok x) : Reachable region x
  | step {x : LinkedMap} (hx : Reachable region x) (c : ExtentMap.Mutation) :
      Reachable region ((perform c).run x).state

/-- A reachable map mirrors a sound one. -/
theorem Reachable.exists_mirrors {region : Range} (hx : Reachable region x) :
    ∃ m, x.Mirrors m ∧ m.Sound := by
  induction hx with
  | create owner name h =>
      obtain ⟨y, m, hout, -, hmirrors⟩ := outcome_create (σ := Unit) owner name region ()
      rw [Operation.verdict_run, hout] at h
      obtain rfl := Verdict.ok.inj h
      exact ⟨m, hmirrors⟩
  | step _ c ih =>
      obtain ⟨m, hmirrors, hsound⟩ := ih
      exact ⟨_, (hmirrors.perform c).related, hsound.perform c⟩

/-- The map after some calls. -/
def afterCalls (x : LinkedMap) (calls : List ExtentMap.Mutation) : LinkedMap :=
  calls.foldl (fun x c => ((perform c).run x).state) x

theorem Reachable.afterCalls {region : Range} (hx : Reachable region x)
    (calls : List ExtentMap.Mutation) : Reachable region (x.afterCalls calls) := by
  induction calls generalizing x with
  | nil => exact hx
  | cons c calls ih => exact ih (hx.step c)

def created (region : Range) : LinkedMap :=
  match ((create 0 "ram" region : Operation Unit ExtentError LinkedMap).run ()).verdict with
  | .ok x => x
  | _ => default

theorem created_reachable (region : Range) : Reachable region (created region) := by
  obtain ⟨x, m, hout, -⟩ := outcome_create (σ := Unit) 0 "ram" region ()
  have hverdict : ((create 0 "ram" region : Operation Unit ExtentError LinkedMap).run
      ()).verdict = .ok x := by
    rw [Operation.verdict_run, hout]
  refine .create 0 "ram" ?_
  rw [created, hverdict]

/-! ## What a class holds -/

/-- Iterating a class gives `found`: the free extents of its lengths, each once and linked to
its neighbours both ways. -/
structure Enumerates (x : LinkedMap) (index : Nat) (found : List (Handle × LinkedExtent)) :
    Prop where
  outcome_eq : (listing index).outcome x = (.ok found, x)
  count_eq : x.memberCount index = found.length
  nodup : (found.map Prod.fst).Nodup
  mem_iff : ∀ p, p ∈ found ↔ p ∈ x.toList ∧ p.2.extent.usage.isFree = true ∧
    sizeClass p.2.extent.length = index
  threads : x.Threads (found.map Prod.fst)

/-- An extent records the class of its length if it is free, and none otherwise. -/
theorem Mirrors.listedIn_eq_iff (h : x.Mirrors m) (hm : m.Sound) {p : Handle × LinkedExtent}
    (hp : p ∈ x.toList) : p.2.extent.listedIn = some index ↔
      p.2.extent.usage.isFree = true ∧ sizeClass p.2.extent.length = index := by
  have hmem : (p.1, p.2.extent) ∈ m.toList := h.mem_toList_iff.mpr ⟨p.2, h.get?_of_mem hp, rfl⟩
  have hlisting : p.2.extent.listedIn = p.2.extent.listing := hm.listing _ hmem
  rw [hlisting, Extent.listing_eq_some_iff]
  exact and_congr_left' beq_iff_eq.symm

theorem Mirrors.enumerates (h : x.Mirrors m) (hm : m.Sound) (hindex : index < SizeClasses.count) :
    ∃ found, x.Enumerates index found := by
  obtain ⟨found, hout, hfst, hfound⟩ := h.outcome_listing hindex
  have hmem : ∀ p, p ∈ found ↔ x.get? p.1 = some p.2 ∧ p.2.extent.listedIn = some index := by
    intro p
    constructor
    · intro hp
      have hin : p.1 ∈ m.classes.get index := hfst ▸ List.mem_map_of_mem hp
      obtain ⟨e, hget, hlisted⟩ := h.mem_class_iff.mp hin
      obtain rfl := Option.some.inj ((hfound p hp).symm.trans hget)
      exact ⟨hget, hlisted⟩
    · rintro ⟨hget, hlisted⟩
      have hin : p.1 ∈ found.map Prod.fst := hfst ▸ h.mem_class_iff.mpr ⟨p.2, hget, hlisted⟩
      obtain ⟨q, hq, hqp⟩ := List.mem_map.mp hin
      have hvalue := hfound q hq
      rw [hqp, hget] at hvalue
      rwa [← Prod.ext hqp (Option.some.inj hvalue).symm]
  refine ⟨found, hout, ?_, hfst ▸ h.lists.nodup index, ?_, hfst ▸ h.threads index⟩
  · rw [memberCount, h.class_eq index hindex, ← hfst, List.length_map]
  · intro p
    rw [hmem, LinkedMap.get?, h.sound.get?_eq_some_iff]
    exact and_congr_right fun hp => h.listedIn_eq_iff hm hp

theorem Mirrors.listedIn_iff (h : x.Mirrors m) (hm : m.Sound) {p : Handle × LinkedExtent}
    (hp : p ∈ x.toList) (index : Nat) : p.2.extent.listedIn = some index ↔
      p.2.extent.usage.isFree = true ∧
        ∃ found, (listing index).outcome x = (.ok found, x) ∧ p ∈ found := by
  rw [h.listedIn_eq_iff hm hp]
  constructor
  · rintro ⟨hfree, rfl⟩
    obtain ⟨found, hfound⟩ :=
      h.enumerates hm (sizeClass_lt p.2.extent.range.length_lt_bound)
    exact ⟨hfree, found, hfound.outcome_eq, (hfound.mem_iff p).mpr ⟨hp, hfree, rfl⟩⟩
  · rintro ⟨hfree, found, hout, hin⟩
    have hindex : index < SizeClasses.count := lt_count_of_listing hout
    obtain ⟨found', hfound⟩ := h.enumerates hm hindex
    obtain rfl := Verdict.ok.inj (Prod.mk.inj (hout.symm.trans hfound.outcome_eq)).1
    exact ⟨hfree, ((hfound.mem_iff p).mp hin).2.2⟩

/-- On every reachable map each class enumerates the free extents of its lengths, an extent
knows the class that it is in, and an extent that links on to another is linked back to. -/
theorem classes_enumerate_free {region : Range} (hx : Reachable region x) :
    (∀ index < SizeClasses.count, ∃ found, x.Enumerates index found) ∧
      ∀ p ∈ x.toList,
        (∀ index, p.2.extent.listedIn = some index ↔ p.2.extent.usage.isFree = true ∧
          ∃ found, (listing index).outcome x = (.ok found, x) ∧ p ∈ found) ∧
        ∀ id, (p.2.after = some id ↔ ∃ e, (id, e) ∈ x.toList ∧ e.before = some p.1) ∧
          (p.2.before = some id ↔ ∃ e, (id, e) ∈ x.toList ∧ e.after = some p.1) := by
  obtain ⟨m, h, hm⟩ := hx.exists_mirrors
  refine ⟨fun index hindex => h.enumerates hm hindex, fun p hp => ⟨fun index => ?_, fun id => ?_⟩⟩
  · exact h.listedIn_iff hm hp index
  · exact ⟨h.after_iff hp, h.before_iff hp⟩

/-- Pages in use leave four free ones between them, each in the list of its class. Then one
from the middle of that list is used as well, and the others close up. -/
theorem classes_enumerate_free_between_pages :
    let region : Range := ⟨0x1000, 0x8000, by decide, by decide⟩
    let x := (created region).afterCalls
      [.reclaimAt ⟨0x2000, 0x3000, by decide, by decide⟩ .inUse none,
        .reclaimAt ⟨0x4000, 0x5000, by decide, by decide⟩ .inUse none,
        .reclaimAt ⟨0x6000, 0x7000, by decide, by decide⟩ .inUse none,
        .reclaimAt ⟨0x3000, 0x4000, by decide, by decide⟩ .inUse none]
    ∃ found, x.Enumerates 0 found ∧
      found.map (fun p => p.2.extent.start) = [0x7000, 0x5000, 0x1000] := by
  intro region x
  have hx : Reachable region x := (created_reachable region).afterCalls _
  obtain ⟨found, hfound⟩ := (classes_enumerate_free hx).1 0 (by decide)
  refine ⟨found, hfound, ?_⟩
  have hstarts : ((do
      let found ← listing 0
      return found.map fun p => p.2.extent.start : LinkedMapOperation (List Nat)).outcome x).1 =
        .ok [0x7000, 0x5000, 0x1000] := by decide +kernel
  rw [Operation.outcome_bind_ok hfound.outcome_eq] at hstarts
  exact Verdict.ok.inj hstarts

end LinkedMap

end KernelMemory
