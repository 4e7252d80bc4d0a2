import KernelMemory.Proofs.Linked.Layout
import KernelMemory.Proofs.Space.Faults

/-!
# Calls that cannot go wrong

A map and a space in memory make every check that goes along with their steps. On what a run
of calls reaches, none of the checks fails: a run of the linked map mirrors one of the map with
lists, and what the latter reaches is sound. So a call ends with a fault only where the map
with lists does, which is where no slot is left for another extent; and nothing that is read
asks for a slot. The tree of the index adds no faults of its own, since the links that draw it
can be laid out, and on them no walk is lost.
-/

namespace KernelMemory

open Operation (Agree)

namespace LinkedMap.Checked

variable {region : Range} {x : LinkedMap} {m : ExtentMap}

/-! ## Maps -/

/-- The maps of `region` that calls reach with all their checks, however each of them ends. -/
inductive Reachable (region : Range) : LinkedMap → Prop
  | create (owner : Nat) (name : String) {x : LinkedMap}
      (h : ((LinkedMap.create owner name region : Operation Unit ExtentError LinkedMap).run
        ()).verdict = .ok x) : Reachable region x
  | step {x : LinkedMap} (hx : Reachable region x) (c : ExtentMap.Mutation) :
      Reachable region ((perform c).run x).state

/-- A map that calls reach mirrors a sound one: each of them leaves it so. -/
theorem Reachable.exists_mirrors (hx : Reachable region x) : ∃ m, x.Mirrors m ∧ m.Sound := by
  induction hx with
  | create owner name h =>
      obtain ⟨y, m, hout, -, hmirrors⟩ := outcome_create (σ := Unit) owner name region ()
      rw [Operation.verdict_run, hout] at h
      obtain rfl := Verdict.ok.inj h
      exact ⟨m, hmirrors⟩
  | step _ c ih =>
      obtain ⟨m, hmirrors, hsound⟩ := ih
      exact ⟨_, (agree_perform hmirrors hsound c).related, hsound.perform c⟩

/-- What a map can be asked. The size classes that it can be asked for are those there are. -/
inductive Query
  | find (address : Nat)
  | search (criteria : Criteria)
  | bytesOf (usage : Usage)
  | largest (usage : Usage)
  | members (index : Fin SizeClasses.count)
  | memberCount (index : Fin SizeClasses.count)

/-- Asks a map. What it answers does not matter. -/
def ask : Query → LinkedMapOperation Unit
  | .find address => do let _ ← find address
  | .search criteria => do let _ ← search criteria
  | .bytesOf usage => do let _ ← bytesOf usage
  | .largest usage => do let _ ← largest? usage
  | .members index => do let _ ← members index
  | .memberCount index => do let _ ← memberCount index

/-- A map that is asked answers or refuses, and stays as it is. -/
theorem outcome_ask (h : x.Mirrors m) (hm : m.Sound) (q : Query) :
    (ask q).outcome x = (.ok (), x) ∨ ∃ e, (ask q).outcome x = (.error e, x) := by
  cases q with
  | find address => exact .inl rfl
  | search criteria =>
      rw [ask, Operation.outcome_bind, outcome_search h]
      cases m.search criteria with
      | ok p => exact .inl rfl
      | error e => exact .inr ⟨e, rfl⟩
  | bytesOf usage => exact .inl (Operation.outcome_bind_ok (outcome_bytesOf h hm usage) _)
  | largest usage => exact .inl (Operation.outcome_bind_ok (outcome_largest? h usage) _)
  | members index => exact .inl (Operation.outcome_bind_ok (outcome_members h index.isLt) _)
  | memberCount index =>
      exact .inl (Operation.outcome_bind_ok (outcome_memberCount h index.isLt) _)

end LinkedMap.Checked

namespace LinkedMap

/-- The index can be laid out in links that stay safe, whatever calls change it. -/
def SafelyLaid (x : LinkedMap) : Prop :=
  ∃ l : Linked LinkedExtent, l.Mirrors x.index ∧
    ∀ calls, (l.afterCalls LinkedExtent.keying calls).Safe LinkedExtent.keying

/-- A call ends with a fault only if it leaves no slot for another extent, and nothing that
is asked ends with one. The checks change no answer: calls end as on a map with lists. -/
structure Safe (x : LinkedMap) : Prop where
  perform : ∀ c f, ((Checked.perform c).outcome x).1 = .fault f →
    Slots.capacity ≤ ((Checked.perform c).outcome x).2.size
  ask : ∀ q f, ((Checked.ask q).outcome x).1 ≠ .fault f
  state_ask : ∀ q, ((Checked.ask q).outcome x).2 = x
  laid : x.SafelyLaid
  mirrored : ∃ m : ExtentMap, m.Sound ∧ x.Mirrors m ∧
    ∀ c, Agree Mirrors (Checked.perform c) c.perform x m

theorem Mirrors.safelyLaid {x : LinkedMap} {m : ExtentMap} (h : x.Mirrors m) : x.SafelyLaid := by
  obtain ⟨l, hl⟩ := Linked.exists_mirrors h.sound
  exact ⟨l, hl, hl.safe_afterCalls h.sound LinkedExtent.keying⟩

theorem Mirrors.safe {x : LinkedMap} {m : ExtentMap} (h : x.Mirrors m) (hm : m.Sound) :
    x.Safe where
  perform c f hf := by
    have hagree := Checked.agree_perform h hm c
    rw [hagree.verdict_eq] at hf
    rw [hagree.related.size_eq]
    rcases hm.perform_cases c with ⟨error, hout⟩ | ⟨slots, m', hout, -, hfull⟩ | ⟨m', hout, -⟩
    · rw [hout] at hf
      cases hf
    · rw [hout]
      exact hfull
    · rw [hout] at hf
      cases hf
  ask q f := by
    rcases Checked.outcome_ask h hm q with hout | ⟨e, hout⟩ <;> rw [hout] <;>
      exact fun hf => nomatch hf
  state_ask q := by
    rcases Checked.outcome_ask h hm q with hout | ⟨e, hout⟩ <;> rw [hout]
  laid := h.safelyLaid
  mirrored := ⟨m, hm, h, Checked.agree_perform h hm⟩

end LinkedMap

/-! ## Spaces -/

namespace LinkedGathering

/-- Carries out a call for a client with a buffer. What it answers does not matter to a
run. -/
def perform : Space.Call → Operation LinkedGathering RequestError Unit
  | .allocate hint size usage => onSpace do let _ ← LinkedSpace.allocate hint size usage
  | .reserve start size usage => onSpace (LinkedSpace.reserve start size usage)
  | .free address size => onSpace do let _ ← LinkedSpace.free address size
  | .gather size usage => do let _ ← allocate size usage
  | .freeGather pieces => onSpace (LinkedSpace.freeGather pieces)

theorem Mirrors.perform {g : LinkedGathering} {g' : Gathering} (h : g.Mirrors g')
    (c : Space.Call) : Agree Mirrors (LinkedGathering.perform c) c.perform g g' := by
  cases c with
  | allocate hint size usage =>
      exact h.onSpace ((h.space.allocate hint size usage).bind fun _ _ _ _ h₁ => .pure h₁ ())
  | reserve start size usage => exact h.onSpace (h.space.reserve start size usage)
  | free address size =>
      exact h.onSpace ((h.space.free address size).bind fun _ _ _ _ h₁ => .pure h₁ ())
  | gather size usage => exact (h.allocate size usage).bind fun _ _ _ _ h₁ => .pure h₁ ()
  | freeGather pieces => exact h.onSpace (h.space.freeGather pieces)

end LinkedGathering

namespace LinkedSpace

variable {arena : Arena} {s : LinkedSpace} {t : Space}

/-- The spaces over an arena that a run of any calls reaches without running out of slots. -/
inductive Reached (arena : Arena) : LinkedSpace → Prop
  | create (owner : Nat) {s : LinkedSpace}
      (h : ((LinkedSpace.create owner arena : Operation Unit RequestError LinkedSpace).run
        ()).verdict = .ok s) : Reached arena s
  | step {s : LinkedSpace} (hs : Reached arena s) (c : Space.Call) (buffer : List Range)
      (hslots : ¬ ((LinkedGathering.perform c).run ⟨s, buffer⟩).verdict.IsExhaustion) :
      Reached arena ((LinkedGathering.perform c).run ⟨s, buffer⟩).state.space

/-- A run over a linked map mirrors a run over one with lists. -/
theorem Reached.exists_mirrors (hs : Reached arena s) :
    ∃ t, Space.Reached arena t ∧ s.Mirrors t := by
  induction hs with
  | create owner h =>
      rw [Operation.verdict_run] at h
      cases hregion : Range.ofLength arena.start arena.size with
      | error e =>
          rw [outcome_create_of_error owner hregion] at h
          cases h
      | ok region =>
          obtain ⟨s', t, hs', ht, hmirrors⟩ := outcome_create (σ := Unit) owner hregion ()
          rw [hs'] at h
          obtain rfl := Verdict.ok.inj h
          exact ⟨t, .create owner (by rw [Operation.verdict_run, ht]), hmirrors⟩
  | @step s _ c buffer hslots ih =>
      obtain ⟨t, ht, hmirrors⟩ := ih
      have hboth : LinkedGathering.Mirrors ⟨s, buffer⟩ ⟨t, buffer⟩ := ⟨hmirrors, rfl⟩
      have hagree := hboth.perform c
      rw [Operation.verdict_run, hagree.verdict_eq] at hslots
      refine ⟨_, ht.step c buffer (by rwa [Operation.verdict_run]), ?_⟩
      rw [Operation.state_run, Operation.state_run]
      exact hagree.related.space

/-- What a space can be asked. -/
inductive Query
  | query (address : Nat)
  | bytesOf (usage : Usage)
  | largestFree

/-- Asks a space. What it answers does not matter. -/
def ask : Query → LinkedSpaceOperation Unit
  | .query address => do let _ ← query address
  | .bytesOf usage => do let _ ← bytesOf usage
  | .largestFree => do let _ ← largestFree

theorem Mirrors.outcome_ask (h : s.Mirrors t) (q : Query) : (ask q).outcome s = (.ok (), s) := by
  cases q with
  | query address => exact Operation.outcome_bind_ok (h.outcome_query address) _
  | bytesOf usage => exact Operation.outcome_bind_ok (h.outcome_bytesOf usage) _
  | largestFree => exact Operation.outcome_bind_ok h.outcome_largestFree _

/-- A call ends with a fault only if it leaves no slot for another extent, and whatever is
asked is answered. The checks change no answer: calls end as on a space over a map with
lists. -/
structure Safe (arena : Arena) (s : LinkedSpace) : Prop where
  perform : ∀ c buffer f, ((LinkedGathering.perform c).outcome ⟨s, buffer⟩).1 = .fault f →
    Slots.capacity ≤ ((LinkedGathering.perform c).outcome ⟨s, buffer⟩).2.space.map.size
  ask : ∀ q, (ask q).outcome s = (.ok (), s)
  laid : s.map.SafelyLaid
  mirrored : ∃ t, Space.Reached arena t ∧ s.Mirrors t ∧ ∀ c buffer,
    Agree LinkedGathering.Mirrors (LinkedGathering.perform c) c.perform ⟨s, buffer⟩ ⟨t, buffer⟩

theorem Reached.safe (hs : Reached arena s) : s.Safe arena := by
  obtain ⟨t, ht, h⟩ := hs.exists_mirrors
  have hagree : ∀ c buffer, Agree LinkedGathering.Mirrors (LinkedGathering.perform c) c.perform
      ⟨s, buffer⟩ ⟨t, buffer⟩ :=
    fun c buffer => LinkedGathering.Mirrors.perform ⟨h, rfl⟩ c
  refine ⟨fun c buffer f hf => ?_, h.outcome_ask, h.map.safelyLaid, t, ht, h, hagree⟩
  rw [(hagree c buffer).verdict_eq] at hf
  rw [(hagree c buffer).related.space.map.size_eq]
  exact ht.full_of_fault c buffer hf

theorem not_fault_create (owner : Nat) (arena : Arena) (f : Fault) :
    ((create owner arena : Operation Unit RequestError LinkedSpace).outcome ()).1 ≠ .fault f := by
  cases hregion : Range.ofLength arena.start arena.size with
  | error e =>
      rw [outcome_create_of_error owner hregion]
      exact fun hf => nomatch hf
  | ok region =>
      obtain ⟨s, t, hout, -⟩ := outcome_create (σ := Unit) owner hregion ()
      rw [hout]
      exact fun hf => nomatch hf

def created (arena : Arena) : LinkedSpace :=
  match ((create 0 arena : Operation Unit RequestError LinkedSpace).run ()).verdict with
  | .ok s => s
  | _ => default

theorem created_reached {arena : Arena} {region : Range}
    (h : Range.ofLength arena.start arena.size = .ok region) : Reached arena (created arena) := by
  obtain ⟨s, t, hout, -⟩ := outcome_create (σ := Unit) 0 h ()
  refine .create 0 ?_
  rw [created, Operation.verdict_run, hout]

end LinkedSpace

/-! ## Every run -/

/-- A map is created of every region, and a space over every arena unless it is refused. What
any calls lead to, whatever they are given, is safe: nothing that is asked there ends with a
fault, and a call does only if it leaves an index with as many extents as there are slot
numbers. -/
theorem every_run_is_safe :
    (∀ owner name region, ∃ x,
      (LinkedMap.create owner name region : Operation Unit ExtentError LinkedMap).outcome () =
        (.ok x, ())) ∧
      (∀ region x, LinkedMap.Checked.Reachable region x → x.Safe) ∧
      (∀ owner arena f, ((LinkedSpace.create owner arena :
        Operation Unit RequestError LinkedSpace).outcome ()).1 ≠ .fault f) ∧
      ∀ arena s, LinkedSpace.Reached arena s → s.Safe arena := by
  refine ⟨fun owner name region => ?_, fun region x hx => ?_, LinkedSpace.not_fault_create,
    fun arena s hs => hs.safe⟩
  · obtain ⟨x, m, hout, -⟩ := LinkedMap.outcome_create (σ := Unit) owner name region ()
    exact ⟨x, hout⟩
  · obtain ⟨m, h, hm⟩ := hx.exists_mirrors
    exact h.safe hm

/-- A region of nearly all addresses is deleted as a whole, and in the hole the page at its end
is tracked and given away. In an arena of the same addresses the page before it is reserved. -/
theorem every_run_is_safe_at_last_page :
    let region : Range := ⟨0, Word.bound - 1, by decide, by decide⟩
    let page : Range := ⟨Word.bound - 4096, Word.bound - 1, by decide, by decide⟩
    let x := LinkedMap.created region
    let x₁ := ((LinkedMap.Checked.perform (.delete region)).run x).state
    let x₂ := ((LinkedMap.Checked.perform (.insert page .free)).run x₁).state
    let x₃ := ((LinkedMap.Checked.perform (.reclaimAt page .inUse (some .free))).run x₂).state
    let s := LinkedSpace.created ⟨.physical, 0, Word.bound - 1⟩
    let s₁ := ((LinkedGathering.perform (.reserve (Word.bound - 8192) 4096 .inUse)).run
      ⟨s, []⟩).state.space
    (x₁.toList = [] ∧ x₃.toList.map (fun p => p.2.extent.range) = [page] ∧ x₃.Safe) ∧
      s₁.map.toList.map (fun p => p.2.extent.start) =
        [0, Word.bound - 8192, Word.bound - 4096] ∧
      s₁.Safe ⟨.physical, 0, Word.bound - 1⟩ := by
  intro region page x x₁ x₂ x₃ s s₁
  obtain ⟨hmaps, hmap, -, hspace⟩ := every_run_is_safe
  have hx : LinkedMap.Checked.Reachable region x := by
    obtain ⟨y, hout⟩ := hmaps 0 "ram" region
    refine .create 0 "ram" ?_
    simp only [x, LinkedMap.created, Operation.verdict_run, hout]
  obtain ⟨_, harena, -⟩ := Range.ofLength_eq_ok (show 0 < Word.bound - 1 by decide)
    (show 0 + (Word.bound - 1) < Word.bound by decide)
  have hreserve : ((LinkedGathering.perform (.reserve (Word.bound - 8192) 4096 .inUse)).run
      ⟨s, []⟩).verdict = .ok () := by decide +kernel
  exact ⟨⟨by decide +kernel, by decide +kernel, hmap region x₃ (((hx.step (.delete region)).step
    (.insert page .free)).step (.reclaimAt page .inUse (some .free)))⟩, by decide +kernel,
    hspace _ s₁ ((LinkedSpace.created_reached harena).step
      (.reserve (Word.bound - 8192) 4096 .inUse) []
      (Verdict.not_isExhaustion_of_ok hreserve))⟩

end KernelMemory
