import KernelMemory.Proofs.Extent.Reclaim

/-!
# Runs of mutations

A map starts as one free extent and is then changed by its mutators in any order, with any
arguments, refused or not. Every mutator keeps a map sound, so every map that a run reaches
is sound. A run ends where the slots do: of a map that has been left in the middle of a
change for lack of them, nothing is said but that it is sound.

`insert` and `delete` work on single extents and may leave holes and twins; the others keep
a partition. So the maps that a run reaches are described relative to the mutators that the
run may use.
-/

namespace KernelMemory

namespace ExtentMap

section Steps

variable {m : ExtentMap} {range : Range} {pre post : List (Handle × Extent)} {id : Handle}
variable {e : Extent}

/-! ## Single extents -/

theorem outcome_insert_of_outside (hin : m.region.encloses range = false) (usage : Usage) :
    (insert range usage).outcome m = (.error (.invalidRange range.start range.stop), m) := by
  rw [insert, Operation.outcome_get_bind, hin]
  rfl

/-- One extent that the range meets is enough, wherever it is in the tree. -/
theorem Sound.outcome_insert_of_overlap (h : m.Sound) (hin : m.region.encloses range = true)
    (hmeets : ∃ p ∈ m.toList, range.overlaps p.2.range = true) (usage : Usage) :
    (insert range usage).outcome m = (.error .overlap, m) := by
  rw [insert, Operation.outcome_get_bind, if_pos hin]
  cases hs : m.index.search Extent.keying range .exact with
  | none =>
      obtain ⟨p, hp, hover⟩ := hmeets
      have hne := (Tree.search_exact_eq_none_iff (h.ordered.sorts_compare range)).mp hs p hp
      exact absurd ((Range.compare_eq_eq_iff _ _).mpr hover) hne
  | some found =>
      refine Operation.outcome_bind_error ?_ _
      have hout : (Index.insert Extent.keying (.unlisted range usage usage)).outcome m.index =
        (.error (.collision found.1), m.index) := Index.outcome_insert_of_found hs
      rw [Operation.outcome_mapError, outcome_onIndex, hout]
      rfl

theorem Sound.outcome_insert_of_apart (h : m.Sound) (hin : m.region.encloses range = true)
    (hapart : ∀ p ∈ m.toList, range.overlaps p.2.range = false) (usage : Usage) :
    (∃ slots, (insert range usage).outcome m = (.fault (.slotsExhausted slots), m) ∧
        Slots.capacity ≤ m.size) ∨
      ∃ id m' pre post, (insert range usage).outcome m = (.ok id, m') ∧
        id ∉ m.toList.map Prod.fst ∧ m.toList = pre ++ post ∧
        m.Becomes (pre ++ (id, (Extent.unlisted range usage usage).listed) :: post) m' := by
  rw [insert, Operation.outcome_get_bind, if_pos hin]
  rcases h.outcome_insert_index (e := .unlisted range usage usage) hapart with
    ⟨slots, hout, hfull⟩ | ⟨id, ix, pre, post, hout, hg, hpre, hpost⟩
  · refine .inl ⟨slots, Operation.outcome_bind_fault ?_ _, hfull⟩
    rw [Operation.outcome_mapError, outcome_onIndex, hout]
  · refine .inr ⟨id, _, pre, post, ?_, hg.fresh, hg.before,
      h.becomes_gained rfl hg hpre hpost hin⟩
    rw [Operation.outcome_bind, Operation.outcome_mapError, outcome_onIndex, hout]
    simp only [Operation.outcome_modify_bind, note, bind_assoc, Operation.outcome_get_bind,
      Operation.outcome_note_bind, Operation.outcome_pure]

/-- The range and the extents decide how an insertion is answered, unless slots run out. -/
theorem Sound.outcome_insert (h : m.Sound) (range : Range) (usage : Usage) :
    (m.region.encloses range = false ∧
        (insert range usage).outcome m =
          (.error (.invalidRange range.start range.stop), m)) ∨
      (m.region.encloses range = true ∧ (∃ p ∈ m.toList, range.overlaps p.2.range = true) ∧
        (insert range usage).outcome m = (.error .overlap, m)) ∨
      m.region.encloses range = true ∧ (∀ p ∈ m.toList, range.overlaps p.2.range = false) ∧
        ((∃ slots, (insert range usage).outcome m = (.fault (.slotsExhausted slots), m) ∧
            Slots.capacity ≤ m.size) ∨
          ∃ id m' pre post, (insert range usage).outcome m = (.ok id, m') ∧
            id ∉ m.toList.map Prod.fst ∧ m.toList = pre ++ post ∧
            m.Becomes (pre ++ (id, (Extent.unlisted range usage usage).listed) :: post) m') := by
  by_cases hin : m.region.encloses range = true
  · by_cases hmeets : ∃ p ∈ m.toList, range.overlaps p.2.range = true
    · exact .inr (.inl ⟨hin, hmeets, h.outcome_insert_of_overlap hin hmeets usage⟩)
    · have hapart : ∀ p ∈ m.toList, range.overlaps p.2.range = false := fun p hp =>
        Bool.eq_false_iff.mpr fun hover => hmeets ⟨p, hp, hover⟩
      exact .inr (.inr ⟨hin, hapart, h.outcome_insert_of_apart hin hapart usage⟩)
  · have hout : m.region.encloses range = false := Bool.eq_false_iff.mpr hin
    exact .inl ⟨hout, outcome_insert_of_outside hout usage⟩

theorem Sound.insert_cases (h : m.Sound) (range : Range) (usage : Usage) :
    (∃ error, (insert range usage).outcome m = (.error error, m)) ∨
      (∃ slots, (insert range usage).outcome m = (.fault (.slotsExhausted slots), m) ∧
        Slots.capacity ≤ m.size) ∨
      ∃ id m' pre post, (insert range usage).outcome m = (.ok id, m') ∧
        m.toList = pre ++ post ∧
        m.Becomes (pre ++ (id, (Extent.unlisted range usage usage).listed) :: post) m' := by
  rcases h.outcome_insert range usage with
    ⟨-, hout⟩ | ⟨-, -, hout⟩ | ⟨-, -, hfull | ⟨id, m', pre, post, hout, -, hl, hm'⟩⟩
  · exact .inl ⟨_, hout⟩
  · exact .inl ⟨_, hout⟩
  · exact .inr (.inl hfull)
  · exact .inr (.inr ⟨id, m', pre, post, hout, hl, hm'⟩)

/-- A search by the range of an extent meets no other one. -/
theorem Sound.search_range (h : m.Sound) (hmem : (id, e) ∈ m.toList) :
    m.index.search Extent.keying e.range .exact = some (id, e) := by
  cases hs : m.index.search Extent.keying e.range .exact with
  | none =>
      have hne := (Tree.search_exact_eq_none_iff (h.ordered.sorts_compare e.range)).mp hs _ hmem
      exact absurd ((Range.compare_eq_eq_iff _ _).mpr e.range.overlaps_self) hne
  | some q =>
      have hmeets : e.range.overlaps q.2.range = true :=
        (Range.compare_eq_eq_iff _ _).mp (Tree.eq_of_search_exact hs)
      rw [h.ordered.eq_of_overlaps hmem (Tree.mem_of_search hs) hmeets]

theorem Sound.outcome_delete (h : m.Sound) (hl : m.toList = pre ++ (id, e) :: post) :
    ∃ m', (delete e.range).outcome m = (.ok { e with listedIn := none }, m') ∧
      m.Becomes (pre ++ post) m' := by
  have hmem : (id, e) ∈ m.toList := by simp [hl]
  obtain ⟨m', hout, hm'⟩ := h.outcome_displace hl
  refine ⟨m', ?_, hm'⟩
  rw [delete, Operation.outcome_get_bind, h.search_range hmem]
  show Operation.outcome (if e.range = e.range then _ else _) m = _
  rw [if_pos rfl, Operation.outcome_bind_ok hout]
  simp only [note, bind_assoc, Operation.outcome_get_bind, Operation.outcome_note_bind,
    Operation.outcome_pure]

/-- Extents that the range meets do not matter, nor which of them the search ends at. -/
theorem outcome_delete_of_untracked (hnone : ∀ p ∈ m.toList, p.2.range ≠ range) :
    (delete range).outcome m = (.error .notFound, m) := by
  rw [delete, Operation.outcome_get_bind]
  cases hs : m.index.search Extent.keying range .exact with
  | none => rfl
  | some found =>
      show Operation.outcome (if _ then _ else _) m = _
      rw [if_neg (hnone found (Tree.mem_of_search hs)), Operation.outcome_refuse]

theorem Sound.delete_cases (h : m.Sound) (range : Range) :
    (∃ error, (delete range).outcome m = (.error error, m)) ∨
      ∃ e m' pre id post, (delete range).outcome m = (.ok { e with listedIn := none }, m') ∧
        e.range = range ∧ m.toList = pre ++ (id, e) :: post ∧ m.Becomes (pre ++ post) m' := by
  by_cases htracked : ∃ p ∈ m.toList, p.2.range = range
  · obtain ⟨⟨id, e⟩, hmem, rfl⟩ := htracked
    obtain ⟨pre, post, hl⟩ := List.append_of_mem hmem
    obtain ⟨m', hout, hm'⟩ := h.outcome_delete hl
    exact .inr ⟨e, m', pre, id, post, hout, rfl, hl, hm'⟩
  · exact .inl ⟨_, outcome_delete_of_untracked fun p hp hrange => htracked ⟨p, hp, hrange⟩⟩

/-! ## Starting over -/

def seed (region : Range) : Extent :=
  (Extent.unlisted region .free .free).listed

/-- An index without extents has a slot to give, so starting over always succeeds. -/
theorem outcome_reset (h : m.index.Sound) :
    ∃ id m', reset.outcome m = (.ok (), m') ∧ m.Becomes [(id, seed m.region)] m' := by
  have hclear : Sound { m with index := m.index.clear, classes := .empty } :=
    ⟨h.clear, .empty, .nil, fun _ hp => (List.not_mem_nil hp).elim,
      fun _ hp => (List.not_mem_nil hp).elim⟩
  have hin : m.region.encloses m.region = true :=
    Range.encloses_iff.mpr ⟨Nat.le_refl _, Nat.le_refl _⟩
  have hempty : ({ m with index := m.index.clear, classes := .empty } : ExtentMap).toList =
      [] ++ [] := rfl
  have hnew : (Extent.unlisted m.region .free .free).listedIn = none := rfl
  rcases hclear.outcome_place hempty hnew (by simp) (by simp) hin .seeding with
    ⟨slots, -, hfull⟩ | ⟨id, m', hout, -, hm'⟩
  · exact absurd (show Slots.capacity ≤ 0 from hfull) (by decide)
  · refine ⟨id, m', ?_, ⟨hm'.name_eq, hm'.region_eq, hm'.owner_eq⟩, hm'.sound, hm'.toList_eq⟩
    rw [reset, Operation.outcome_modify_bind, Operation.outcome_get_bind,
      Operation.outcome_bind_ok hout, Operation.outcome_pure]

theorem outcome_create {σ : Type} (owner : Nat) (name : String) (region : Range) (s : σ) :
    ∃ id m, (create owner name region).outcome s = (.ok m, s) ∧ m.Sound ∧
      m.region = region ∧ m.toList = [(id, seed region)] := by
  obtain ⟨id, m, hout, hm⟩ :=
    outcome_reset (m := ⟨name, region, .empty owner, .empty⟩) (Index.sound_empty owner)
  refine ⟨id, m, ?_, hm.sound, hm.region_eq, hm.toList_eq⟩
  have hseeded : (do reset; note .info ("tracking " ++ region.text)).outcome
      ⟨name, region, .empty owner, .empty⟩ = (.ok (), m) := by
    rw [Operation.outcome_bind_ok hout, note, Operation.outcome_get_bind,
      Operation.outcome_note]
  rw [create, Operation.outcome_bind, Operation.outcome_build, hseeded]
  rfl

end Steps

/-! ## Runs -/

inductive Mutation
  | insert (range : Range) (usage : Usage)
  | delete (range : Range)
  | reclaim (target : Handle) (range : Range) (usage : Usage) (expected : Option Usage)
  | reclaimAt (range : Range) (usage : Usage) (expected : Option Usage)
  | merge (address : Nat)
  | reset
  deriving DecidableEq

namespace Mutation

/-- Carries out a call. What it answers does not matter to a run. -/
def perform : Mutation → ExtentOperation Unit
  | .insert range usage => do let _ ← ExtentMap.insert range usage
  | .delete range => do let _ ← ExtentMap.delete range
  | .reclaim target range usage expected => do
    let _ ← ExtentMap.reclaim target range usage expected
  | .reclaimAt range usage expected => do let _ ← ExtentMap.reclaimAt range usage expected
  | .merge address => do let _ ← ExtentMap.merge address
  | .reset => ExtentMap.reset

/-- Whether a call keeps a partition: those that work on single extents do not. -/
def KeepsPartition : Mutation → Prop
  | .insert .. | .delete .. => False
  | .reclaim .. | .reclaimAt .. | .merge .. | .reset => True

/-- What a call that is answered does. -/
def Effect (m m' : ExtentMap) : Mutation → Prop
  | .insert range usage => ∃ id pre post, m.toList = pre ++ post ∧
      m.Becomes (pre ++ (id, (Extent.unlisted range usage usage).listed) :: post) m'
  | .delete range => ∃ pre id e post, e.range = range ∧ m.toList = pre ++ (id, e) :: post ∧
      m.Becomes (pre ++ post) m'
  | .reclaim _ range usage _ | .reclaimAt range usage _ => ∃ id, Retyped m range usage id m'
  | .merge _ => ∃ id, Coalesced m id m'
  | .reset => ∃ id, m.Becomes [(id, seed m.region)] m'

end Mutation

/-- Every call is refused without a change, runs out of slots, or has its effect. -/
theorem Sound.perform_cases {m : ExtentMap} (h : m.Sound) (c : Mutation) :
    (∃ error, c.perform.outcome m = (.error error, m)) ∨
      (∃ slots m', c.perform.outcome m = (.fault (.slotsExhausted slots), m') ∧ m'.Sound ∧
        Slots.capacity ≤ m'.size) ∨
      ∃ m', c.perform.outcome m = (.ok (), m') ∧ c.Effect m m' := by
  cases c with
  | insert range usage =>
      rcases h.insert_cases range usage with
        ⟨_, hout⟩ | ⟨slots, hout, hfull⟩ | ⟨id, m', pre, post, hout, heffect⟩
      · exact .inl ⟨_, Operation.outcome_bind_error hout _⟩
      · exact .inr (.inl ⟨slots, m, Operation.outcome_bind_fault hout _, h, hfull⟩)
      · exact .inr (.inr ⟨m', Operation.outcome_bind_ok hout _, id, pre, post, heffect⟩)
  | delete range =>
      rcases h.delete_cases range with ⟨_, hout⟩ | ⟨e, m', pre, id, post, hout, heffect⟩
      · exact .inl ⟨_, Operation.outcome_bind_error hout _⟩
      · exact .inr (.inr ⟨m', Operation.outcome_bind_ok hout _, pre, id, e, post, heffect⟩)
  | reclaim target range usage expected =>
      rcases h.reclaim_cases target range usage expected with
        ⟨_, hout⟩ | ⟨slots, m', hout, hfull⟩ | ⟨id, m', hout, heffect⟩
      · exact .inl ⟨_, Operation.outcome_bind_error hout _⟩
      · exact .inr (.inl ⟨slots, m', Operation.outcome_bind_fault hout _, hfull⟩)
      · exact .inr (.inr ⟨m', Operation.outcome_bind_ok hout _, id, heffect⟩)
  | reclaimAt range usage expected =>
      rcases h.reclaimAt_cases range usage expected with
        ⟨_, hout⟩ | ⟨slots, m', hout, hfull⟩ | ⟨id, m', hout, heffect⟩
      · exact .inl ⟨_, Operation.outcome_bind_error hout _⟩
      · exact .inr (.inl ⟨slots, m', Operation.outcome_bind_fault hout _, hfull⟩)
      · exact .inr (.inr ⟨m', Operation.outcome_bind_ok hout _, id, heffect⟩)
  | merge address =>
      rcases h.merge_cases address with ⟨hout, -⟩ | ⟨id, e, m', -, hout, heffect⟩
      · exact .inl ⟨_, Operation.outcome_bind_error hout _⟩
      · exact .inr (.inr ⟨m', Operation.outcome_bind_ok hout _, id, heffect⟩)
  | reset =>
      obtain ⟨id, m', hout, heffect⟩ := outcome_reset h.index
      exact .inr (.inr ⟨m', hout, id, heffect⟩)

theorem Mutation.Effect.sound {m m' : ExtentMap} {c : Mutation} (he : c.Effect m m')
    (h : m.Sound) : m'.Sound := by
  cases c with
  | insert => obtain ⟨_, _, _, _, hm'⟩ := he; exact hm'.sound
  | delete => obtain ⟨_, _, _, _, _, _, hm'⟩ := he; exact hm'.sound
  | reclaim => obtain ⟨_, hm'⟩ := he; exact hm'.sound h
  | reclaimAt => obtain ⟨_, hm'⟩ := he; exact hm'.sound h
  | merge => obtain ⟨_, hm'⟩ := he; exact hm'.sound
  | reset => obtain ⟨_, hm'⟩ := he; exact hm'.sound

/-- However a call ends, also in the middle of a change for lack of slots, it leaves a sound
map. -/
theorem Sound.perform {m : ExtentMap} (h : m.Sound) (c : Mutation) :
    (c.perform.outcome m).2.Sound := by
  rcases h.perform_cases c with
    ⟨error, hout⟩ | ⟨slots, m', hout, hsound, -⟩ | ⟨m', hout, heffect⟩
  · rw [hout]
    exact h
  · rw [hout]
    exact hsound
  · rw [hout]
    exact heffect.sound h

theorem Mutation.Effect.sameFrame {m m' : ExtentMap} {c : Mutation} (he : c.Effect m m') :
    m.SameFrame m' := by
  cases c with
  | insert => obtain ⟨_, _, _, _, hm'⟩ := he; exact hm'.toSameFrame
  | delete => obtain ⟨_, _, _, _, _, _, hm'⟩ := he; exact hm'.toSameFrame
  | reclaim => obtain ⟨_, hm'⟩ := he; exact hm'.sameFrame
  | reclaimAt => obtain ⟨_, hm'⟩ := he; exact hm'.sameFrame
  | merge => obtain ⟨_, hm'⟩ := he; exact hm'.sameFrame
  | reset => obtain ⟨_, hm'⟩ := he; exact hm'.toSameFrame

/-- The maps of `region` that a run of allowed mutations reaches without running out of
slots. A refused call is a step of a run like any other. -/
inductive Reachable (allowed : Mutation → Prop) (region : Range) : ExtentMap → Prop
  | create (owner : Nat) (name : String) {m : ExtentMap}
      (h : ((ExtentMap.create owner name region : Operation Unit ExtentError ExtentMap).run
        ()).verdict = .ok m) : Reachable allowed region m
  | step {m : ExtentMap} (hm : Reachable allowed region m) (c : Mutation) (hc : allowed c)
      (hslots : ¬ (c.perform.run m).verdict.IsExhaustion) :
      Reachable allowed region (c.perform.run m).state

def created (region : Range) : ExtentMap :=
  match ((create 0 "ram" region : Operation Unit ExtentError ExtentMap).run ()).verdict with
  | .ok m => m
  | _ => default

theorem verdict_create (region : Range) :
    ((create 0 "ram" region : Operation Unit ExtentError ExtentMap).run ()).verdict =
      .ok (created region) := by
  obtain ⟨id, m, hout, -⟩ := outcome_create (σ := Unit) 0 "ram" region ()
  have hverdict : ((create 0 "ram" region : Operation Unit ExtentError ExtentMap).run
      ()).verdict = .ok m := by
    rw [Operation.verdict_run, hout]
  unfold created
  rw [hverdict]

theorem created_reachable (allowed : Mutation → Prop) (region : Range) :
    Reachable allowed region (created region) :=
  .create 0 "ram" (verdict_create region)

/-- What holds of a region that is free as a whole, and is kept by every call that is
answered, holds of every reachable map. -/
theorem Reachable.invariant {allowed : Mutation → Prop} {region : Range} {m : ExtentMap}
    (hm : Reachable allowed region m) {P : ExtentMap → Prop}
    (hcreate : ∀ m id, m.Sound → m.region = region → m.toList = [(id, seed region)] → P m)
    (hstep : ∀ m m' c, m.Sound → m.region = region → P m → allowed c → c.Effect m m' → P m') :
    m.Sound ∧ m.region = region ∧ P m := by
  induction hm with
  | create owner name h =>
      obtain ⟨id, m, hout, hsound, hregion, hl⟩ :=
        outcome_create (σ := Unit) owner name region ()
      rw [Operation.verdict_run, hout] at h
      obtain rfl := Verdict.ok.inj h
      exact ⟨hsound, hregion, hcreate m id hsound hregion hl⟩
  | @step m _ c hc hslots ih =>
      obtain ⟨hsound, hregion, hp⟩ := ih
      rw [Operation.state_run]
      rw [Operation.verdict_run] at hslots
      rcases hsound.perform_cases c with
        ⟨_, hout⟩ | ⟨slots, m', hout, -⟩ | ⟨m', hout, heffect⟩
      · rw [hout]
        exact ⟨hsound, hregion, hp⟩
      · exact absurd ⟨slots, by rw [hout]⟩ hslots
      · rw [hout]
        exact ⟨heffect.sound hsound, heffect.sameFrame.region_eq.trans hregion,
          hstep m m' c hsound hregion hp hc heffect⟩

theorem Reachable.sound {allowed : Mutation → Prop} {region : Range} {m : ExtentMap}
    (hm : Reachable allowed region m) : m.Sound :=
  (hm.invariant (P := fun _ => True) (fun _ _ _ _ _ => trivial)
    fun _ _ _ _ _ _ _ _ => trivial).1

end ExtentMap

end KernelMemory
