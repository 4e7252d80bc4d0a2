import KernelMemory.Proofs.Extent.Mirror

/-!
# Operations in lockstep

The operations of a linked map are blocks of the same lines as those of the map that it
mirrors. Each of them is taken through line by line: as long as the maps mirror each other,
what one line reads is the same in both, so the blocks go the same way. Two lines need to
know more than that. Linking needs an extent that is in no class, which the line before it
has seen to, and an extent is only removed from the index after it was unlinked.
-/

namespace KernelMemory

open Operation (Agree)

namespace ExtentMap

variable {m m' : ExtentMap} {id : Handle}

theorem unlisted_delist (h : m.Holds m.toList) (id : Handle) : (m.delist id).Unlisted id := by
  intro e hget
  cases hget' : m.get? id with
  | none =>
      have hu : m.Unlisted id := by
        intro d hd
        rw [hget'] at hd
        cases hd
      rw [delist_of_unlisted hu] at hget
      exact hu e hget
  | some d =>
      obtain ⟨pre, post, hl⟩ := exists_split hget'
      have hself := (hl ▸ h : m.Holds _).delist.get?_eq
      rw [hself] at hget
      obtain rfl := Option.some.inj hget
      rfl

theorem Unlisted.modify (h : m.Unlisted id) {f : Extent → Extent}
    (hf : ∀ e, (f e).listedIn = e.listedIn) : (m.modify id f).Unlisted id := by
  intro e hget
  have hmodify := Index.get?_modify m.index id id f
  rw [if_pos rfl] at hmodify
  obtain ⟨d, hd, rfl⟩ := Option.map_eq_some_iff.mp (hmodify.symm.trans hget)
  rw [hf, h d hd]

/-- An extent that has just come into the index is in no class. -/
theorem unlisted_of_inserted (h : m.index.Sound) {range : Range} {usage previous : Usage}
    (hout : (onIndex (Index.insert Extent.keying (.unlisted range usage previous))).outcome m =
      ((.ok id : Verdict IndexError Handle), m')) : m'.Unlisted id := by
  rw [outcome_onIndex, Prod.mk.injEq] at hout
  obtain ⟨hverdict, rfl⟩ := hout
  intro e hget
  rcases h.insert_cases Extent.keying (.unlisted range usage previous) with
    ⟨_, -, hcase⟩ | ⟨_, hcase, -⟩ | ⟨id', ix, pre, post, hcase, hg, -⟩
  · rw [hcase] at hverdict
    cases hverdict
  · rw [hcase] at hverdict
    cases hverdict
  · rw [hcase] at hverdict hget
    obtain rfl := Verdict.ok.inj hverdict
    have hnew := hg.sound.get?_of_split hg.after
    obtain rfl := Option.some.inj (hnew.symm.trans hget)
    rfl

end ExtentMap

namespace LinkedMap

/-! ## The cuts of a linked map -/

def cutFront (target : Handle) (whole : Extent) (range : Range) (usage : Usage)
    (inside : whole.range.encloses range = true) : LinkedMapOperation Handle := do
  shrink target whole range usage inside
  if whole.range.start < range.start then
    place (.unlisted range usage whole.usage) .splitting
  else
    return target

def cutBack (whole : Extent) (range : Range) : LinkedMapOperation Unit := do
  if h : range.stop < whole.range.stop then
    let _ ← place (.unlisted (whole.range.dropTo range.stop h) whole.usage whole.previous)
      .splitting

theorem carve_eq (target : Handle) (whole : Extent) (range : Range) (usage : Usage)
    (inside : whole.range.encloses range = true) :
    carve target whole range usage inside = (do
      let middle ← cutFront target whole range usage inside
      cutBack whole range
      note .debug
        ("reclaim " ++ range.text ++ " " ++ whole.usage.text ++ " -> " ++ usage.text)
      mergeAround middle) := by
  unfold carve cutFront cutBack
  split <;> split <;> simp only [bind_assoc, pure_bind]

namespace Mirrors

variable {x : LinkedMap} {m : ExtentMap} {id : Handle}

/-! ## Steps -/

theorem note (h : x.Mirrors m) (level : Level) (text : String) :
    Agree Mirrors (LinkedMap.note level text) (ExtentMap.note level text) x m := by
  refine .get_bind ?_
  rw [h.name_eq]
  exact .note h level _

theorem broken {α : Type} (h : x.Mirrors m) (cause : Breakage) :
    Agree Mirrors (LinkedMap.broken cause : LinkedMapOperation α) (ExtentMap.broken cause)
      x m := by
  refine .get_bind ?_
  rw [h.name_eq]
  exact .crash h _

theorem resolve (h : x.Mirrors m) (id : Handle) :
    Agree Mirrors (LinkedMap.resolve id) (ExtentMap.resolve id) x m := by
  refine .get_bind ?_
  rw [h.get?_eq]
  cases x.extent? id with
  | none => exact h.broken _
  | some e => exact .pure h e

/-- An extent is changed while it is in no class. -/
theorem relist (h : x.Mirrors m) (id : Handle) {f : Extent → Extent}
    (hf : ∀ e, (f e).listedIn = e.listedIn) :
    Agree Mirrors (LinkedMap.relist id f)
      (Operation.modify fun m => ((m.delist id).modify id f).list id) x m := by
  have hu : (m.delist id).Unlisted id := ExtentMap.unlisted_delist h.holds id
  obtain ⟨_, x₁, _, hout₁, heq₁, h₁⟩ := (h.delist id).exists_outcome
  obtain ⟨rfl, rfl⟩ := Prod.mk.inj ((Operation.outcome_modify _ _).symm.trans heq₁)
  have h₂ := h₁.modify hu (g := fun e => { e with extent := f e.extent }) (fun _ => rfl)
    fun e hlisted hbefore hafter => ⟨(hf _).trans hlisted, hbefore, hafter⟩
  obtain ⟨_, x₃, _, hout₃, heq₃, h₃⟩ := (h₂.list (hu.modify hf)).exists_outcome
  obtain ⟨rfl, rfl⟩ := Prod.mk.inj ((Operation.outcome_modify _ _).symm.trans heq₃)
  refine .of_outcome ?_ (Operation.outcome_modify _ _) h₃
  rw [LinkedMap.relist, Operation.outcome_bind_ok hout₁, LinkedMap.alter,
    Operation.outcome_modify_bind, hout₃]

/-! ## The index -/

theorem outcome_onIndex {ε α : Type} (op : Operation (Index LinkedExtent) ε α) (x : LinkedMap) :
    (LinkedMap.onIndex op).outcome x =
      ((op.outcome x.index).1, x.withIndex (op.outcome x.index).2) := rfl

theorem onIndex {ε α : Type} {op : Operation (Index LinkedExtent) ε α}
    {op' : Operation (Index Extent) ε α} (hmap : op'.outcome m.index =
      ((op.outcome x.index).1, (op.outcome x.index).2.map LinkedExtent.extent))
    (h : (x.withIndex (op.outcome x.index).2).Mirrors
      { m with index := (op.outcome x.index).2.map LinkedExtent.extent }) :
    Agree Mirrors (LinkedMap.onIndex op) (ExtentMap.onIndex op') x m := by
  have hout : (ExtentMap.onIndex op').outcome m = ((op.outcome x.index).1,
      { m with index := (op.outcome x.index).2.map LinkedExtent.extent }) := by
    rw [ExtentMap.outcome_onIndex, hmap]
  exact .of_outcome (outcome_onIndex op x) hout h

/-- An extent comes in that is in no class. -/
theorem gained (h : x.Mirrors m) {e : LinkedExtent} {ix : Index LinkedExtent}
    {pre post : List (Handle × LinkedExtent)} (hg : x.index.Gained id e pre post ix)
    (hroom : ix.slots.cells.size ≤ Slots.capacity)
    (he : e.extent.listedIn = none ∧ e.before = none ∧ e.after = none) :
    (x.withIndex ix).Mirrors { m with index := ix.map LinkedExtent.extent } := by
  have hget : ∀ k d, ix.get? k = some d ↔ (k, d) = (id, e) ∨ x.get? k = some d := by
    intro k d
    rw [hg.sound.get?_eq_some_iff, hg.after, LinkedMap.get?, h.sound.get?_eq_some_iff, hg.before]
    simp only [List.mem_append, List.mem_cons]
    exact or_left_comm
  refine h.withIndex hg.sound hroom ?_ ?_
  · intro k d hlisted
    rw [hget]
    refine or_iff_right fun heq => ?_
    obtain ⟨-, rfl⟩ := Prod.mk.inj heq
    rw [he.1] at hlisted
    cases hlisted
  · intro k d hd hnone
    rcases (hget k d).mp hd with heq | hd
    · obtain ⟨-, rfl⟩ := Prod.mk.inj heq
      exact he.2
    · exact h.loose k d hd hnone

/-- An extent goes that is in no class. -/
theorem lost (h : x.Mirrors m) (hu : m.Unlisted id) {e : LinkedExtent} {ix : Index LinkedExtent}
    {pre post : List (Handle × LinkedExtent)} (hl : x.index.Lost id e pre post ix)
    (hroom : ix.slots.cells.size ≤ Slots.capacity) :
    (x.withIndex ix).Mirrors { m with index := ix.map LinkedExtent.extent } := by
  have hget : ∀ k d, x.get? k = some d ↔ (k, d) = (id, e) ∨ ix.get? k = some d := by
    intro k d
    rw [hl.sound.get?_eq_some_iff, hl.after, LinkedMap.get?, h.sound.get?_eq_some_iff, hl.before]
    simp only [List.mem_append, List.mem_cons]
    exact or_left_comm
  have hnone : e.extent.listedIn = none :=
    hu e.extent (h.get?_of ((hget id e).mpr (.inl rfl)))
  refine h.withIndex hl.sound hroom ?_ ?_
  · intro k d hlisted
    rw [hget]
    refine (or_iff_right fun heq => ?_).symm
    obtain ⟨-, rfl⟩ := Prod.mk.inj heq
    rw [hnone] at hlisted
    cases hlisted
  · exact fun k d hd => h.loose k d ((hget k d).mpr (.inr hd))

theorem onIndex_insert (h : x.Mirrors m) (range : Range) (usage previous : Usage) :
    Agree Mirrors
      (LinkedMap.onIndex (Index.insert LinkedExtent.keying (.unlisted range usage previous)))
      (ExtentMap.onIndex (Index.insert Extent.keying (.unlisted range usage previous))) x m := by
  have hmap := Index.outcome_insert_map LinkedExtent.extent LinkedExtent.keying Extent.keying
    (.unlisted range usage previous) rfl x.index
  rw [h.index_eq] at hmap
  have hroom := Index.size_slots_insert h.room LinkedExtent.keying
    (.unlisted range usage previous)
  have hself : (x.withIndex x.index).Mirrors
      { m with index := x.index.map LinkedExtent.extent } := by
    rw [h.index_eq]
    exact h
  refine onIndex hmap ?_
  rcases h.sound.insert_cases LinkedExtent.keying (.unlisted range usage previous) with
    ⟨_, -, hout⟩ | ⟨_, hout, -⟩ | ⟨id, ix, pre, post, hout, hg, -⟩
  · rw [hout]
    exact hself
  · rw [hout]
    exact hself
  · rw [hout] at hroom ⊢
    exact h.gained hg hroom ⟨rfl, rfl, rfl⟩

/-- Removing an extent answers what is left of it without its links. -/
theorem onIndex_remove (h : x.Mirrors m) (hu : m.Unlisted id) :
    Agree Mirrors (LinkedMap.onIndex (LinkedExtent.extent <$> Index.remove id))
      (ExtentMap.onIndex (Index.remove id)) x m := by
  have hmap := Index.outcome_remove_map LinkedExtent.extent x.index id
  rw [h.index_eq] at hmap
  refine onIndex hmap ?_
  rw [Operation.state_map]
  by_cases hid : id ∈ x.index.tree.handles
  · obtain ⟨e, hmem⟩ := Tree.mem_handles.mp hid
    obtain ⟨pre, post, hl⟩ := List.append_of_mem hmem
    obtain ⟨ix, hout, hlost⟩ := h.sound.outcome_remove hl
    have hroom := Index.size_slots_remove h.room id
    rw [hout] at hroom ⊢
    exact h.lost hu hlost hroom
  · rw [Index.outcome_remove_of_stale hid, h.index_eq]
    exact h

theorem place (h : x.Mirrors m) (range : Range) (usage previous : Usage)
    (cause : IndexError → Breakage) :
    Agree Mirrors (LinkedMap.place (.unlisted range usage previous) cause)
      (ExtentMap.place (.unlisted range usage previous) cause) x m := by
  refine (h.onIndex_insert range usage previous).attempt.bind fun answer x₁ m₁ hout h₁ => ?_
  cases answer with
  | ok id =>
      have hu := ExtentMap.unlisted_of_inserted h.index_sound (Operation.outcome_of_attempt hout)
      exact (h₁.list hu).bind fun _ _ _ _ h₂ => .pure h₂ id
  | error error => exact h₁.broken _

/-- Only the extent is answered, so the links may be dropped as soon as it is removed. -/
theorem outcome_detach (x : LinkedMap) (id : Handle) :
    Operation.outcome (do
      match ← (LinkedMap.onIndex (Index.remove id)).attempt with
      | .ok e => return e.extent
      | .error error => (LinkedMap.broken (.removing error) : LinkedMapOperation Extent)) x =
    Operation.outcome (do
      match ← (LinkedMap.onIndex (LinkedExtent.extent <$> Index.remove id)).attempt with
      | .ok e => return e
      | .error error => (LinkedMap.broken (.removing error) : LinkedMapOperation Extent)) x := by
  simp only [Operation.outcome_bind, Operation.outcome_attempt, outcome_onIndex,
    Operation.outcome_map]
  rcases (Index.remove id).outcome x.index with ⟨verdict, ix⟩
  cases verdict <;> rfl

theorem displace (h : x.Mirrors m) (id : Handle) :
    Agree Mirrors (LinkedMap.displace id) (ExtentMap.displace id) x m := by
  refine (h.delist id).bind fun _ x₁ m₁ hout h₁ => .congr_outcome (outcome_detach x₁ id) ?_
  obtain ⟨-, rfl⟩ := Prod.mk.inj ((Operation.outcome_modify _ _).symm.trans hout)
  have hremove := h₁.onIndex_remove (ExtentMap.unlisted_delist h.holds id)
  refine hremove.attempt.bind fun answer _ _ _ h₂ => ?_
  cases answer with
  | ok e => exact .pure h₂ e
  | error error => exact h₂.broken _

/-! ## Merging -/

/-- A choice by two conditions is one by the first and then one by the second. -/
theorem dite_and_eq {α : Type} {p q : Prop} [Decidable p] [Decidable q] (a : p → α) (b : α) :
    (if h : p ∧ q then a h.1 else b) = if h : p then if q then a h else b else b := by
  by_cases hp : p <;> by_cases hq : q <;> simp [hp, hq]

theorem leftTwin?_eq (h : x.Mirrors m) (id : Handle) (e : Extent) :
    m.leftTwin? id e = x.leftTwin? id e := by
  rw [ExtentMap.leftTwin?, LinkedMap.leftTwin?, ← h.index_eq, Index.predecessor?_map]
  simp only [h.get?_eq]
  exact Option.bind_congr fun other _ => Option.bind_congr fun l _ =>
    dite_and_eq (fun meets => some (other, l.range.join e.range meets)) none

theorem rightTwin?_eq (h : x.Mirrors m) (id : Handle) (e : Extent) :
    m.rightTwin? id e = x.rightTwin? id e := by
  rw [ExtentMap.rightTwin?, LinkedMap.rightTwin?, ← h.index_eq, Index.successor?_map]
  simp only [h.get?_eq]
  exact Option.bind_congr fun other _ => Option.bind_congr fun r _ =>
    dite_and_eq (fun meets => some (other, e.range.join r.range meets)) none

theorem find?_eq (h : x.Mirrors m) (address : Nat) :
    m.find? address = (x.find? address).map fun p => (p.1, p.2.extent) := by
  rw [ExtentMap.find?, ← h.index_eq]
  exact Tree.search_map LinkedExtent.extent x.index.tree _ .exact

theorem absorb (h : x.Mirrors m) (other id : Handle) (range joined : Range) :
    Agree Mirrors (LinkedMap.absorb other id range joined)
      (ExtentMap.absorb other id range joined) x m := by
  refine (h.displace other).bind fun absorbed _ _ _ h₁ => ?_
  refine (h₁.relist id (f := fun e => { e with range := joined }) fun _ => rfl).bind
    fun _ _ _ _ h₂ => ?_
  exact h₂.note .debug _

theorem mergeUpTo (h : x.Mirrors m) (fuel : Nat) (id : Handle) :
    Agree Mirrors (LinkedMap.mergeUpTo fuel id) (ExtentMap.mergeUpTo fuel id) x m := by
  induction fuel generalizing x m with
  | zero => exact .pure h id
  | succ fuel ih =>
      refine (h.resolve id).bind fun e x₁ m₁ _ h₁ => .get_bind ?_
      rw [h₁.leftTwin?_eq, h₁.rightTwin?_eq]
      cases (x₁.leftTwin? id e).or (x₁.rightTwin? id e) with
      | none => exact .pure h₁ id
      | some twin => exact (h₁.absorb twin.1 id e.range twin.2).bind fun _ _ _ _ h₂ => ih h₂

theorem mergeAround (h : x.Mirrors m) (id : Handle) :
    Agree Mirrors (LinkedMap.mergeAround id) (ExtentMap.mergeAround id) x m := by
  refine .get_bind ?_
  rw [h.size_eq]
  exact h.mergeUpTo m.size id

theorem merge (h : x.Mirrors m) (address : Nat) :
    Agree Mirrors (LinkedMap.merge address) (ExtentMap.merge address) x m := by
  refine .get_bind ?_
  rw [h.find?_eq]
  cases x.find? address with
  | none => exact .refuse h _
  | some found => exact h.mergeAround found.1

/-! ## Cutting -/

theorem shrink (h : x.Mirrors m) (target : Handle) (whole : Extent) (range : Range)
    (usage : Usage) (inside : whole.range.encloses range = true) :
    Agree Mirrors (LinkedMap.shrink target whole range usage inside)
      (ExtentMap.shrink target whole range usage inside) x m := by
  refine h.relist target fun e => ?_
  split <;> rfl

theorem cutFront (h : x.Mirrors m) (target : Handle) (whole : Extent) (range : Range)
    (usage : Usage) (inside : whole.range.encloses range = true) :
    Agree Mirrors (LinkedMap.cutFront target whole range usage inside)
      (ExtentMap.cutFront target whole range usage inside) x m := by
  refine (h.shrink target whole range usage inside).bind fun _ _ _ _ h₁ => ?_
  split
  · exact h₁.place range usage whole.usage .splitting
  · exact .pure h₁ target

theorem cutBack (h : x.Mirrors m) (whole : Extent) (range : Range) :
    Agree Mirrors (LinkedMap.cutBack whole range) (ExtentMap.cutBack whole range) x m := by
  rw [LinkedMap.cutBack, ExtentMap.cutBack]
  split
  · exact (h.place _ whole.usage whole.previous .splitting).bind fun _ _ _ _ h₁ => .pure h₁ ()
  · exact .pure h ()

theorem carve (h : x.Mirrors m) (target : Handle) (whole : Extent) (range : Range)
    (usage : Usage) (inside : whole.range.encloses range = true) :
    Agree Mirrors (LinkedMap.carve target whole range usage inside)
      (ExtentMap.carve target whole range usage inside) x m := by
  rw [LinkedMap.carve_eq, ExtentMap.carve_eq]
  refine (h.cutFront target whole range usage inside).bind fun middle _ _ _ h₁ => ?_
  refine (h₁.cutBack whole range).bind fun _ _ _ _ h₂ => ?_
  exact (h₂.note .debug _).bind fun _ _ _ _ h₃ => h₃.mergeAround middle

theorem reclaim (h : x.Mirrors m) (target : Handle) (range : Range) (usage : Usage)
    (expected : Option Usage) :
    Agree Mirrors (LinkedMap.reclaim target range usage expected)
      (ExtentMap.reclaim target range usage expected) x m := by
  refine .get_bind ?_
  rw [h.get?_eq]
  cases x.extent? target with
  | none => exact .refuse h _
  | some whole =>
      by_cases inside : whole.range.encloses range = true
      · simp only [dif_pos inside]
        cases expected.filter (· ≠ whole.usage) with
        | some other => exact .refuse h _
        | none =>
            by_cases husage : whole.usage = usage
            · simp only [if_pos husage]
              exact .pure h target
            · simp only [if_neg husage]
              exact h.carve target whole range usage inside
      · simp only [dif_neg inside]
        exact (h.note .warn _).bind fun _ _ _ _ h₁ => .refuse h₁ _

theorem reclaimAt (h : x.Mirrors m) (range : Range) (usage : Usage) (expected : Option Usage) :
    Agree Mirrors (LinkedMap.reclaimAt range usage expected)
      (ExtentMap.reclaimAt range usage expected) x m := by
  refine .get_bind ?_
  rw [h.find?_eq]
  cases x.find? range.start with
  | none => exact .refuse h _
  | some found => exact h.reclaim found.1 range usage expected

/-! ## Single extents -/

theorem insert (h : x.Mirrors m) (range : Range) (usage : Usage) :
    Agree Mirrors (LinkedMap.insert range usage) (ExtentMap.insert range usage) x m := by
  refine .get_bind ?_
  rw [h.region_eq]
  split
  · refine ((h.onIndex_insert range usage usage).mapError _).bind fun id x₁ m₁ hout h₁ => ?_
    have hu := ExtentMap.unlisted_of_inserted h.index_sound (Operation.outcome_of_mapError hout)
    refine (h₁.list hu).bind fun _ _ _ _ h₂ => ?_
    exact (h₂.note .debug _).bind fun _ _ _ _ h₃ => .pure h₃ id
  · exact .refuse h _

theorem delete (h : x.Mirrors m) (range : Range) :
    Agree Mirrors (LinkedMap.delete range) (ExtentMap.delete range) x m := by
  refine .get_bind ?_
  have hsearch : m.index.search Extent.keying range .exact =
      (x.index.search LinkedExtent.keying range .exact).map fun p => (p.1, p.2.extent) := by
    rw [← h.index_eq]
    exact Tree.search_map LinkedExtent.extent x.index.tree _ .exact
  rw [hsearch]
  cases x.index.search LinkedExtent.keying range .exact with
  | none => exact .refuse h _
  | some found =>
      simp only [Option.map_some]
      split
      · refine (h.displace found.1).bind fun e _ _ _ h₁ => ?_
        exact (h₁.note .debug _).bind fun _ _ _ _ h₂ => .pure h₂ e
      · exact .refuse h _

/-! ## Starting over -/

/-- Maps without extents mirror each other. -/
theorem of_toList_eq_nil (name : String) (region : Range) {ix : Index LinkedExtent}
    (hs : ix.Sound) (hroom : ix.slots.cells.size ≤ Slots.capacity) (hnil : ix.toList = []) :
    Mirrors ⟨name, region, ix, LinkedMap.empty⟩
      ⟨name, region, ix.map LinkedExtent.extent, .empty⟩ where
  name_eq := rfl
  region_eq := rfl
  index_eq := rfl
  sound := hs
  room := hroom
  lists := by
    rw [ExtentMap.toList, Index.toList_map, hnil]
    exact .empty
  class_eq index hindex := by
    have hlt : index < 64 := hindex
    simp [classOf, LinkedMap.empty, hlt]
  threads index := by
    rw [SizeClasses.get_empty]
    exact .nil _
  loose id e hget _ := by
    have hmem : (id, e) ∈ ix.toList := hs.get?_eq_some_iff.mp hget
    rw [hnil] at hmem
    cases hmem

theorem reset (h : x.Mirrors m) : Agree Mirrors LinkedMap.reset ExtentMap.reset x m := by
  have hclear := of_toList_eq_nil x.name x.region h.sound.clear
    (Nat.le_trans (Nat.le_of_eq (Slots.size_clear x.index.slots)) h.room) rfl
  rw [Index.map_clear, h.index_eq] at hclear
  refine .bind (.modify (t := m) ?_) fun _ x₁ m₁ _ h₁ => .get_bind ?_
  · rw [h.name_eq, h.region_eq] at hclear ⊢
    exact hclear
  · rw [h₁.region_eq]
    exact (h₁.place m₁.region .free .free .seeding).bind fun _ _ _ _ h₂ => .pure h₂ ()

end Mirrors

/-! ## Calls -/

/-- Carries out a call. -/
def perform : ExtentMap.Mutation → LinkedMapOperation Unit
  | .insert range usage => do let _ ← insert range usage
  | .delete range => do let _ ← delete range
  | .reclaim target range usage expected => do let _ ← reclaim target range usage expected
  | .reclaimAt range usage expected => do let _ ← reclaimAt range usage expected
  | .merge address => do let _ ← merge address
  | .reset => reset

/-- However a call ends, it ends alike in both maps. -/
theorem Mirrors.perform {x : LinkedMap} {m : ExtentMap} (h : x.Mirrors m)
    (c : ExtentMap.Mutation) : Agree Mirrors (LinkedMap.perform c) c.perform x m := by
  cases c with
  | insert range usage => exact (h.insert range usage).bind fun _ _ _ _ h₁ => .pure h₁ ()
  | delete range => exact (h.delete range).bind fun _ _ _ _ h₁ => .pure h₁ ()
  | reclaim target range usage expected =>
      exact (h.reclaim target range usage expected).bind fun _ _ _ _ h₁ => .pure h₁ ()
  | reclaimAt range usage expected =>
      exact (h.reclaimAt range usage expected).bind fun _ _ _ _ h₁ => .pure h₁ ()
  | merge address => exact (h.merge address).bind fun _ _ _ _ h₁ => .pure h₁ ()
  | reset => exact h.reset

/-- Both kinds of map start as one free extent. -/
theorem outcome_create {σ : Type} (owner : Nat) (name : String) (region : Range) (s : σ) :
    ∃ x m, (create owner name region).outcome s = (.ok x, s) ∧
      (ExtentMap.create owner name region).outcome s = (.ok m, s) ∧ x.Mirrors m ∧ m.Sound := by
  have h := Mirrors.of_toList_eq_nil name region (Index.sound_empty owner) (Nat.zero_le _) rfl
  obtain ⟨id, m, hreset, hm⟩ := ExtentMap.outcome_reset h.index_sound
  obtain ⟨verdict, x, m', hx, hm', hmirrors⟩ :=
    (h.reset.bind fun _ _ _ _ h₁ => h₁.note .info ("tracking " ++ region.text)).exists_outcome
  have hseeded := hm'
  rw [Operation.outcome_bind_ok hreset, ExtentMap.note, Operation.outcome_get_bind,
    Operation.outcome_note] at hm'
  obtain ⟨rfl, rfl⟩ := Prod.mk.inj hm'
  rw [show (Index.empty owner).map LinkedExtent.extent = Index.empty owner from rfl] at hseeded
  refine ⟨x, m, ?_, ?_, hmirrors, hm.sound⟩
  · rw [create, Operation.outcome_bind, Operation.outcome_build, hx]
    rfl
  · rw [ExtentMap.create, Operation.outcome_bind, Operation.outcome_build, hseeded]
    rfl

end LinkedMap

end KernelMemory
