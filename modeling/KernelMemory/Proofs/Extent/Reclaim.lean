import KernelMemory.Proofs.Extent.Merge

/-!
# Reclaiming

A reclaim cuts an extent into at most three pieces and then merges around the piece that
has the new usage. In the middle of it the map is still sound, only not maximally merged,
so the cuts are two more steps in the sense of `Becomes`: the first leaves the flank in
front of the range and the piece itself, the second the flank behind. `Carved` says what
the sequence is in the end, and everything that is claimed of a reclaim (which addresses
change their usage, that the extents still tile the region, that no twins are left) follows
from it without another look at the code.

Only lack of slots can stop a reclaim once its arguments are accepted: a cut needs up to
two new ones.
-/

namespace KernelMemory

namespace ExtentMap

/-! ## The cuts -/

/-- The first cut: up to the start of `range`. Answers the piece that has the new usage. -/
def cutFront (target : Handle) (whole : Extent) (range : Range) (usage : Usage)
    (inside : whole.range.encloses range = true) : ExtentOperation Handle := do
  shrink target whole range usage inside
  if whole.range.start < range.start then
    place (.unlisted range usage whole.usage) .splitting
  else
    return target

def cutBack (whole : Extent) (range : Range) : ExtentOperation Unit := do
  if h : range.stop < whole.range.stop then
    let _ ← place (.unlisted (whole.range.dropTo range.stop h) whole.usage whole.previous)
      .splitting

theorem carve_eq (target : Handle) (whole : Extent) (range : Range) (usage : Usage)
    (inside : whole.range.encloses range = true) :
    carve target whole range usage inside = (do
      let middle ← cutFront target whole range usage inside
      cutBack whole range
      note .debug
        ("reclaim " ++ range.text ++ " " ++ whole.usage.text ++ " -> " ++ usage.text)
      mergeAround middle) := by
  unfold carve cutFront cutBack
  split <;> split <;> simp only [bind_assoc, pure_bind]

/-- Both cuts. -/
def cut (target : Handle) (whole : Extent) (range : Range) (usage : Usage)
    (inside : whole.range.encloses range = true) : ExtentOperation Handle := do
  let middle ← cutFront target whole range usage inside
  cutBack whole range
  return middle

theorem carve_eq_cut (target : Handle) (whole : Extent) (range : Range) (usage : Usage)
    (inside : whole.range.encloses range = true) :
    carve target whole range usage inside = (do
      let middle ← cut target whole range usage inside
      note .debug
        ("reclaim " ++ range.text ++ " " ++ whole.usage.text ++ " -> " ++ usage.text)
      mergeAround middle) := by
  rw [carve_eq, cut]
  simp only [bind_assoc, pure_bind]

/-- What a cut leaves of `whole` on one side of the range, from `start` to `stop`: at most
one extent, and no change but of its range. -/
structure Flank (whole : Extent) (start stop : Nat) (l : List (Handle × Extent)) : Prop where
  tiles : Tiles start l stop
  usage_eq : ∀ p ∈ l, p.2.usage = whole.usage
  previous_eq : ∀ p ∈ l, p.2.previous = whole.previous
  length_le : l.length ≤ 1

theorem flank_nil (whole : Extent) (start : Nat) : Flank whole start start [] :=
  ⟨rfl, by simp, by simp, by simp⟩

theorem flank_singleton {whole : Extent} {p : Handle × Extent} {start stop : Nat}
    (hstart : p.2.start = start) (hstop : p.2.stop = stop) (hu : p.2.usage = whole.usage)
    (hp : p.2.previous = whole.previous) : Flank whole start stop [p] :=
  ⟨⟨hstart, hstop⟩, by simpa using hu, by simpa using hp, by simp⟩

theorem Flank.length_le_of_ends {whole : Extent} {start stop : Nat} {l : List (Handle × Extent)}
    (h : Flank whole start stop l) : l.length ≤ if start < stop then 1 else 0 := by
  split
  · exact h.length_le
  · next hle =>
    cases l with
    | nil => exact Nat.le_refl 0
    | cons p l =>
        have hstart := h.tiles.1
        have hstop := h.tiles.2.start_le_stop
        have hlt := p.2.start_lt_stop
        omega

/-- How many pieces are cut off besides the one of the range: each takes a slot. -/
def flanks (whole range : Range) : Nat :=
  (if whole.start < range.start then 1 else 0) + if range.stop < whole.stop then 1 else 0

theorem stop_le_of_piece {pre : List (Handle × Extent)} {piece : Handle × Extent}
    {start cut : Nat} (hpre : ∀ p ∈ pre, p.2.stop ≤ start) (hcut : start ≤ cut)
    (hpiece : piece.2.stop ≤ cut) : ∀ p ∈ pre ++ [piece], p.2.stop ≤ cut := by
  intro p hp
  rcases List.mem_append.mp hp with hp | hp
  · exact Nat.le_trans (hpre p hp) hcut
  · rwa [List.mem_singleton.mp hp]

/-- Who is who once an extent has been cut. The handle stays with the piece in front of the
range, and the piece that has the new usage gets one that was not live. If there is no piece in
front, the handle stays with that piece. -/
structure Heirs (m : ExtentMap) (target : Handle) (whole : Extent) (range : Range) (id : Handle)
    (before : List (Handle × Extent)) : Prop where
  front : whole.start < range.start → (∃ e, before = [(target, e)]) ∧ m.get? id = none
  middle : whole.start = range.start → id = target

section Steps

variable {m : ExtentMap} {pre post : List (Handle × Extent)} {target : Handle} {whole : Extent}
  {range : Range} {usage : Usage}

/-- The first cut fails only for lack of a slot, and only if it needs one. -/
theorem Sound.outcome_cutFront (h : m.Sound) (hl : m.toList = pre ++ (target, whole) :: post)
    (inside : whole.range.encloses range = true) (usage : Usage) :
    (∃ slots m', (cutFront target whole range usage inside).outcome m =
          (.fault (.slotsExhausted slots), m') ∧ m'.Sound ∧ Slots.capacity ≤ m'.size ∧
        m'.size = m.size ∧ whole.range.start < range.start) ∨
      ∃ id m' before, (cutFront target whole range usage inside).outcome m = (.ok id, m') ∧
        Flank whole whole.start range.start before ∧
        m.Becomes (pre ++ before ++
          (id, (Extent.unlisted range usage whole.usage).listed) :: post) m' ∧
        Heirs m target whole range id before := by
  obtain ⟨hstart, hstop⟩ := Range.encloses_iff.mp inside
  have hlt := range.start_lt_stop
  obtain ⟨hlo, hhi⟩ := h.inside_of_split hl
  obtain ⟨-, hpre, hpost⟩ := h.ordered_of_split hl
  have hafter : ∀ p ∈ post, range.stop ≤ p.2.start :=
    fun p hp => Nat.le_trans hstop (hpost p hp)
  have hinside : m.region.encloses range = true :=
    Range.encloses_iff.mpr ⟨Nat.le_trans hlo hstart, Nat.le_trans hstop hhi⟩
  rw [cutFront, shrink, Operation.outcome_modify_bind]
  by_cases hcut : whole.range.start < range.start
  · simp only [dif_pos hcut, if_pos hcut]
    have hm₁ := h.relist hl { whole with
        range := whole.range.takeTo range.start hcut (by omega), listedIn := none }
      (fun e => { e with range := whole.range.takeTo range.start hcut (by omega) })
      rfl rfl hpre (fun p hp => Nat.le_trans (Nat.le_of_lt hlt) (hafter p hp))
      (Range.encloses_iff.mpr ⟨hlo, Nat.le_trans (Nat.le_trans (Nat.le_of_lt hlt) hstop) hhi⟩)
    have hsize := hm₁.size_eq
    have hl₁ := hm₁.toList_eq
    rw [List.append_cons] at hl₁
    rw [← hm₁.region_eq] at hinside
    rcases hm₁.sound.outcome_place (e := .unlisted range usage whole.usage) hl₁ rfl
      (stop_le_of_piece hpre hstart (Nat.le_refl _)) hafter hinside .splitting with
      ⟨slots, hout, hfull⟩ | ⟨id, m', hout, hfresh, hm'⟩
    · refine .inl ⟨slots, _, hout, hm₁.sound, hfull, ?_, hcut⟩
      rw [hsize, ← h.length_eq, hl]
      simp
    · refine .inr ⟨id, m', _, hout, flank_singleton rfl rfl rfl rfl, hm₁.trans hm',
        fun _ => ⟨⟨_, rfl⟩, Tree.find?_eq_none_iff.mpr ?_⟩,
        fun heq => absurd heq (Nat.ne_of_lt hcut)⟩
      rw [hm₁.toList_eq] at hfresh
      rw [Tree.handles, show m.index.tree.toList = _ from hl]
      simpa using hfresh
  · simp only [dif_neg hcut, if_neg hcut]
    have heq : whole.start = range.start := Nat.le_antisymm hstart (Nat.not_lt.mp hcut)
    have hm₁ := h.relist hl (.unlisted range usage whole.usage)
      (fun e => { e with range := range, usage := usage, previous := whole.usage })
      rfl rfl (fun p hp => Nat.le_trans (hpre p hp) hstart) hafter hinside
    refine .inr ⟨target, _, [], rfl, heq ▸ flank_nil whole whole.start, ?_,
      fun hlt => absurd hlt hcut, fun _ => rfl⟩
    rw [List.append_nil]
    exact hm₁

theorem Sound.outcome_cutBack (h : m.Sound) {piece : Handle × Extent}
    (hl : m.toList = pre ++ piece :: post) (hpiece : piece.2.range = range)
    (hpost : ∀ p ∈ post, whole.stop ≤ p.2.start) (inside : whole.range.encloses range = true)
    (hin : whole.stop ≤ m.region.stop) :
    (∃ slots, (cutBack whole range).outcome m = (.fault (.slotsExhausted slots), m) ∧
        Slots.capacity ≤ m.size ∧ range.stop < whole.range.stop) ∨
      ∃ m' after, (cutBack whole range).outcome m = (.ok (), m') ∧
        Flank whole range.stop whole.stop after ∧
        m.Becomes (pre ++ piece :: (after ++ post)) m' := by
  obtain ⟨hstart, hstop⟩ := Range.encloses_iff.mp inside
  obtain ⟨id, e⟩ := piece
  subst hpiece
  obtain ⟨hlo, hhi⟩ := h.inside_of_split hl
  obtain ⟨-, hpre, -⟩ := h.ordered_of_split hl
  have hlt := e.start_lt_stop
  rw [cutBack]
  by_cases hcut : e.range.stop < whole.range.stop
  · rw [dif_pos hcut]
    rw [List.append_cons] at hl
    have hnew : (Extent.unlisted (whole.range.dropTo e.range.stop hcut) whole.usage
      whole.previous).listedIn = none := rfl
    rcases h.outcome_place hl hnew
      (stop_le_of_piece hpre (Nat.le_of_lt hlt) (Nat.le_refl _)) hpost
      (Range.encloses_iff.mpr ⟨Nat.le_trans hlo (Nat.le_of_lt hlt), hin⟩) .splitting with
      ⟨slots, hout, hfull⟩ | ⟨id', m', hout, -, hm'⟩
    · exact .inl ⟨slots, Operation.outcome_bind_fault hout _, hfull, hcut⟩
    · rw [List.append_assoc] at hm'
      exact .inr ⟨m', [(id', Extent.listed (.unlisted
          (whole.range.dropTo e.range.stop hcut) whole.usage whole.previous))],
        Operation.outcome_bind_ok hout _, flank_singleton rfl rfl rfl rfl, hm'⟩
  · rw [dif_neg hcut]
    have heq : e.range.stop = whole.stop := Nat.le_antisymm hstop (Nat.not_lt.mp hcut)
    refine .inr ⟨m, [], rfl, heq ▸ flank_nil whole whole.stop, ?_⟩
    rw [List.nil_append, ← hl]
    exact h.becomes_self

/-- The map that the cuts leave in want of a slot has no more extents than slot numbers, and
fewer than it would have had after them. -/
theorem Sound.outcome_cut (h : m.Sound) (hl : m.toList = pre ++ (target, whole) :: post)
    (inside : whole.range.encloses range = true) (usage : Usage) :
    (∃ slots m', (cut target whole range usage inside).outcome m =
          (.fault (.slotsExhausted slots), m') ∧ m'.Sound ∧ Slots.capacity ≤ m'.size ∧
        m'.size < m.size + flanks whole.range range) ∨
      ∃ id m' before after, (cut target whole range usage inside).outcome m = (.ok id, m') ∧
        Flank whole whole.start range.start before ∧ Flank whole range.stop whole.stop after ∧
        m.Becomes (pre ++ before ++ (id, (Extent.unlisted range usage whole.usage).listed) ::
          (after ++ post)) m' ∧ Heirs m target whole range id before := by
  obtain ⟨-, hhi⟩ := h.inside_of_split hl
  obtain ⟨-, -, hpost⟩ := h.ordered_of_split hl
  rw [cut, flanks]
  rcases h.outcome_cutFront hl inside usage with
    ⟨slots, m', hout, hsound, hfull, hsize, hcut⟩ |
      ⟨id, m₁, before, hout, hbefore, hm₁, hheirs⟩
  · refine .inl ⟨slots, m', Operation.outcome_bind_fault hout _, hsound, hfull, ?_⟩
    rw [hsize, if_pos hcut]
    omega
  · rw [Operation.outcome_bind_ok hout]
    rcases hm₁.sound.outcome_cutBack hm₁.toList_eq (show _ = range from rfl) hpost inside
      (by rw [hm₁.region_eq]; exact hhi) with
      ⟨slots, hout, hfull, hcut⟩ | ⟨m₂, after, hout, hafter, hm₂⟩
    · refine .inl ⟨slots, m₁, Operation.outcome_bind_fault hout _, hm₁.sound, hfull, ?_⟩
      have hlength : before.length ≤ if whole.range.start < range.start then 1 else 0 :=
        hbefore.length_le_of_ends
      rw [hm₁.size_eq, ← h.length_eq, hl, if_pos hcut]
      simp only [List.length_append, List.length_cons]
      omega
    · exact .inr ⟨id, m₂, before, after, Operation.outcome_bind_ok hout _, hbefore, hafter,
        hm₁.trans hm₂, hheirs⟩

/-! ## What a reclaim does -/

/-- The extent `whole` between `pre` and `post` has been cut at `range`, and the piece `id`
that has the new usage has absorbed its twins. -/
def Carved (m : ExtentMap) (pre : List (Handle × Extent)) (whole : Extent)
    (post : List (Handle × Extent)) (range : Range) (usage : Usage) (id : Handle)
    (m' : ExtentMap) : Prop :=
  ∃ before after m₁, Flank whole whole.start range.start before ∧
    Flank whole range.stop whole.stop after ∧
    m.Becomes (pre ++ before ++ (id, (Extent.unlisted range usage whole.usage).listed) ::
      (after ++ post)) m₁ ∧
    Coalesced m₁ id m'

/-- Once the cuts are made, merging cannot fail. -/
theorem Sound.outcome_carve_of_cut {m₁ : ExtentMap} {e : Extent} {id : Handle}
    {inside : whole.range.encloses range = true} (h : m₁.Sound)
    (hl : m₁.toList = pre ++ (id, e) :: post)
    (hcut : (cut target whole range usage inside).outcome m = (.ok id, m₁)) :
    ∃ m', (carve target whole range usage inside).outcome m = (.ok id, m') ∧
      Coalesced m₁ id m' := by
  obtain ⟨m', hrun, hm'⟩ := h.outcome_mergeAround hl
  refine ⟨m', ?_, hm'⟩
  rw [carve_eq_cut, Operation.outcome_bind_ok hcut, note]
  simpa using hrun

theorem Sound.outcome_carve (h : m.Sound) (hl : m.toList = pre ++ (target, whole) :: post)
    (inside : whole.range.encloses range = true) :
    (∃ slots m', (carve target whole range usage inside).outcome m =
          (.fault (.slotsExhausted slots), m') ∧ m'.Sound ∧ Slots.capacity ≤ m'.size ∧
        m'.size < m.size + flanks whole.range range) ∨
      ∃ id m', (carve target whole range usage inside).outcome m = (.ok id, m') ∧
        Carved m pre whole post range usage id m' := by
  rcases h.outcome_cut hl inside usage with
    ⟨slots, m', hout, hfull⟩ | ⟨id, m₁, before, after, hout, hbefore, hafter, hm₁, -⟩
  · rw [carve_eq_cut]
    exact .inl ⟨slots, m', Operation.outcome_bind_fault hout _, hfull⟩
  · obtain ⟨m', hrun, hm'⟩ := hm₁.sound.outcome_carve_of_cut hm₁.toList_eq hout
    exact .inr ⟨id, m', hrun, before, after, m₁, hbefore, hafter, hm₁, hm'⟩

/-- The range, which lies in one extent, has been given the usage. Where the extent had
it already, nothing has happened. -/
def Retyped (m : ExtentMap) (range : Range) (usage : Usage) (id : Handle) (m' : ExtentMap) :
    Prop :=
  ∃ pre target whole post, m.toList = pre ++ (target, whole) :: post ∧
    whole.range.encloses range = true ∧
    (whole.usage = usage ∧ id = target ∧ m' = m ∨
      whole.usage ≠ usage ∧ Carved m pre whole post range usage id m')

theorem Retyped.sameFrame {id : Handle} {m' : ExtentMap} (hr : Retyped m range usage id m') :
    m.SameFrame m' := by
  obtain ⟨_, _, _, _, -, -, ⟨-, -, rfl⟩ | ⟨-, _, _, m₁, -, -, hm₁, hm'⟩⟩ := hr
  · exact ⟨rfl, rfl, rfl⟩
  · exact hm₁.toSameFrame.trans hm'.sameFrame

theorem Retyped.sound {id : Handle} {m' : ExtentMap} (hr : Retyped m range usage id m')
    (h : m.Sound) : m'.Sound := by
  obtain ⟨_, _, _, _, -, -, ⟨-, -, rfl⟩ | ⟨-, _, _, m₁, -, -, -, hm'⟩⟩ := hr
  · exact h
  · exact hm'.sound

theorem outcome_reclaim_of_stale (expected : Option Usage) (hget : m.get? target = none) :
    (reclaim target range usage expected).outcome m = (.error (.stale target), m) := by
  rw [reclaim, Operation.outcome_get_bind]
  simp only [hget, Operation.outcome_refuse]

theorem outcome_reclaim_of_outside (expected : Option Usage) (hget : m.get? target = some whole)
    (houtside : whole.range.encloses range = false) :
    (reclaim target range usage expected).outcome m =
      (.error (.invalidRange range.start range.stop), m) := by
  rw [reclaim, Operation.outcome_get_bind]
  simp only [hget, houtside, Bool.false_eq_true, ↓reduceDIte, note, bind_assoc,
    Operation.outcome_get_bind, Operation.outcome_note_bind, Operation.outcome_refuse]

theorem outcome_reclaim_of_mismatch {other : Usage} (hget : m.get? target = some whole)
    (inside : whole.range.encloses range = true) (hother : other ≠ whole.usage) :
    (reclaim target range usage (some other)).outcome m =
      (.error (.usageMismatch other whole.usage), m) := by
  rw [reclaim, Operation.outcome_get_bind]
  simp only [hget, dif_pos inside, Option.filter_some, hother, ne_eq, not_false_eq_true,
    decide_true, ↓reduceIte, Operation.outcome_refuse]

theorem outcome_reclaim_of_accepted {expected : Option Usage} (hget : m.get? target = some whole)
    (inside : whole.range.encloses range = true)
    (hexpected : ∀ other, expected = some other → other = whole.usage) :
    (reclaim target range usage expected).outcome m =
      if whole.usage = usage then (.ok target, m)
      else (carve target whole range usage inside).outcome m := by
  have hfilter : expected.filter (· ≠ whole.usage) = none := by
    cases expected with
    | none => rfl
    | some other => simp [hexpected other rfl]
  rw [reclaim, Operation.outcome_get_bind]
  simp only [hget, dif_pos inside, hfilter]
  split <;> rfl

/-- A reclaim whose arguments are accepted either runs out of slots or gives the range its
usage. -/
theorem Sound.outcome_reclaim (h : m.Sound) {expected : Option Usage}
    (hl : m.toList = pre ++ (target, whole) :: post)
    (inside : whole.range.encloses range = true)
    (hexpected : ∀ other, expected = some other → other = whole.usage) (usage : Usage) :
    (∃ slots m', (reclaim target range usage expected).outcome m =
          (.fault (.slotsExhausted slots), m') ∧ m'.Sound ∧ Slots.capacity ≤ m'.size ∧
        m'.size < m.size + flanks whole.range range) ∨
      ∃ id m', (reclaim target range usage expected).outcome m = (.ok id, m') ∧
        Retyped m range usage id m' := by
  rw [outcome_reclaim_of_accepted (h.get?_of_split hl) inside hexpected]
  split
  · next husage =>
    exact .inr ⟨target, m, rfl, pre, target, whole, post, hl, inside, .inl ⟨husage, rfl, rfl⟩⟩
  · next husage =>
    rcases h.outcome_carve hl inside with hfull | ⟨id, m', hout, hcarved⟩
    · exact .inl hfull
    · exact .inr ⟨id, m', hout, pre, target, whole, post, hl, inside, .inr ⟨husage, hcarved⟩⟩

/-- A reclaim is refused without a change, runs out of slots, or retypes the range. -/
theorem Sound.reclaim_cases (h : m.Sound) (target : Handle) (range : Range) (usage : Usage)
    (expected : Option Usage) :
    (∃ error, (reclaim target range usage expected).outcome m = (.error error, m)) ∨
      (∃ slots m', (reclaim target range usage expected).outcome m =
          (.fault (.slotsExhausted slots), m') ∧ m'.Sound ∧ Slots.capacity ≤ m'.size) ∨
      ∃ id m', (reclaim target range usage expected).outcome m = (.ok id, m') ∧
        Retyped m range usage id m' := by
  cases hget : m.get? target with
  | none => exact .inl ⟨_, outcome_reclaim_of_stale expected hget⟩
  | some whole =>
      cases inside : whole.range.encloses range with
      | false => exact .inl ⟨_, outcome_reclaim_of_outside expected hget inside⟩
      | true =>
          obtain ⟨pre, post, hl⟩ := exists_split hget
          by_cases hexpected : ∀ other, expected = some other → other = whole.usage
          · rcases h.outcome_reclaim hl inside hexpected usage with
              ⟨slots, m', hout, hsound, hfull, -⟩ | hdone
            · exact .inr (.inl ⟨slots, m', hout, hsound, hfull⟩)
            · exact .inr (.inr hdone)
          · simp only [not_forall] at hexpected
            obtain ⟨other, rfl, hother⟩ := hexpected
            exact .inl ⟨_, outcome_reclaim_of_mismatch hget inside hother⟩

/-- A reclaim by address is one of the extent that contains the start of the range. -/
theorem Sound.reclaimAt_cases (h : m.Sound) (range : Range) (usage : Usage)
    (expected : Option Usage) :
    (∃ error, (reclaimAt range usage expected).outcome m = (.error error, m)) ∨
      (∃ slots m', (reclaimAt range usage expected).outcome m =
          (.fault (.slotsExhausted slots), m') ∧ m'.Sound ∧ Slots.capacity ≤ m'.size) ∨
      ∃ id m', (reclaimAt range usage expected).outcome m = (.ok id, m') ∧
        Retyped m range usage id m' := by
  rw [reclaimAt, Operation.outcome_get_bind]
  cases m.find? range.start with
  | none => exact .inl ⟨.notFound, rfl⟩
  | some found => exact h.reclaim_cases found.1 range usage expected

end Steps

end ExtentMap

end KernelMemory
