import KernelMemory.Extent.Checked
import KernelMemory.Proofs.Extent.Classes

/-!
# Checks that never fail

On a linked map that mirrors a sound one, the operations with all their checks end as those
of the map that it mirrors, which know none of the checks. What a check asks for is part of
what the step before it is known to have left: the extent that an index names is in the map,
an extent that was unlinked is still there, a cut lies inside the extent that is cut, twins
meet, and every merge leaves one extent fewer to merge with.
-/

namespace KernelMemory

open Operation (Agree)

namespace Range

variable {σ ε : Type} {r s : Range}

theorem outcome_moveStart {start : Nat} (h : start < r.stop) (x : σ) :
    (r.moveStart start : Operation σ ε Range).outcome x =
      (.ok (r.dropTo start h), x) := by
  rw [moveStart, dif_pos h]
  rfl

theorem outcome_moveStop {stop : Nat} (h : r.start < stop ∧ stop < Word.bound) (x : σ) :
    (r.moveStop stop : Operation σ ε Range).outcome x = (.ok ⟨r.start, stop, h.1, h.2⟩, x) := by
  rw [moveStop, dif_pos h]
  rfl

theorem outcome_moveStop_of_start_eq (h : r.start = s.start) (x : σ) :
    (r.moveStop s.stop : Operation σ ε Range).outcome x = (.ok s, x) := by
  have hlt : r.start < s.stop := h ▸ s.start_lt_stop
  have heq : (⟨r.start, s.stop, hlt, s.stop_lt_bound⟩ : Range) = s := Range.ext h rfl
  rw [outcome_moveStop ⟨hlt, s.stop_lt_bound⟩, heq]

/-- A range grows backwards over one that ends where it starts. -/
theorem outcome_moveStart_of_meet (h : r.stop = s.start) (x : σ) :
    (s.moveStart r.start : Operation σ ε Range).outcome x = (.ok (r.join s h), x) := by
  have hr := r.start_lt_stop
  have hs := s.start_lt_stop
  exact outcome_moveStart (by omega) x

/-- A range grows over one that starts where it ends. -/
theorem outcome_moveStop_of_meet (h : r.stop = s.start) (x : σ) :
    (r.moveStop s.stop : Operation σ ε Range).outcome x = (.ok (r.join s h), x) := by
  have hr := r.start_lt_stop
  have hs := s.start_lt_stop
  exact outcome_moveStop ⟨by omega, s.stop_lt_bound⟩ x

end Range

theorem Index.modify_congr {α : Type} {ix : Index α} {id : Handle} {v : α} {f g : α → α}
    (hget : ix.get? id = some v) (h : f v = g v) : ix.modify id f = ix.modify id g := by
  unfold Index.modify
  simp only [hget, h]

namespace LinkedMap.Checked

variable {x : LinkedMap} {m : ExtentMap} {id : Handle} {e : Extent}
variable {pre post : List (Handle × Extent)} {range : Range} {usage : Usage}

/-! ## Changing one extent -/

theorem outcome_resolve (hget : x.extent? id = some e) :
    (resolve id).outcome x = (.ok e, x) := by
  rw [resolve, Operation.outcome_get_bind]
  simp only [hget, Operation.outcome_pure]

/-- An extent that was unlinked is still there, so it can be changed in place. -/
theorem outcome_relist (h : x.Mirrors m) (hget : m.get? id = some e)
    {change : Extent → LinkedMapOperation Extent} {f : Extent → Extent}
    (hchange : ∀ y, (change { e with listedIn := none }).outcome y =
      (.ok (f { e with listedIn := none }), y)) :
    (relist id change).outcome x = (LinkedMap.relist id f).outcome x := by
  obtain ⟨pre, post, hl⟩ := ExtentMap.exists_split hget
  obtain ⟨_, x₁, _, hout, heq, h₁⟩ := (h.delist id).exists_outcome
  obtain ⟨rfl, rfl⟩ := Prod.mk.inj ((Operation.outcome_modify _ _).symm.trans heq)
  have hget₁ : (m.delist id).get? id = some { e with listedIn := none } :=
    (hl ▸ h.holds : m.Holds _).delist.get?_eq
  obtain ⟨linked, hlinked, hextent⟩ := h₁.exists_of_get? hget₁
  have hresolve : x₁.extent? id = some { e with listedIn := none } := by
    rw [← h₁.get?_eq, hget₁]
  rw [relist, LinkedMap.relist, Operation.outcome_bind_ok hout, Operation.outcome_bind_ok hout,
    Operation.outcome_bind_ok (outcome_resolve hresolve), Operation.outcome_bind_ok (hchange x₁),
    alter, alter, Operation.outcome_modify_bind, Operation.outcome_modify_bind]
  have hmodify := Index.modify_congr hlinked
    (f := fun linked => { linked with extent := f { e with listedIn := none } })
    (g := fun linked => { linked with extent := f linked.extent }) (by rw [hextent])
  rw [hmodify]

theorem agree_relist (h : x.Mirrors m) (hget : m.get? id = some e)
    {change : Extent → LinkedMapOperation Extent} {f : Extent → Extent}
    (hf : ∀ e, (f e).listedIn = e.listedIn)
    (hchange : ∀ y, (change { e with listedIn := none }).outcome y =
      (.ok (f { e with listedIn := none }), y)) :
    Agree Mirrors (relist id change)
      (Operation.modify fun m => ((m.delist id).modify id f).list id) x m :=
  .congr_outcome (outcome_relist h hget hchange) (h.relist id hf)

theorem agree_delete (h : x.Mirrors m) (range : Range) :
    Agree Mirrors (delete range) (ExtentMap.delete range) x m := by
  refine .congr_outcome ?_ (h.delete range)
  rw [delete, LinkedMap.delete, Operation.outcome_get_bind, Operation.outcome_get_bind]
  cases hsearch : x.index.search LinkedExtent.keying range .exact with
  | none => rfl
  | some found =>
      have hget : x.get? found.1 = some found.2 := h.get?_of_mem (Tree.mem_of_search hsearch)
      have hextent : x.extent? found.1 = some found.2.extent := by
        rw [extent?, hget, Option.map_some]
      exact Operation.outcome_bind_ok (outcome_resolve hextent) _

/-! ## Merging -/

/-- A neighbour that is in the map is compared with what it is there. -/
theorem outcome_twin? (h : x.Mirrors m) {neighbour : Option (Handle × Extent)}
    (hmem : ∀ p, neighbour = some p → m.get? p.1 = some p.2) (isTwin : Extent → Bool) :
    (twin? (neighbour.map Prod.fst) isTwin).outcome x =
      (.ok ((neighbour.filter fun p => isTwin p.2).map Prod.fst), x) := by
  cases neighbour with
  | none => rfl
  | some p =>
      have hextent : x.extent? p.1 = some p.2 := by rw [← h.get?_eq, hmem p rfl]
      rw [Option.map_some, twin?, Operation.outcome_bind_ok (outcome_resolve hextent),
        Option.filter_some]
      split <;> rfl

theorem agree_absorb (h : x.Mirrors m) (hm : m.Sound) {other : Handle} {gone : Extent}
    {before after : List (Handle × Extent)} (hl : m.toList = before ++ (other, gone) :: after)
    (hrest : before ++ after = pre ++ (id, e) :: post) {joined : Range}
    {move : Range → Range → LinkedMapOperation Range}
    (hmove : ∀ y, (move gone.range e.range).outcome y = (.ok joined, y)) (range : Range) :
    Agree Mirrors (absorb other id range move) (ExtentMap.absorb other id range joined) x m := by
  obtain ⟨m₁, hdisplace, hm₁⟩ := hm.outcome_displace hl
  refine (h.displace other).bind fun absorbed x₁ _ hout h₁ => ?_
  obtain ⟨hverdict, rfl⟩ := Prod.mk.inj (hdisplace.symm.trans hout)
  obtain rfl := Verdict.ok.inj hverdict
  have hget := hm₁.sound.get?_of_split (hm₁.toList_eq.trans hrest)
  refine (agree_relist h₁ hget (f := fun e => { e with range := joined }) (fun _ => rfl)
    fun y => ?_).bind fun _ _ _ _ h₂ => h₂.note .debug _
  exact Operation.outcome_bind_ok (hmove y) _

/-- What is left behind an absorbed twin is sound and has one extent fewer. -/
theorem agree_absorb_bind {α : Type} (h : x.Mirrors m) (hm : m.Sound) (joined : Range)
    {other : Handle} {gone : Extent} {before after : List (Handle × Extent)}
    (hl : m.toList = before ++ (other, gone) :: after)
    (hrest : before ++ after = pre ++ (id, e) :: post)
    (hpre : ∀ p ∈ pre, p.2.stop ≤ joined.start) (hpost : ∀ p ∈ post, joined.stop ≤ p.2.start)
    (hin : m.region.encloses joined = true) {move : Range → Range → LinkedMapOperation Range}
    (hmove : ∀ y, (move gone.range e.range).outcome y = (.ok joined, y)) (range : Range)
    {next : LinkedMapOperation α} {next' : ExtentOperation α}
    (hnext : ∀ x' m', x'.Mirrors m' → m'.Sound →
      m'.toList = pre ++ (id, ExtentMap.spread e joined) :: post →
      Agree Mirrors next next' x' m') :
    Agree Mirrors (absorb other id range move >>= fun _ => next)
      (ExtentMap.absorb other id range joined >>= fun _ => next') x m := by
  obtain ⟨m₁, habsorb, hm₁⟩ := hm.outcome_absorb joined hl hrest hpre hpost hin range
  refine (agree_absorb h hm hl hrest hmove range).bind fun _ x₁ _ hout h₁ => ?_
  obtain ⟨-, rfl⟩ := Prod.mk.inj (habsorb.symm.trans hout)
  exact hnext x₁ m₁ h₁ hm₁.sound hm₁.toList_eq

/-- The neighbours that an index names are those in its sequence. -/
theorem outcome_twins (h : x.Mirrors m) (hm : m.Sound)
    (hl : m.toList = pre ++ (id, e) :: post) (isTwin : Extent → Bool) :
    (twin? (x.index.predecessor? id) isTwin).outcome x =
        (.ok ((pre.getLast?.filter fun p => isTwin p.2).map Prod.fst), x) ∧
      (twin? (x.index.successor? id) isTwin).outcome x =
        (.ok ((post.head?.filter fun p => isTwin p.2).map Prod.fst), x) := by
  have hmem : ∀ p ∈ m.toList, m.get? p.1 = some p.2 :=
    fun p hp => hm.index.get?_eq_some_iff.mpr hp
  have hprev := hm.index.predecessor?_eq hl
  have hnext := hm.index.successor?_eq hl
  rw [← h.index_eq, Index.predecessor?_map] at hprev
  rw [← h.index_eq, Index.successor?_map] at hnext
  rw [hprev, hnext]
  refine ⟨outcome_twin? h (fun p hp => hmem p ?_) isTwin,
    outcome_twin? h (fun p hp => hmem p ?_) isTwin⟩
  · rw [hl]
    exact List.mem_append_left _ (List.mem_of_getLast? hp)
  · rw [hl]
    exact List.mem_append_right _ (List.mem_cons_of_mem _ (List.mem_of_head? hp))

theorem isTwin_iff {a b : Extent} :
    (decide (a.stop = b.start) && decide (a.usage = b.usage)) = true ↔ ExtentMap.Twins a b := by
  rw [Bool.and_eq_true, decide_eq_true_eq, decide_eq_true_eq]
  rfl

/-- Every merge takes one of the other extents away, so merging ends before the fuel does. -/
theorem agree_mergeUpTo (h : x.Mirrors m) (hm : m.Sound)
    (hl : m.toList = pre ++ (id, e) :: post) {fuel : Nat}
    (hfuel : pre.length + post.length < fuel) :
    Agree Mirrors (mergeUpTo fuel id) (ExtentMap.mergeUpTo fuel id) x m := by
  induction fuel generalizing x m pre post e with
  | zero => exact absurd hfuel (Nat.not_lt_zero _)
  | succ fuel ih =>
      refine (h.resolve id).bind fun found x₁ m₁ hout h₁ => .get_bind ?_
      obtain ⟨hverdict, rfl⟩ := Prod.mk.inj
        ((ExtentMap.outcome_resolve (hm.get?_of_split hl)).symm.trans hout)
      obtain rfl := Verdict.ok.inj hverdict
      have hprev := (outcome_twins h₁ hm hl fun l => l.stop = e.start && l.usage = e.usage).1
      have hnext := (outcome_twins h₁ hm hl fun r => e.stop = r.start && e.usage = r.usage).2
      rcases hm.leftTwin?_cases hl with
        ⟨hnone, hleft⟩ | ⟨pre₁, other, l, hstop, rfl, hu, htwin⟩
      · have hskip := fun p hp => mt isTwin_iff.mp (hleft p hp)
        rw [Option.filter_eq_none_iff.mpr hskip, Option.map_none] at hprev
        rw [hnone, Option.none_or]
        refine .congr_outcome (Operation.outcome_bind_ok hprev _) ?_
        rcases hm.rightTwin?_cases hl with
          ⟨hnone', hright⟩ | ⟨other, r, post₁, hstop, rfl, hu, htwin⟩
        · have hskip := fun p hp => mt isTwin_iff.mp (hright p hp)
          rw [Option.filter_eq_none_iff.mpr hskip, Option.map_none] at hnext
          rw [hnone']
          exact .congr_outcome (Operation.outcome_bind_ok hnext _) (.pure h₁ id)
        · have htwins : ExtentMap.Twins e r := ⟨hstop, hu.symm⟩
          rw [List.head?_cons, Option.filter_some, if_pos (isTwin_iff.mpr htwins)] at hnext
          rw [htwin]
          refine .congr_outcome (Operation.outcome_bind_ok hnext _) ?_
          have hl' : m.toList = (pre ++ [(id, e)]) ++ (other, r) :: post₁ := by
            rw [hl, List.append_assoc, List.singleton_append]
          rw [List.length_cons] at hfuel
          exact agree_absorb_bind h₁ hm (e.range.join r.range hstop) hl'
            (by rw [List.append_assoc, List.singleton_append]) (hm.ordered_of_split hl).2.1
            (hm.ordered_of_split hl').2.2
            (Range.encloses_iff.mpr ⟨(hm.inside_of_split hl).1, (hm.inside_of_split hl').2⟩)
            (fun y => Range.outcome_moveStop_of_meet hstop y) e.range
            fun _ _ h₂ hsound hl₂ => ih h₂ hsound hl₂ (by omega)
      · have htwins : ExtentMap.Twins l e := ⟨hstop, hu⟩
        rw [List.getLast?_append, List.getLast?_singleton, Option.some_or, Option.filter_some,
          if_pos (isTwin_iff.mpr htwins)] at hprev
        rw [htwin]
        refine .congr_outcome (Operation.outcome_bind_ok hprev _) ?_
        have hl' : m.toList = pre₁ ++ (other, l) :: (id, e) :: post := by
          rw [hl, List.append_assoc, List.singleton_append]
        rw [List.length_append, List.length_singleton] at hfuel
        exact agree_absorb_bind h₁ hm (l.range.join e.range hstop) hl' rfl
          (hm.ordered_of_split hl').2.1 (hm.ordered_of_split hl).2.2
          (Range.encloses_iff.mpr ⟨(hm.inside_of_split hl').1, (hm.inside_of_split hl).2⟩)
          (fun y => Range.outcome_moveStart_of_meet hstop y) e.range
          fun _ _ h₂ hsound hl₂ => ih h₂ hsound hl₂ (by omega)

theorem agree_mergeAround (h : x.Mirrors m) (hm : m.Sound)
    (hl : m.toList = pre ++ (id, e) :: post) :
    Agree Mirrors (mergeAround id) (ExtentMap.mergeAround id) x m := by
  have hsize := hm.length_eq
  rw [hl, List.length_append, List.length_cons] at hsize
  refine .get_bind ?_
  rw [h.size_eq]
  exact agree_mergeUpTo h hm hl (by omega)

theorem agree_merge (h : x.Mirrors m) (hm : m.Sound) (address : Nat) :
    Agree Mirrors (merge address) (ExtentMap.merge address) x m := by
  refine .get_bind ?_
  rw [h.find?_eq]
  cases hfind : x.find? address with
  | none => exact .refuse h _
  | some found =>
      have hmem : m.find? address = some (found.1, found.2.extent) := by
        rw [h.find?_eq, hfind, Option.map_some]
      obtain ⟨pre, post, hl⟩ := List.append_of_mem (ExtentMap.contains_of_find? hmem).1
      exact agree_mergeAround h hm hl

/-! ## Cutting -/

theorem agree_shrink (h : x.Mirrors m) {target : Handle} {whole : Extent}
    (hget : m.get? target = some whole) (inside : whole.range.encloses range = true)
    (usage : Usage) :
    Agree Mirrors (shrink target whole range usage)
      (ExtentMap.shrink target whole range usage inside) x m := by
  obtain ⟨hstart, hstop⟩ := Range.encloses_iff.mp inside
  have hrange := range.start_lt_stop
  have hbound := range.stop_lt_bound
  refine agree_relist h hget (fun e => by split <;> rfl) fun y => ?_
  by_cases hcut : whole.range.start < range.start
  · simp only [if_pos hcut, dif_pos hcut]
    exact Operation.outcome_bind_ok (Range.outcome_moveStop ⟨hcut, by omega⟩ y) _
  · have heq : whole.range.start = range.start := by omega
    simp only [if_neg hcut, dif_neg hcut]
    exact Operation.outcome_bind_ok (Range.outcome_moveStop_of_start_eq heq y) _

theorem agree_cutFront (h : x.Mirrors m) {target : Handle} {whole : Extent}
    (hget : m.get? target = some whole) (inside : whole.range.encloses range = true)
    (usage : Usage) :
    Agree Mirrors (cutFront target whole range usage)
      (ExtentMap.cutFront target whole range usage inside) x m := by
  refine (agree_shrink h hget inside usage).bind fun _ _ _ _ h₁ => ?_
  by_cases hcut : whole.range.start < range.start
  · simp only [if_pos hcut]
    exact h₁.place range usage whole.usage .splitting
  · simp only [if_neg hcut]
    exact .pure h₁ target

theorem agree_cutBack (h : x.Mirrors m) (whole : Extent) (range : Range) :
    Agree Mirrors (cutBack whole range) (ExtentMap.cutBack whole range) x m := by
  rw [cutBack, ExtentMap.cutBack]
  by_cases hcut : range.stop < whole.range.stop
  · rw [if_pos hcut, dif_pos hcut]
    refine .congr_outcome (Operation.outcome_bind_ok (Range.outcome_moveStart hcut x) _) ?_
    exact (h.place _ whole.usage whole.previous .splitting).bind fun _ _ _ _ h₁ => .pure h₁ ()
  · rw [if_neg hcut, dif_neg hcut]
    exact .pure h ()

theorem agree_carve (h : x.Mirrors m) (hm : m.Sound) {target : Handle} {whole : Extent}
    (hl : m.toList = pre ++ (target, whole) :: post)
    (inside : whole.range.encloses range = true) (usage : Usage) :
    Agree Mirrors (carve target whole range usage)
      (ExtentMap.carve target whole range usage inside) x m := by
  obtain ⟨-, hhi⟩ := hm.inside_of_split hl
  obtain ⟨-, -, hpost⟩ := hm.ordered_of_split hl
  rw [ExtentMap.carve_eq]
  refine (agree_cutFront h (hm.get?_of_split hl) inside usage).bind
    fun middle _ m₁ hfront h₁ => ?_
  rcases hm.outcome_cutFront hl inside usage with
    ⟨_, _, hout, -⟩ | ⟨id, _, before, hout, -, hm₁, -⟩
  · cases (Prod.mk.inj (hout.symm.trans hfront)).1
  obtain ⟨hverdict, rfl⟩ := Prod.mk.inj (hout.symm.trans hfront)
  obtain rfl := Verdict.ok.inj hverdict
  refine (agree_cutBack h₁ whole range).bind fun _ _ m₂ hback h₂ => ?_
  rcases hm₁.sound.outcome_cutBack hm₁.toList_eq (show _ = range from rfl) hpost inside
    (by rw [hm₁.region_eq]; exact hhi) with ⟨_, hout, -⟩ | ⟨_, after, hout, -, hm₂⟩
  · cases (Prod.mk.inj (hout.symm.trans hback)).1
  obtain ⟨-, rfl⟩ := Prod.mk.inj (hout.symm.trans hback)
  refine (h₂.note .debug _).bind fun _ _ m₃ hnote h₃ => ?_
  obtain ⟨-, rfl⟩ := Prod.mk.inj hnote
  exact agree_mergeAround h₃ hm₂.sound hm₂.toList_eq

theorem agree_reclaim (h : x.Mirrors m) (hm : m.Sound) (target : Handle) (range : Range)
    (usage : Usage) (expected : Option Usage) :
    Agree Mirrors (reclaim target range usage expected)
      (ExtentMap.reclaim target range usage expected) x m := by
  refine .get_bind ?_
  rw [h.get?_eq]
  cases hget : x.extent? target with
  | none => exact .refuse h _
  | some whole =>
      by_cases inside : whole.range.encloses range = true
      · simp only [if_pos inside, dif_pos inside]
        cases expected.filter (· ≠ whole.usage) with
        | some other => exact .refuse h _
        | none =>
            by_cases husage : whole.usage = usage
            · simp only [if_pos husage]
              exact .pure h target
            · simp only [if_neg husage]
              obtain ⟨pre, post, hl⟩ := ExtentMap.exists_split ((h.get?_eq target).trans hget)
              exact agree_carve h hm hl inside usage
      · simp only [if_neg inside, dif_neg inside]
        exact (h.note .warn _).bind fun _ _ _ _ h₁ => .refuse h₁ _

theorem agree_reclaimAt (h : x.Mirrors m) (hm : m.Sound) (range : Range) (usage : Usage)
    (expected : Option Usage) :
    Agree Mirrors (reclaimAt range usage expected)
      (ExtentMap.reclaimAt range usage expected) x m := by
  refine .get_bind ?_
  rw [h.find?_eq]
  cases x.find? range.start with
  | none => exact .refuse h _
  | some found => exact agree_reclaim h hm found.1 range usage expected

/-! ## Calls -/

/-- Carries out a call. -/
def perform : ExtentMap.Mutation → LinkedMapOperation Unit
  | .insert range usage => do let _ ← insert range usage
  | .delete range => do let _ ← delete range
  | .reclaim target range usage expected => do let _ ← reclaim target range usage expected
  | .reclaimAt range usage expected => do let _ ← reclaimAt range usage expected
  | .merge address => do let _ ← merge address
  | .reset => reset

/-- No check makes a call end in another way. -/
theorem agree_perform (h : x.Mirrors m) (hm : m.Sound) (c : ExtentMap.Mutation) :
    Agree Mirrors (perform c) c.perform x m := by
  cases c with
  | insert range usage => exact (h.insert range usage).bind fun _ _ _ _ h₁ => .pure h₁ ()
  | delete range => exact (agree_delete h range).bind fun _ _ _ _ h₁ => .pure h₁ ()
  | reclaim target range usage expected =>
      exact (agree_reclaim h hm target range usage expected).bind fun _ _ _ _ h₁ => .pure h₁ ()
  | reclaimAt range usage expected =>
      exact (agree_reclaimAt h hm range usage expected).bind fun _ _ _ _ h₁ => .pure h₁ ()
  | merge address => exact (agree_merge h hm address).bind fun _ _ _ _ h₁ => .pure h₁ ()
  | reset => exact h.reset

end LinkedMap.Checked

end KernelMemory
