import KernelMemory.Extent.Reclaim
import KernelMemory.Proofs.Extent.Address

/-!
# Merging

Merging around an extent absorbs its twins, the neighbours that touch it and have its
usage, one by one. What comes of it does not depend on the order: the extent ends up with
the longest stretch of its usage that has no gap, and that stretch was tiled before by the
extents absorbed. Each step takes one extent out, so the number of extents is fuel enough.
-/

namespace KernelMemory

namespace ExtentMap

/-- The first extent ends where the second starts, and both have one usage. -/
def Twins (a b : Extent) : Prop :=
  a.stop = b.start ∧ a.usage = b.usage

section Steps

variable {m : ExtentMap} {pre post : List (Handle × Extent)} {id : Handle} {e : Extent}

/-! ## The twins of an extent -/

theorem Sound.leftTwin?_cases (h : m.Sound) (hl : m.toList = pre ++ (id, e) :: post) :
    (m.leftTwin? id e = none ∧ ∀ p, pre.getLast? = some p → ¬ Twins p.2 e) ∨
      ∃ pre' other, ∃ l : Extent, ∃ hstop : l.range.stop = e.range.start,
        pre = pre' ++ [(other, l)] ∧ l.usage = e.usage ∧
        m.leftTwin? id e = some (other, l.range.join e.range hstop) := by
  have hprev : m.index.predecessor? id = pre.getLast?.map Prod.fst := h.index.predecessor?_eq hl
  rcases List.eq_nil_or_concat pre with rfl | ⟨pre', ⟨other, l⟩, rfl⟩
  · refine .inl ⟨?_, by simp⟩
    rw [leftTwin?, hprev]
    rfl
  · rw [List.concat_eq_append] at hl hprev ⊢
    have hget : m.get? other = some l :=
      h.get?_of_split (show m.toList = pre' ++ (other, l) :: (id, e) :: post by
        rw [hl, List.append_assoc]; rfl)
    simp only [List.getLast?_append, List.getLast?_singleton, Option.some_or,
      Option.map_some] at hprev
    simp only [leftTwin?, hprev, Option.bind_eq_bind, Option.bind_some, hget]
    split
    · next htwins => exact .inr ⟨pre', other, l, htwins.1, rfl, htwins.2, rfl⟩
    · next hnot =>
      refine .inl ⟨rfl, fun p hp htwins => hnot ?_⟩
      simp only [List.getLast?_append, List.getLast?_singleton, Option.some_or,
        Option.some.injEq] at hp
      subst hp
      exact htwins

theorem Sound.rightTwin?_cases (h : m.Sound) (hl : m.toList = pre ++ (id, e) :: post) :
    (m.rightTwin? id e = none ∧ ∀ p, post.head? = some p → ¬ Twins e p.2) ∨
      ∃ other, ∃ r : Extent, ∃ post', ∃ hstop : e.range.stop = r.range.start,
        post = (other, r) :: post' ∧ r.usage = e.usage ∧
        m.rightTwin? id e = some (other, e.range.join r.range hstop) := by
  have hnext : m.index.successor? id = post.head?.map Prod.fst := h.index.successor?_eq hl
  cases post with
  | nil =>
      refine .inl ⟨?_, by simp⟩
      rw [rightTwin?, hnext]
      rfl
  | cons p post' =>
      obtain ⟨other, r⟩ := p
      have hget : m.get? other = some r :=
        h.get?_of_split (show m.toList = (pre ++ [(id, e)]) ++ (other, r) :: post' by rw [hl]; simp)
      simp only [List.head?_cons, Option.map_some] at hnext
      simp only [rightTwin?, hnext, Option.bind_eq_bind, Option.bind_some, hget]
      split
      · next htwins => exact .inr ⟨other, r, post', htwins.1, rfl, htwins.2, rfl⟩
      · next hnot =>
        refine .inl ⟨rfl, fun p hp htwins => hnot ?_⟩
        simp only [List.head?_cons, Option.some.injEq] at hp
        subst hp
        exact ⟨htwins.1, htwins.2.symm⟩

/-! ## One twin is absorbed -/

def spread (e : Extent) (range : Range) : Extent :=
  ({ e with range := range } : Extent).listed

theorem Sound.outcome_absorb (h : m.Sound) (joined : Range)
    {pre' post' : List (Handle × Extent)} {other : Handle} {gone : Extent}
    {before after : List (Handle × Extent)}
    (hl : m.toList = before ++ (other, gone) :: after)
    (hrest : before ++ after = pre' ++ (id, e) :: post')
    (hpre : ∀ p ∈ pre', p.2.stop ≤ joined.start) (hpost : ∀ p ∈ post', joined.stop ≤ p.2.start)
    (hin : m.region.encloses joined = true) (range : Range) :
    ∃ m', (absorb other id range joined).outcome m = (.ok (), m') ∧
      m.Becomes (pre' ++ (id, spread e joined) :: post') m' := by
  obtain ⟨m₁, hout, hm₁⟩ := h.outcome_displace hl
  rw [hrest] at hm₁
  have hm₂ := hm₁.sound.relist hm₁.toList_eq { e with range := joined, listedIn := none }
    (fun e => { e with range := joined }) rfl rfl hpre hpost
    (by rw [hm₁.region_eq]; exact hin)
  refine ⟨_, ?_, hm₁.trans hm₂⟩
  rw [absorb, Operation.outcome_bind_ok hout, Operation.outcome_modify_bind, note]
  simp

/-! ## All twins are absorbed -/

/-- Between `pre` and `post` the extents `left`, `e` and `right` have one usage and cover
`joined` without a gap, and neither the extent before nor the one behind continues them. -/
structure Stretch (pre left : List (Handle × Extent)) (id : Handle) (e : Extent)
    (right post : List (Handle × Extent)) (joined : Range) : Prop where
  tiles : Tiles joined.start (left ++ (id, e) :: right) joined.stop
  uniform : ∀ p ∈ left ++ (id, e) :: right, p.2.usage = e.usage
  left_end : ∀ p, pre.getLast? = some p → ¬ Twins p.2 (spread e joined)
  right_end : ∀ p, post.head? = some p → ¬ Twins (spread e joined) p.2

theorem Stretch.absorb_left {left right : List (Handle × Extent)} {other : Handle}
    {l : Extent} {joined : Range} {hstop : l.range.stop = e.range.start}
    (h : Stretch pre left id (spread e (l.range.join e.range hstop)) right post joined)
    (hu : l.usage = e.usage) : Stretch pre (left ++ [(other, l)]) id e right post joined := by
  obtain ⟨cut, hleft, hstart, hright⟩ := tiles_append.mp h.tiles
  refine ⟨tiles_append.mpr ⟨l.stop, tiles_append.mpr ⟨cut, hleft, hstart, rfl⟩, hstop.symm,
    hright⟩, ?_, h.left_end, h.right_end⟩
  intro p hp
  have hothers := h.uniform
  simp only [List.mem_append, List.mem_cons, List.not_mem_nil, or_false] at hp hothers
  rcases hp with (hp | rfl) | rfl | hp
  · exact hothers p (.inl hp)
  · exact hu
  · rfl
  · exact hothers p (.inr (.inr hp))

theorem Stretch.absorb_right {left right : List (Handle × Extent)} {other : Handle}
    {r : Extent} {joined : Range} {hstop : e.range.stop = r.range.start}
    (h : Stretch pre left id (spread e (e.range.join r.range hstop)) right post joined)
    (hu : r.usage = e.usage) : Stretch pre left id e ((other, r) :: right) post joined := by
  obtain ⟨cut, hleft, hstart, hright⟩ := tiles_append.mp h.tiles
  refine ⟨tiles_append.mpr ⟨cut, hleft, hstart, hstop.symm, hright⟩, ?_,
    h.left_end, h.right_end⟩
  intro p hp
  have hothers := h.uniform
  simp only [List.mem_append, List.mem_cons] at hp hothers
  rcases hp with hp | rfl | rfl | hp
  · exact hothers p (.inl hp)
  · rfl
  · exact hu
  · exact hothers p (.inr (.inr hp))

theorem outcome_resolve (hget : m.get? id = some e) : (resolve id).outcome m = (.ok e, m) := by
  rw [resolve, Operation.outcome_get_bind]
  simp only [hget, Operation.outcome_pure]

theorem Sound.spread_self (h : m.Sound) (hl : m.toList = pre ++ (id, e) :: post) :
    spread e e.range = e := by
  have hlisting : e.listedIn = e.listing := h.listing (id, e) (by simp [hl])
  show { e with listedIn := e.listing } = e
  rw [← hlisting]

theorem outcome_mergeUpTo_of_none (hget : m.get? id = some e)
    (hnone : (m.leftTwin? id e).or (m.rightTwin? id e) = none) (fuel : Nat) :
    (mergeUpTo fuel id).outcome m = (.ok id, m) := by
  cases fuel with
  | zero => rfl
  | succ fuel =>
      rw [mergeUpTo, Operation.outcome_bind_ok (outcome_resolve hget),
        Operation.outcome_get_bind]
      simp only [hnone, Operation.outcome_pure]

theorem outcome_mergeUpTo_of_some (hget : m.get? id = some e) {other : Handle} {joined : Range}
    (hsome : (m.leftTwin? id e).or (m.rightTwin? id e) = some (other, joined)) (fuel : Nat) :
    (mergeUpTo (fuel + 1) id).outcome m =
      (do absorb other id e.range joined; mergeUpTo fuel id).outcome m := by
  rw [mergeUpTo, Operation.outcome_bind_ok (outcome_resolve hget), Operation.outcome_get_bind]
  simp only [hsome]

/-- What a round of merging around `id` comes to: it finds no twin and merging is over, or it
absorbs one and the next round goes on from there. -/
inductive Round (m : ExtentMap) (pre : List (Handle × Extent)) (id : Handle) (e : Extent)
    (post : List (Handle × Extent)) : Prop
  | done (left_end : ∀ p, pre.getLast? = some p → ¬ Twins p.2 e)
      (right_end : ∀ p, post.head? = some p → ¬ Twins e p.2)
      (ends : ∀ fuel, (mergeUpTo fuel id).outcome m = (.ok id, m))
  | left {pre' : List (Handle × Extent)} {other : Handle} {l : Extent} {m' : ExtentMap}
      (hstop : l.range.stop = e.range.start) (hpre : pre = pre' ++ [(other, l)])
      (hu : l.usage = e.usage)
      (hm' : m.Becomes (pre' ++ (id, spread e (l.range.join e.range hstop)) :: post) m')
      (next : ∀ fuel, (mergeUpTo (fuel + 1) id).outcome m = (mergeUpTo fuel id).outcome m')
  | right {other : Handle} {r : Extent} {post' : List (Handle × Extent)} {m' : ExtentMap}
      (hstop : e.range.stop = r.range.start) (hpost : post = (other, r) :: post')
      (hu : r.usage = e.usage)
      (hm' : m.Becomes (pre ++ (id, spread e (e.range.join r.range hstop)) :: post') m')
      (next : ∀ fuel, (mergeUpTo (fuel + 1) id).outcome m = (mergeUpTo fuel id).outcome m')

theorem Sound.round (h : m.Sound) (hl : m.toList = pre ++ (id, e) :: post) :
    Round m pre id e post := by
  have hget := h.get?_of_split hl
  rcases h.leftTwin?_cases hl with
    ⟨hnone, hleft⟩ | ⟨pre', other, l, hstop, rfl, hu, htwin⟩
  · rcases h.rightTwin?_cases hl with
      ⟨hnone', hright⟩ | ⟨other, r, post', hstop, rfl, hu, htwin⟩
    · exact .done hleft hright
        (outcome_mergeUpTo_of_none hget (by rw [hnone, hnone', Option.none_or]))
    · have hround := outcome_mergeUpTo_of_some hget (by rw [hnone, htwin, Option.none_or])
      have hl' : m.toList = (pre ++ [(id, e)]) ++ (other, r) :: post' := by
        rw [hl, List.append_assoc, List.singleton_append]
      obtain ⟨m', hout, hm'⟩ := h.outcome_absorb (e.range.join r.range hstop) hl'
        (by rw [List.append_assoc, List.singleton_append]) (h.ordered_of_split hl).2.1
        (h.ordered_of_split hl').2.2
        (Range.encloses_iff.mpr ⟨(h.inside_of_split hl).1, (h.inside_of_split hl').2⟩) e.range
      exact .right hstop rfl hu hm' fun fuel =>
        (hround fuel).trans (Operation.outcome_bind_ok hout _)
  · have hround := outcome_mergeUpTo_of_some hget (by rw [htwin, Option.some_or])
    have hl' : m.toList = pre' ++ (other, l) :: (id, e) :: post := by
      rw [hl, List.append_assoc, List.singleton_append]
    obtain ⟨m', hout, hm'⟩ := h.outcome_absorb (l.range.join e.range hstop) hl' rfl
      (h.ordered_of_split hl').2.1 (h.ordered_of_split hl).2.2
      (Range.encloses_iff.mpr ⟨(h.inside_of_split hl').1, (h.inside_of_split hl).2⟩) e.range
    exact .left hstop rfl hu hm' fun fuel =>
      (hround fuel).trans (Operation.outcome_bind_ok hout _)

/-- As much fuel as there are other extents takes merging to its end. -/
theorem Sound.outcome_mergeUpTo (h : m.Sound) (hl : m.toList = pre ++ (id, e) :: post)
    (fuel : Nat) (hfuel : pre.length + post.length ≤ fuel) :
    ∃ m' pre' left right post' joined, (mergeUpTo fuel id).outcome m = (.ok id, m') ∧
      pre = pre' ++ left ∧ post = right ++ post' ∧
      Stretch pre' left id e right post' joined ∧
      m.Becomes (pre' ++ (id, spread e joined) :: post') m' := by
  -- the fuel bounds the extents that are left to absorb, whichever side they are on
  induction fuel generalizing m pre post e with
  | zero =>
      obtain rfl : pre = [] := List.eq_nil_of_length_eq_zero (by omega)
      obtain rfl : post = [] := List.eq_nil_of_length_eq_zero (by omega)
      refine ⟨m, [], [], [], [], e.range, rfl, rfl, rfl,
        ⟨⟨rfl, rfl⟩, by simp, by simp, by simp⟩, ?_⟩
      rw [h.spread_self hl, ← hl]
      exact h.becomes_self
  | succ fuel ih =>
      cases h.round hl with
      | done hleft hright ends =>
          refine ⟨m, pre, [], [], post, e.range, ends _, by simp, rfl,
            ⟨⟨rfl, rfl⟩, by simp, hleft, hright⟩, ?_⟩
          rw [h.spread_self hl, ← hl]
          exact h.becomes_self
      | @left pre₁ other l m₁ hstop hpre₁ hu hm₁ next =>
          rw [hpre₁, List.length_append, List.length_singleton] at hfuel
          obtain ⟨m', pre', left, right, post', joined, hrun, hpre, hpost, hstretch, hm'⟩ :=
            ih hm₁.sound hm₁.toList_eq (by omega)
          exact ⟨m', pre', left ++ [(other, l)], right, post', joined, (next fuel).trans hrun,
            by rw [hpre₁, hpre, List.append_assoc], hpost, hstretch.absorb_left hu,
            hm₁.trans hm'⟩
      | @right other r post₁ m₁ hstop hpost₁ hu hm₁ next =>
          rw [hpost₁, List.length_cons] at hfuel
          obtain ⟨m', pre', left, right, post', joined, hrun, hpre, hpost, hstretch, hm'⟩ :=
            ih hm₁.sound hm₁.toList_eq (by omega)
          exact ⟨m', pre', left, (other, r) :: right, post', joined, (next fuel).trans hrun, hpre,
            by rw [hpost₁, hpost, List.cons_append], hstretch.absorb_right hu, hm₁.trans hm'⟩

/-- Merging comes to its end by itself: fuel beyond the number of other extents is not used. -/
theorem Sound.outcome_mergeUpTo_of_le (h : m.Sound) (hl : m.toList = pre ++ (id, e) :: post)
    {fuel fuel' : Nat} (hfuel : pre.length + post.length ≤ fuel) (hle : fuel ≤ fuel') :
    (mergeUpTo fuel' id).outcome m = (mergeUpTo fuel id).outcome m := by
  induction fuel generalizing m pre post e fuel' with
  | zero =>
      cases h.round hl with
      | done _ _ ends => rw [ends, ends]
      | left _ hpre => simp [hpre] at hfuel
      | right _ hpost => simp [hpost] at hfuel
  | succ fuel ih =>
      obtain ⟨fuel', rfl⟩ := Nat.exists_eq_add_of_le' (Nat.le_trans (Nat.le_add_left 1 fuel) hle)
      cases h.round hl with
      | done _ _ ends => rw [ends, ends]
      | left _ hpre _ hm₁ next =>
          rw [hpre, List.length_append, List.length_singleton] at hfuel
          rw [next, next]
          exact ih hm₁.sound hm₁.toList_eq (by omega) (by omega)
      | right _ hpost _ hm₁ next =>
          rw [hpost, List.length_cons] at hfuel
          rw [next, next]
          exact ih hm₁.sound hm₁.toList_eq (by omega) (by omega)

/-- The extent of `id` has absorbed all its twins. -/
def Coalesced (m : ExtentMap) (id : Handle) (m' : ExtentMap) : Prop :=
  ∃ pre left e right post joined, m.toList = (pre ++ left) ++ (id, e) :: (right ++ post) ∧
    Stretch pre left id e right post joined ∧
    m.Becomes (pre ++ (id, spread e joined) :: post) m'

theorem Sound.outcome_mergeAround (h : m.Sound) (hl : m.toList = pre ++ (id, e) :: post) :
    ∃ m', (mergeAround id).outcome m = (.ok id, m') ∧ Coalesced m id m' := by
  have hsize : m.toList.length = m.size := h.length_eq
  rw [hl, List.length_append, List.length_cons] at hsize
  rw [mergeAround, Operation.outcome_get_bind]
  obtain ⟨m', pre', left, right, post', joined, hrun, rfl, rfl, hstretch, hm'⟩ :=
    h.outcome_mergeUpTo hl m.size (by omega)
  exact ⟨m', hrun, pre', left, e, right, post', joined, hl, hstretch, hm'⟩

/-- A merge finds an extent and coalesces it, or nothing happens. -/
theorem Sound.merge_cases (h : m.Sound) (address : Nat) :
    (merge address).outcome m = (.error .notFound, m) ∧ m.find? address = none ∨
      ∃ id e m', m.find? address = some (id, e) ∧
        (merge address).outcome m = (.ok id, m') ∧ Coalesced m id m' := by
  rw [merge, Operation.outcome_get_bind]
  cases hfind : m.find? address with
  | none => exact .inl ⟨rfl, rfl⟩
  | some found =>
      obtain ⟨id, e⟩ := found
      obtain ⟨pre, post, hl⟩ := List.append_of_mem (contains_of_find? hfind).1
      obtain ⟨m', hout, hm'⟩ := h.outcome_mergeAround hl
      exact .inr ⟨id, e, m', rfl, hout, hm'⟩

theorem Coalesced.sound {m' : ExtentMap} (hc : Coalesced m id m') : m'.Sound := by
  obtain ⟨_, _, _, _, _, _, -, -, hm'⟩ := hc
  exact hm'.sound

theorem Coalesced.sameFrame {m' : ExtentMap} (hc : Coalesced m id m') : m.SameFrame m' := by
  obtain ⟨_, _, _, _, _, _, -, -, hm'⟩ := hc
  exact hm'.toSameFrame

end Steps

end ExtentMap

end KernelMemory
