import KernelMemory.Proofs.Extent.Listing
import KernelMemory.Proofs.Index.Sound
import Mathlib.Data.List.Pairwise

/-!
# Sound extent maps

A map is sound if its index is, if its extents follow one another without overlap inside
the region, and if each of them is listed in the size class of its length exactly if it is
free. This is less than a partition: there may be holes, and neighbours of one usage. It
is what every operation keeps at every point where one of its steps is complete, also in
the middle of a reclaim, so all reasoning about operations goes from one sound map to the
next. `Becomes` is such a step: the map afterwards is sound, tracks the same region, and
holds the sequence that is stated.

The steps are `relist` (one extent changes), `place` (one comes in) and `displace` (one
goes). Only `place` can fail, and only for lack of slots.
-/

namespace KernelMemory

namespace ExtentMap

/-- Extents in the order of their addresses, none meeting another. -/
def Ordered (l : List (Handle × Extent)) : Prop :=
  l.Pairwise fun a b => a.2.stop ≤ b.2.start

theorem ordered_middle {pre post : List (Handle × Extent)} {p : Handle × Extent} :
    Ordered (pre ++ p :: post) ↔
      Ordered (pre ++ post) ∧ (∀ q ∈ pre, q.2.stop ≤ p.2.start) ∧
        ∀ q ∈ post, p.2.stop ≤ q.2.start := by
  unfold Ordered
  simp only [List.pairwise_append, List.pairwise_cons, List.forall_mem_cons]
  constructor
  · rintro ⟨hpre, ⟨hp, hpost⟩, hcross⟩
    exact ⟨⟨hpre, hpost, fun q hq => (hcross q hq).2⟩, fun q hq => (hcross q hq).1, hp⟩
  · rintro ⟨⟨hpre, hpost, hcross⟩, hbefore, hafter⟩
    exact ⟨hpre, ⟨hafter, hpost⟩, fun q hq => ⟨hbefore q hq, hcross q hq⟩⟩

/-- A probe by range sorts extents that are in order: those in front of the range, those
that meet it, those behind it. -/
theorem Ordered.sorts_compare {l : List (Handle × Extent)} (h : Ordered l) (r : Range) :
    Tree.Sorts (Extent.keying.locate r) l := by
  refine h.imp fun {a b} hab => ?_
  have ha := a.2.range.start_lt_stop
  have hb := b.2.range.start_lt_stop
  have hr := r.start_lt_stop
  simp only [Extent.start, Extent.stop] at hab
  simp only [Keying.locate, Extent.keying, Range.compare]
  constructor
  · intro hlt
    rw [if_pos]
    split at hlt
    · omega
    · split at hlt <;> simp at hlt
  · intro hgt
    rw [if_neg, if_pos]
    all_goals
      split at hgt
      · simp at hgt
      · split at hgt
        · omega
        · simp at hgt

theorem Ordered.sorts_locate {l : List (Handle × Extent)} (h : Ordered l) (address : Nat) :
    Tree.Sorts (fun e : Extent => Range.locate address e.range) l := by
  refine h.imp fun {a b} hab => ?_
  have ha := a.2.range.start_lt_stop
  have hb := b.2.range.start_lt_stop
  simp only [Extent.start, Extent.stop] at hab
  simp only [Range.locate]
  constructor
  · intro hlt
    rw [if_pos]
    split at hlt
    · omega
    · split at hlt <;> simp at hlt
  · intro hgt
    rw [if_neg, if_pos]
    all_goals
      split at hgt
      · simp at hgt
      · split at hgt
        · omega
        · simp at hgt

/-! ## Soundness -/

/-- The index is sound, holds this sequence, and the classes list it. -/
structure Holds (m : ExtentMap) (l : List (Handle × Extent)) : Prop where
  sound : m.index.Sound
  toList_eq : m.toList = l
  lists : m.classes.Lists l

/-- What every operation keeps. -/
structure Sound (m : ExtentMap) : Prop where
  index : m.index.Sound
  lists : m.classes.Lists m.toList
  ordered : Ordered m.toList
  listing : ∀ p ∈ m.toList, p.2.listedIn = p.2.listing
  inside : ∀ p ∈ m.toList, m.region.encloses p.2.range = true

structure SameFrame (m m' : ExtentMap) : Prop where
  name_eq : m'.name = m.name
  region_eq : m'.region = m.region
  owner_eq : m'.index.owner = m.index.owner

theorem SameFrame.trans {m m' m'' : ExtentMap} (h : m.SameFrame m') (h' : m'.SameFrame m'') :
    m.SameFrame m'' :=
  ⟨h'.name_eq.trans h.name_eq, h'.region_eq.trans h.region_eq, h'.owner_eq.trans h.owner_eq⟩

/-- The map `m'` is sound, tracks the same region as `m` under the same name, and holds
the sequence `l`. -/
structure Becomes (m : ExtentMap) (l : List (Handle × Extent)) (m' : ExtentMap) : Prop
    extends SameFrame m m' where
  sound : m'.Sound
  toList_eq : m'.toList = l

theorem Becomes.trans {m m' m'' : ExtentMap} {l l' : List (Handle × Extent)}
    (h : m.Becomes l m') (h' : m'.Becomes l' m'') : m.Becomes l' m'' :=
  ⟨h.toSameFrame.trans h'.toSameFrame, h'.sound, h'.toList_eq⟩

theorem Sound.becomes_self {m : ExtentMap} (h : m.Sound) : m.Becomes m.toList m :=
  ⟨⟨rfl, rfl, rfl⟩, h, rfl⟩

theorem Sound.length_eq {m : ExtentMap} (h : m.Sound) : m.toList.length = m.size :=
  h.index.length_toList

theorem Becomes.size_eq {m m' : ExtentMap} {l : List (Handle × Extent)} (h : m.Becomes l m') :
    m'.size = l.length := by
  rw [← h.sound.length_eq, h.toList_eq]

theorem Sound.get?_of_split {m : ExtentMap} (h : m.Sound) {id : Handle} {e : Extent}
    {pre post : List (Handle × Extent)} (hl : m.toList = pre ++ (id, e) :: post) :
    m.get? id = some e :=
  h.index.get?_of_split hl

theorem Sound.ordered_of_split {m : ExtentMap} (h : m.Sound) {id : Handle} {e : Extent}
    {pre post : List (Handle × Extent)} (hl : m.toList = pre ++ (id, e) :: post) :
    Ordered (pre ++ post) ∧ (∀ p ∈ pre, p.2.stop ≤ e.start) ∧ ∀ p ∈ post, e.stop ≤ p.2.start :=
  ordered_middle.mp (hl ▸ h.ordered)

theorem Sound.inside_of_split {m : ExtentMap} (h : m.Sound) {id : Handle} {e : Extent}
    {pre post : List (Handle × Extent)} (hl : m.toList = pre ++ (id, e) :: post) :
    m.region.start ≤ e.start ∧ e.stop ≤ m.region.stop :=
  Range.encloses_iff.mp (h.inside (id, e) (by simp [hl]))

theorem exists_split {m : ExtentMap} {id : Handle} {e : Extent} (h : m.get? id = some e) :
    ∃ pre post, m.toList = pre ++ (id, e) :: post :=
  Index.exists_split h

/-! ## One extent changes -/

section Steps

variable {m : ExtentMap} {pre post : List (Handle × Extent)} {id : Handle} {e : Extent}

theorem Holds.nodup {l : List (Handle × Extent)} (h : m.Holds l) : (l.map Prod.fst).Nodup := by
  rw [← h.toList_eq]
  exact h.sound.nodup

theorem Holds.get?_eq (h : m.Holds (pre ++ (id, e) :: post)) : m.get? id = some e :=
  h.sound.get?_of_split h.toList_eq

theorem Holds.delist (h : m.Holds (pre ++ (id, e) :: post)) :
    (m.delist id).Holds (pre ++ (id, { e with listedIn := none }) :: post) := by
  unfold ExtentMap.delist
  simp only [h.get?_eq]
  cases hlisted : e.listedIn with
  | none =>
      have : { e with listedIn := none } = e := by rw [← hlisted]
      rw [this]
      exact h
  | some index =>
      refine ⟨h.sound.set h.toList_eq _, h.sound.toList_set h.toList_eq _, ?_⟩
      refine h.lists.unlink (by simp) hlisted ?_ ?_
      · intro x hx
        rcases (Tree.mem_replaced e h.nodup).mp hx with ⟨-, hxe⟩ | ⟨hne, -⟩
        · exact hxe
        · exact absurd rfl hne
      · intro x y hy
        rw [Tree.mem_replaced _ h.nodup]
        refine ⟨fun hmem => hmem.resolve_left fun ⟨_, hnone⟩ => ?_, .inr⟩
        rw [hnone] at hy
        simp at hy

theorem Holds.modify (h : m.Holds (pre ++ (id, e) :: post)) (he : e.listedIn = none)
    (f : Extent → Extent) (hf : (f e).listedIn = none) :
    (m.modify id f).Holds (pre ++ (id, f e) :: post) := by
  have hget : m.index.get? id = some e := h.get?_eq
  unfold ExtentMap.modify Index.modify
  simp only [hget]
  refine ⟨h.sound.set h.toList_eq _, h.sound.toList_set h.toList_eq _, ?_⟩
  refine h.lists.congr ?_
  intro x y hy
  rw [Tree.mem_replaced (f e) h.nodup]
  constructor
  · intro hmem
    rcases hmem with ⟨-, hye⟩ | ⟨-, hmem⟩
    · rw [hye, hf] at hy
      simp at hy
    · exact hmem
  · intro hmem
    rcases (Tree.mem_replaced e h.nodup).mp hmem with ⟨-, hye⟩ | hother
    · rw [hye, he] at hy
      simp at hy
    · exact .inr hother

theorem Holds.list (h : m.Holds (pre ++ (id, e) :: post)) (he : e.listedIn = none) :
    (m.list id).Holds (pre ++ (id, e.listed) :: post) := by
  unfold ExtentMap.list
  simp only [h.get?_eq]
  split
  · next hfree =>
    have hlisted : { e with listedIn := some (sizeClass e.length) } = e.listed := by
      rw [Extent.listed, Extent.listing, if_pos hfree]
    rw [hlisted]
    refine ⟨h.sound.set h.toList_eq _, h.sound.toList_set h.toList_eq _, ?_⟩
    refine h.lists.link (e := e.listed) (by rw [← hlisted])
      (sizeClass_lt e.range.length_lt_bound) ?_ ?_
    · intro x hx
      rcases (Tree.mem_replaced e h.nodup).mp hx with ⟨-, hxe⟩ | ⟨hne, -⟩
      · rw [hxe, he]
      · exact absurd rfl hne
    · intro x y hy
      rw [Tree.mem_replaced _ h.nodup, Prod.mk.injEq]
      refine or_congr Iff.rfl ⟨And.right, fun hmem => ⟨?_, hmem⟩⟩
      rcases (Tree.mem_replaced e h.nodup).mp hmem with ⟨-, hye⟩ | ⟨hne, -⟩
      · rw [hye, he] at hy
        simp at hy
      · exact hne
  · next hused =>
    have hlisted : { e with listedIn := none } = e.listed := by
      rw [Extent.listed, Extent.listing, if_neg hused]
    have hsame : e.listed = e := by rw [← hlisted, ← he]
    rw [hlisted, hsame]
    refine ⟨h.sound.set h.toList_eq _, h.sound.toList_set h.toList_eq _, h.lists⟩

end Steps

/-! ## What no step changes -/

theorem sameFrame_delist (m : ExtentMap) (id : Handle) : m.SameFrame (m.delist id) := by
  unfold ExtentMap.delist
  split
  · exact ⟨rfl, rfl, rfl⟩
  · split <;> exact ⟨rfl, rfl, rfl⟩

theorem sameFrame_list (m : ExtentMap) (id : Handle) : m.SameFrame (m.list id) := by
  unfold ExtentMap.list
  split
  · exact ⟨rfl, rfl, rfl⟩
  · split <;> exact ⟨rfl, rfl, rfl⟩

theorem sameFrame_modify (m : ExtentMap) (id : Handle) (f : Extent → Extent) :
    m.SameFrame (m.modify id f) := by
  unfold ExtentMap.modify Index.modify
  split <;> exact ⟨rfl, rfl, rfl⟩

section Steps

variable {m m' : ExtentMap} {pre post : List (Handle × Extent)} {id : Handle} {e e' : Extent}

/-- A step that puts one listed extent between others in the order of addresses. -/
theorem Sound.becomes_middle (h : m.Sound) (hm' : m'.Holds (pre ++ (id, e.listed) :: post))
    (hframe : m.SameFrame m') (hsides : ∀ p ∈ pre ++ post, p ∈ m.toList)
    (hord : Ordered (pre ++ post)) (hpre : ∀ p ∈ pre, p.2.stop ≤ e.start)
    (hpost : ∀ p ∈ post, e.stop ≤ p.2.start) (hin : m.region.encloses e.range = true) :
    m.Becomes (pre ++ (id, e.listed) :: post) m' := by
  have hl := hm'.toList_eq
  have hmem : ∀ p ∈ m'.toList, p = (id, e.listed) ∨ p ∈ m.toList := by
    intro p hp
    rw [hl, List.mem_append, List.mem_cons] at hp
    rcases hp with hp | hp | hp
    · exact .inr (hsides p (List.mem_append_left post hp))
    · exact .inl hp
    · exact .inr (hsides p (List.mem_append_right pre hp))
  refine ⟨hframe, ⟨hm'.sound, ?_, ?_, ?_, ?_⟩, hl⟩
  · rw [hl]
    exact hm'.lists
  · rw [hl]
    exact ordered_middle.mpr ⟨hord, hpre, hpost⟩
  · intro p hp
    rcases hmem p hp with rfl | hp
    · rfl
    · exact h.listing p hp
  · intro p hp
    rw [hframe.region_eq]
    rcases hmem p hp with rfl | hp
    · exact hin
    · exact h.inside p hp

theorem Sound.holds (h : m.Sound) (hl : m.toList = pre ++ (id, e) :: post) :
    m.Holds (pre ++ (id, e) :: post) := by
  rw [← hl]
  exact ⟨h.index, rfl, h.lists⟩

/-- The extent of a handle is taken out of its class, changed, and listed again. -/
theorem Sound.relist (h : m.Sound) (hl : m.toList = pre ++ (id, e) :: post) (e' : Extent)
    (f : Extent → Extent) (hf : f { e with listedIn := none } = e') (he' : e'.listedIn = none)
    (hpre : ∀ p ∈ pre, p.2.stop ≤ e'.start) (hpost : ∀ p ∈ post, e'.stop ≤ p.2.start)
    (hin : m.region.encloses e'.range = true) :
    m.Becomes (pre ++ (id, e'.listed) :: post) (((m.delist id).modify id f).list id) := by
  have hmod := (h.holds hl).delist.modify rfl f (by rw [hf, he'])
  rw [hf] at hmod
  refine h.becomes_middle (hmod.list he')
    (((sameFrame_delist m id).trans (sameFrame_modify _ id f)).trans (sameFrame_list _ id))
    ?_ (h.ordered_of_split hl).1 hpre hpost hin
  intro p hp
  rw [hl]
  rcases List.mem_append.mp hp with hp | hp
  · exact List.mem_append_left _ hp
  · exact List.mem_append_right _ (List.mem_cons_of_mem _ hp)

/-! ## One extent comes in -/

theorem outcome_onIndex {ε α : Type} (op : Operation (Index Extent) ε α) (m : ExtentMap) :
    (onIndex op).outcome m =
      ((op.outcome m.index).1, { m with index := (op.outcome m.index).2 }) := rfl

theorem Sound.becomes_gained (h : m.Sound) {ix : Index Extent} (he : e.listedIn = none)
    (hg : m.index.Gained id e pre post ix)
    (hpre : ∀ p ∈ pre, p.2.stop ≤ e.start) (hpost : ∀ p ∈ post, e.stop ≤ p.2.start)
    (hin : m.region.encloses e.range = true) :
    m.Becomes (pre ++ (id, e.listed) :: post)
      (ExtentMap.list { m with index := ix } id) := by
  have hl : m.toList = pre ++ post := hg.before
  have hholds : Holds { m with index := ix } (pre ++ (id, e) :: post) := by
    refine ⟨hg.sound, hg.after, h.lists.congr ?_⟩
    intro x y hy
    rw [hl, List.mem_append, List.mem_append, List.mem_cons, Prod.mk.injEq]
    refine ⟨?_, fun hmem => hmem.elim .inl fun hp => .inr (.inr hp)⟩
    intro hmem
    rcases hmem with hp | ⟨-, hye⟩ | hp
    · exact .inl hp
    · rw [hye, he] at hy
      simp at hy
    · exact .inr hp
  have hframe : m.SameFrame { m with index := ix } := ⟨rfl, rfl, hg.owner_eq⟩
  refine h.becomes_middle (hholds.list he) (hframe.trans (sameFrame_list _ id)) ?_
    ?_ hpre hpost hin
  · intro p hp
    rw [hl]
    exact hp
  · rw [← hl]
    exact h.ordered

/-- An extent that meets no other one goes where its range belongs. -/
theorem Sound.outcome_insert_index (h : m.Sound)
    (hapart : ∀ p ∈ m.toList, e.range.overlaps p.2.range = false) :
    (∃ slots, (Index.insert Extent.keying e).outcome m.index =
          (.fault (.slotsExhausted slots), m.index) ∧ Slots.capacity ≤ m.size) ∨
      ∃ id ix pre post, (Index.insert Extent.keying e).outcome m.index = (.ok id, ix) ∧
        m.index.Gained id e pre post ix ∧ (∀ p ∈ pre, p.2.stop ≤ e.start) ∧
        ∀ p ∈ post, e.stop ≤ p.2.start := by
  have hne : ∀ p ∈ m.index.toList,
      Extent.keying.locate (Extent.keying.key e) p.2 ≠ .eq := by
    intro p hp heq
    have : e.range.overlaps p.2.range = true := (Range.compare_eq_eq_iff _ _).mp heq
    rw [hapart p hp] at this
    simp at this
  rcases h.index.outcome_insert (h.ordered.sorts_compare e.range) hne with
    hfull | ⟨id, ix, pre, post, hout, hg, hpre, hpost⟩
  · exact .inl hfull
  · refine .inr ⟨id, ix, pre, post, hout, hg, ?_, ?_⟩
    · intro p hp
      have hgt : e.range.compare p.2.range = .gt := hpre p hp
      unfold Range.compare at hgt
      split at hgt
      · simp at hgt
      · split at hgt
        · assumption
        · simp at hgt
    · intro p hp
      have hlt : e.range.compare p.2.range = .lt := hpost p hp
      unfold Range.compare at hlt
      split at hlt
      · assumption
      · split at hlt <;> simp at hlt

/-- Extents in order have at most one place for a range. -/
theorem eq_of_apart {r : Range} {pre post pre' post' : List (Handle × Extent)}
    (h : pre ++ post = pre' ++ post') (hpre : ∀ p ∈ pre, p.2.stop ≤ r.start)
    (hpost : ∀ p ∈ post, r.stop ≤ p.2.start) (hpre' : ∀ p ∈ pre', p.2.stop ≤ r.start)
    (hpost' : ∀ p ∈ post', r.stop ≤ p.2.start) : pre = pre' ∧ post = post' := by
  have hsides : ∀ p : Handle × Extent, p.2.stop ≤ r.start → r.stop ≤ p.2.start → False :=
    fun p hbefore hafter => by
      have hp := p.2.range.start_lt_stop
      have hr := r.start_lt_stop
      simp only [Extent.start, Extent.stop] at hbefore hafter
      omega
  rcases List.append_eq_append_iff.mp h with ⟨mid, rfl, rfl⟩ | ⟨mid, rfl, rfl⟩
  · cases mid with
    | nil => simp
    | cons p mid => exact (hsides p (hpre' p (by simp)) (hpost p (by simp))).elim
  · cases mid with
    | nil => simp
    | cons p mid => exact (hsides p (hpre p (by simp)) (hpost' p (by simp))).elim

theorem Sound.outcome_place (h : m.Sound) (hl : m.toList = pre ++ post)
    (he : e.listedIn = none) (hpre : ∀ p ∈ pre, p.2.stop ≤ e.start)
    (hpost : ∀ p ∈ post, e.stop ≤ p.2.start) (hin : m.region.encloses e.range = true)
    (cause : IndexError → Breakage) :
    (∃ slots, (place e cause).outcome m = (.fault (.slotsExhausted slots), m) ∧
        Slots.capacity ≤ m.size) ∨
      ∃ id m', (place e cause).outcome m = (.ok id, m') ∧ id ∉ m.toList.map Prod.fst ∧
        m.Becomes (pre ++ (id, e.listed) :: post) m' := by
  have hapart : ∀ p ∈ m.toList, e.range.overlaps p.2.range = false := by
    intro p hp
    rw [hl, List.mem_append] at hp
    simp only [Range.overlaps, Bool.and_eq_false_iff, decide_eq_false_iff_not, Nat.not_lt]
    exact hp.elim (fun hp => .inl (hpre p hp)) fun hp => .inr (hpost p hp)
  rcases h.outcome_insert_index hapart with
    ⟨slots, hout, hfull⟩ | ⟨id, ix, pre', post', hout, hg, hpre', hpost'⟩
  · refine .inl ⟨slots, ?_, hfull⟩
    rw [place, Operation.outcome_bind, Operation.outcome_attempt, outcome_onIndex, hout]
  · obtain ⟨rfl, rfl⟩ :=
      eq_of_apart (r := e.range) (hl.symm.trans hg.before) hpre hpost hpre' hpost'
    refine .inr ⟨id, _, ?_, hg.fresh, h.becomes_gained he hg hpre hpost hin⟩
    rw [place, Operation.outcome_bind, Operation.outcome_attempt, outcome_onIndex, hout]
    rfl

/-! ## One extent goes -/

theorem Sound.outcome_displace (h : m.Sound) (hl : m.toList = pre ++ (id, e) :: post) :
    ∃ m', (displace id).outcome m = (.ok { e with listedIn := none }, m') ∧
      m.Becomes (pre ++ post) m' := by
  have hholds := (h.holds hl).delist
  obtain ⟨ix, hout, hlost⟩ := hholds.sound.outcome_remove hholds.toList_eq
  have hframe := sameFrame_delist m id
  have hmem : ∀ p ∈ pre ++ post, p ∈ m.toList := by
    intro p hp
    rw [hl]
    rcases List.mem_append.mp hp with hp | hp
    · exact List.mem_append_left _ hp
    · exact List.mem_append_right _ (List.mem_cons_of_mem _ hp)
  refine ⟨{ m.delist id with index := ix }, ?_,
    ⟨hframe.name_eq, hframe.region_eq, hlost.owner_eq.trans hframe.owner_eq⟩,
    ⟨hlost.sound, ?_, ?_, ?_, ?_⟩, hlost.after⟩
  · rw [displace, Operation.outcome_modify_bind, Operation.outcome_bind,
      Operation.outcome_attempt, outcome_onIndex, hout]
    rfl
  · show (m.delist id).classes.Lists ix.toList
    rw [hlost.after]
    refine hholds.lists.congr ?_
    intro x y hy
    rw [List.mem_append, List.mem_append, List.mem_cons, Prod.mk.injEq]
    refine ⟨fun hmem => hmem.elim .inl fun hp => .inr (.inr hp), ?_⟩
    intro hmem
    rcases hmem with hp | ⟨-, hye⟩ | hp
    · exact .inl hp
    · rw [hye] at hy
      simp at hy
    · exact .inr hp
  · show Ordered ix.toList
    rw [hlost.after]
    exact (h.ordered_of_split hl).1
  · intro p hp
    replace hp : p ∈ ix.toList := hp
    rw [hlost.after] at hp
    exact h.listing p (hmem p hp)
  · intro p hp
    replace hp : p ∈ ix.toList := hp
    rw [hlost.after] at hp
    show (m.delist id).region.encloses p.2.range = true
    rw [hframe.region_eq]
    exact h.inside p (hmem p hp)

end Steps

end ExtentMap

end KernelMemory
