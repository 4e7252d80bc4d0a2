import KernelMemory.Proofs.Extent.Reading
import KernelMemory.Proofs.Space.Plan
import KernelMemory.Space.Linked

/-!
# Address spaces in lockstep

An address space over a linked map mirrors one over a map with lists if their maps mirror
each other and the second is sound. Every call then ends alike in both. What a call looks up
by a handle is what a search has just found under it, and the pieces that a gather allocation
writes one by one are those of the plan, so a count of them is at most that of all extents.
-/

namespace KernelMemory

open Operation (Agree)

theorem ExtentMap.Sound.state_reclaim {m : ExtentMap} (h : m.Sound) (target : Handle)
    (range : Range) (usage : Usage) (expected : Option Usage) :
    ((reclaim target range usage expected).outcome m).2.Sound := by
  rcases h.reclaim_cases target range usage expected with
    ⟨error, hout⟩ | ⟨slots, m', hout, hm', -⟩ | ⟨id, m', hout, hm'⟩
  · rw [hout]
    exact h
  · rw [hout]
    exact hm'
  · rw [hout]
    exact hm'.sound h

theorem ExtentMap.Sound.state_reclaimAt {m : ExtentMap} (h : m.Sound) (range : Range)
    (usage : Usage) (expected : Option Usage) :
    ((reclaimAt range usage expected).outcome m).2.Sound := by
  rw [reclaimAt, Operation.outcome_get_bind]
  cases m.find? range.start with
  | none => exact h
  | some found => exact h.state_reclaim found.1 range usage expected

/-- What is found by searching is in the map under its handle. -/
theorem ExtentMap.Sound.get?_of_search {m : ExtentMap} (h : m.Sound) {size : Nat}
    {p : Handle × Extent} (hp : m.search (.ofSize size) = .ok p) : m.get? p.1 = some p.2 :=
  h.index.get?_eq_some_iff.mpr ((h.answersSize_search rfl).best p hp).1

theorem ExtentMap.Sound.get?_of_largest? {m : ExtentMap} (h : m.Sound) {p : Handle × Extent}
    (hp : m.largest? .free = some p) : m.get? p.1 = some p.2 := by
  rw [largest?, if_pos (by rfl)] at hp
  obtain ⟨index, -, hbest⟩ := List.exists_of_findSome?_eq_some hp
  have hmem := ((longest?_spec _).2 p hbest).1
  exact h.index.get?_eq_some_iff.mpr (h.mem_members_iff.mp hmem).1

/-- The page of the hint, if the whole request is free there. -/
def Space.hinted (t : Space) (hint : Option Nat) (size : Nat) : Option (Handle × Nat) :=
  hint.bind fun address =>
    match t.freeFrom (Page.roundDown address) size with
    | .ok (target, _) => some (target, Page.roundDown address)
    | .error _ => none

theorem Space.placement_eq (t : Space) (hint : Option Nat) (size : Nat) :
    t.placement hint size =
      match t.hinted hint size with
      | some placed => .ok placed
      | none => (t.map.search (.ofSize size)).bind fun found => .ok (found.1, found.2.start) :=
  rfl

namespace LinkedSpace

/-- The spaces are of one kind and hold the same extents, and the lists of the second are
what the links of the first trace. -/
structure Mirrors (s : LinkedSpace) (t : Space) : Prop where
  kind_eq : s.kind = t.kind
  map : s.map.Mirrors t.map
  sound : t.map.Sound

variable {s : LinkedSpace} {t : Space}

theorem outcome_onMap {α : Type} (op : LinkedMapOperation α) (s : LinkedSpace) :
    (onMap op).outcome s =
      match op.outcome s.map with
      | (.ok a, map) => (.ok a, { s with map := map })
      | (.error e, map) => (.error (.ofExtentError e), { s with map := map })
      | (.fault x, map) => (.fault x, { s with map := map }) := by
  rw [onMap, Operation.outcome_within, Operation.outcome_mapError]
  rcases op.outcome s.map with ⟨verdict, map⟩
  cases verdict <;> rfl

theorem outcome_onMap_ok {α : Type} {op : LinkedMapOperation α} {a : α}
    (h : op.outcome s.map = (.ok a, s.map)) : (onMap op).outcome s = (.ok a, s) := by
  rw [outcome_onMap, h]

namespace Mirrors

/-- A change of both maps, of which the second stays sound. -/
theorem onMap {α : Type} {op : LinkedMapOperation α} {op' : ExtentOperation α}
    (h : s.Mirrors t) (hop : Agree LinkedMap.Mirrors op op' s.map t.map)
    (hsound : (op'.outcome t.map).2.Sound) :
    Agree Mirrors (LinkedSpace.onMap op) (Space.onMap op') s t := by
  have hboth : Agree (fun x m => LinkedMap.Mirrors x m ∧ m.Sound) op op' s.map t.map :=
    ⟨hop.verdict_eq, hop.related, hsound⟩
  exact (hboth.mapError _).within fun x m hm => ⟨h.kind_eq, hm.1, hm.2⟩

theorem note (h : s.Mirrors t) (level : Level) (text : String) :
    Agree Mirrors (LinkedSpace.note level text : LinkedSpaceOperation Unit)
      (Space.note level text) s t := by
  refine .get_bind ?_
  rw [h.kind_eq]
  exact .note h level _

theorem reclaim (h : s.Mirrors t) (target : Handle) (range : Range) (usage : Usage)
    (expected : Option Usage) :
    Agree Mirrors (LinkedSpace.onMap (LinkedMap.Checked.reclaim target range usage expected))
      (Space.onMap (ExtentMap.reclaim target range usage expected)) s t :=
  h.onMap (LinkedMap.Checked.agree_reclaim h.map h.sound target range usage expected)
    (h.sound.state_reclaim target range usage expected)

theorem reclaimAt (h : s.Mirrors t) (range : Range) (usage : Usage) (expected : Option Usage) :
    Agree Mirrors (LinkedSpace.onMap (LinkedMap.Checked.reclaimAt range usage expected))
      (Space.onMap (ExtentMap.reclaimAt range usage expected)) s t :=
  h.onMap (LinkedMap.Checked.agree_reclaimAt h.map h.sound range usage expected)
    (h.sound.state_reclaimAt range usage expected)

/-! ## Reading -/

theorem extentAt?_eq (h : s.Mirrors t) (address : Nat) :
    s.extentAt? address = t.map.find? address := by
  rw [extentAt?, h.map.find?_eq]
  cases hfind : s.map.find? address with
  | none => rfl
  | some found =>
      have hget := h.map.get?_of_mem (Tree.mem_of_search hfind)
      simp [LinkedMap.extent?, hget]

theorem outcome_query (h : s.Mirrors t) (address : Nat) :
    (query address).outcome s = (.ok (t.query? address), s) := by
  rw [query, Operation.outcome_get_bind, h.extentAt?_eq]
  rfl

theorem outcome_bytesOf (h : s.Mirrors t) (usage : Usage) :
    (bytesOf usage).outcome s = (.ok (t.bytesOf usage), s) :=
  outcome_onMap_ok (LinkedMap.Checked.outcome_bytesOf h.map h.sound usage)

theorem outcome_largestFree (h : s.Mirrors t) :
    largestFree.outcome s = (.ok t.largestFree, s) := by
  rw [largestFree, Operation.outcome_bind_ok
    (outcome_onMap_ok (LinkedMap.Checked.outcome_largest? h.map .free)), Space.largestFree]
  cases hlargest : t.map.largest? .free with
  | none => rfl
  | some p =>
      have hget := h.sound.get?_of_largest? hlargest
      rw [h.map.get?_eq] at hget
      show (Verdict.ok (((s.map.extent? p.1).map Extent.length).getD 0), s) = _
      rw [hget]
      rfl

theorem outcome_search (h : s.Mirrors t) (c : Criteria) :
    (LinkedSpace.onMap (LinkedMap.Checked.search c)).outcome s =
      (Operation.ofExcept ((t.map.search c).mapError RequestError.ofExtentError)).outcome s := by
  rw [outcome_onMap, LinkedMap.Checked.outcome_search h.map]
  cases t.map.search c <;> rfl

theorem freeFrom (h : s.Mirrors t) (start size : Nat) :
    Agree Mirrors (LinkedSpace.freeFrom start size) (Space.refusing (t.freeFrom start size))
      s t :=
  .congr_outcome (h.outcome_search _) (.ofExcept h _)

theorem outcome_hinted (h : s.Mirrors t) (hint : Option Nat) (size : Nat) :
    (hinted hint size).outcome s = (.ok (t.hinted hint size), s) := by
  cases hint with
  | none => rfl
  | some address =>
      rw [hinted, Operation.outcome_bind, Operation.outcome_attempt, LinkedSpace.freeFrom,
        h.outcome_search, Space.hinted, Option.bind_some, Space.freeFrom]
      cases t.map.search { Criteria.containing (Page.roundDown address) with
        size := some size, usage := some .free } <;> rfl

/-- The start of an extent is read again under its handle. -/
theorem outcome_placement (h : s.Mirrors t) (hint : Option Nat) (size : Nat) :
    (placement hint size).outcome s =
      (Operation.ofExcept ((t.placement hint size).mapError RequestError.ofExtentError)).outcome
        s := by
  rw [placement, Operation.outcome_bind_ok (h.outcome_hinted hint size), Space.placement_eq]
  cases t.hinted hint size with
  | some placed => rfl
  | none =>
      simp only
      rw [Operation.outcome_bind, h.outcome_search]
      cases hsearch : t.map.search (.ofSize size) with
      | error e => rfl
      | ok p =>
          have hget := h.sound.get?_of_search hsearch
          rw [h.map.get?_eq] at hget
          show (Verdict.ok (p.1, ((s.map.extent? p.1).map Extent.start).getD 0), s) = _
          rw [hget]
          rfl

/-! ## Allocating and releasing -/

theorem rangeOf (h : s.Mirrors t) (start size : Nat) :
    Agree Mirrors (LinkedSpace.rangeOf start size)
      (Space.refusing (Range.ofLength start size)) s t :=
  .ofExcept h _

theorem allocate (h : s.Mirrors t) (hint : Option Nat) (size : Nat) (usage : Usage) :
    Agree Mirrors (LinkedSpace.allocate hint size usage) (Space.allocate hint size usage) s t := by
  refine (Agree.ofExcept h _).bind fun pages s₁ t₁ _ h₁ => ?_
  refine .get_bind_right (Agree.bind (.congr_outcome (h₁.outcome_placement hint pages)
    (.ofExcept h₁ _)) fun placed _ _ _ h₂ => ?_)
  refine (h₂.rangeOf placed.2 pages).bind fun range _ _ _ h₃ => ?_
  refine (h₃.reclaim placed.1 range usage (some .free)).bind fun _ _ _ _ h₄ => ?_
  exact (h₄.note .debug _).bind fun _ _ _ _ h₅ => .pure h₅ placed.2

theorem reserve (h : s.Mirrors t) (start size : Nat) (usage : Usage) :
    Agree Mirrors (LinkedSpace.reserve start size usage) (Space.reserve start size usage) s t := by
  refine (Agree.ofExcept h _).bind fun last s₁ t₁ hlast h₁ => ?_
  -- the last page ends behind the first one
  have hle : Page.roundDown start ≤ last := by
    cases hstop : Space.pageStop start size with
    | error e =>
        rw [hstop] at hlast
        cases (Prod.mk.inj hlast).1
    | ok stop =>
        rw [hstop] at hlast
        obtain rfl := Verdict.ok.inj (Prod.mk.inj hlast).1
        obtain ⟨hsum, -, -⟩ := Page.roundUp?_spec (Space.pageStop_eq_ok hstop)
        have hdown := Page.roundDown_le start
        omega
  refine .congr_outcome (Operation.outcome_bind_ok (Operation.outcome_difference hle s₁) _) ?_
  refine (Agree.ofExcept h₁ _).bind fun pages s₂ t₂ _ h₂ => ?_
  refine .get_bind_right ((h₂.freeFrom _ pages).bind fun found _ _ _ h₃ => ?_)
  refine (h₃.rangeOf _ pages).bind fun range _ _ _ h₄ => ?_
  refine (h₄.reclaim found.1 range usage (some .free)).bind fun _ _ _ _ h₅ => ?_
  exact h₅.note .debug _

theorem free (h : s.Mirrors t) (address : Nat) (size : Option Nat) :
    Agree Mirrors (LinkedSpace.free address size) (Space.free address size) s t := by
  refine .get_bind ?_
  rw [h.extentAt?_eq]
  cases t.map.find? address with
  | none => exact .refuse h _
  | some found =>
      simp only
      split
      · exact (h.note .warn _).bind fun _ _ _ _ h₁ => .refuse h₁ _
      · refine (Agree.ofExcept h _).bind fun range _ _ _ h₁ => ?_
        refine (h₁.reclaim found.1 range _ _).bind fun _ _ _ _ h₂ => ?_
        refine (h₂.note .debug _).bind fun _ s₃ _ _ h₃ => ?_
        exact .congr_outcome
          (Operation.outcome_difference (Nat.le_of_lt range.start_lt_stop) s₃) (.pure h₃ _)

/-! ## Releasing pieces together -/

theorem outcome_checkPiece (h : s.Mirrors t) (piece : Range) :
    (checkPiece piece).outcome s = (Operation.ofExcept (t.checkPiece piece)).outcome s := by
  rw [checkPiece, Space.checkPiece, Operation.outcome_get_bind, h.extentAt?_eq]
  cases t.map.find? piece.start with
  | none => rfl
  | some found =>
      simp only
      split
      · rfl
      · split <;> rfl

theorem outcome_checkPieces (h : s.Mirrors t) (pieces : List Range) :
    (pieces.forM checkPiece).outcome s =
      (Operation.ofExcept (pieces.forM t.checkPiece)).outcome s := by
  induction pieces with
  | nil => rfl
  | cons piece rest ih =>
      show (checkPiece piece >>= fun _ => rest.forM checkPiece).outcome s =
        (Operation.ofExcept (t.checkPiece piece >>= fun _ => rest.forM t.checkPiece)).outcome s
      rw [Operation.outcome_bind, h.outcome_checkPiece]
      cases t.checkPiece piece with
      | error e => rfl
      | ok u => exact ih

theorem releasePiece (h : s.Mirrors t) (piece : Range) :
    Agree Mirrors (LinkedSpace.releasePiece piece) (Space.releasePiece piece) s t := by
  refine .get_bind ?_
  rw [h.extentAt?_eq]
  cases t.map.find? piece.start with
  | none => exact .refuse h _
  | some found => exact (h.reclaimAt piece _ _).bind fun _ _ _ _ h₁ => .pure h₁ ()

theorem freeGather (h : s.Mirrors t) (pieces : List Range) :
    Agree Mirrors (LinkedSpace.freeGather pieces) (Space.freeGather pieces) s t := by
  rw [LinkedSpace.freeGather, Space.freeGather]
  cases Space.firstOverlap? pieces with
  | some piece => exact .refuse h _
  | none =>
      refine .get_bind_right (Agree.bind (.congr_outcome (h.outcome_checkPieces pieces)
        (.ofExcept h _)) fun _ _ _ _ h₁ => ?_)
      refine (Agree.forM (fun piece _ _ h => h.releasePiece piece) pieces h₁).bind
        fun _ _ _ _ h₂ => ?_
      exact h₂.note .debug _

end Mirrors

/-- A space is created over every arena that is a range. -/
theorem outcome_create {σ : Type} (owner : Nat) {arena : Arena} {region : Range}
    (h : Range.ofLength arena.start arena.size = .ok region) (outer : σ) :
    ∃ s t, (create owner arena).outcome outer = (.ok s, outer) ∧
      (Space.create owner arena).outcome outer = (.ok t, outer) ∧ s.Mirrors t := by
  obtain ⟨x, m, hx, hm, hmirrors, hsound⟩ :=
    LinkedMap.outcome_create owner arena.kind.name region outer
  refine ⟨⟨arena.kind, x⟩, ⟨arena.kind, m⟩, ?_, ?_, rfl, hmirrors, hsound⟩
  · rw [create, h]
    show (Operation.ofExcept (.ok region) >>= _ :
      Operation σ RequestError LinkedSpace).outcome outer = _
    rw [Operation.outcome_bind_ok (Operation.outcome_ofExcept_ok region outer),
      Operation.outcome_bind, Operation.outcome_mapError, hx]
    rfl
  · rw [Space.create, Operation.outcome_bind, Operation.outcome_mapError, ExtentMap.ofArena, h,
      Operation.outcome_bind_ok (Operation.outcome_ofExcept_ok region outer), hm]
    rfl

theorem outcome_create_of_error {σ : Type} (owner : Nat) {arena : Arena} {e : ExtentError}
    (h : Range.ofLength arena.start arena.size = .error e) (outer : σ) :
    (create owner arena).outcome outer = (.error (.invalidConfig arena.kind), outer) := by
  rw [create, h]
  rfl

end LinkedSpace

/-! ## Gathering -/

namespace Gathering

theorem plan_zero (l : List Extent) : plan l 0 = [] := by
  cases l <;> rfl

/-- A plan starts with as much of the first extent as is needed. -/
theorem plan_succ (e : Extent) (l : List Extent) (size : Nat) :
    ∃ piece, Range.ofLength e.start (min (size + 1) e.length) = .ok piece ∧
      plan (e :: l) (size + 1) = piece :: plan l (size + 1 - min (size + 1) e.length) := by
  have hlt := e.range.start_lt_stop
  have hbound := e.range.stop_lt_bound
  have hend : e.start + e.length = e.range.stop := by
    simp only [Extent.start, Extent.length, Range.length]
    omega
  have hpos : 0 < e.length := by
    simp only [Extent.length, Range.length]
    omega
  have hin : min (size + 1) e.length ≤ e.length := Nat.min_le_right _ _
  obtain ⟨piece, hpiece, hstart, hstop⟩ :=
    Range.ofLength_eq_ok (Nat.lt_min.mpr ⟨Nat.succ_pos size, hpos⟩)
      (show e.start + min (size + 1) e.length < Word.bound by omega)
  refine ⟨piece, hpiece, ?_⟩
  rw [plan]
  split
  · next hcut =>
    rw [Nat.min_eq_left (Nat.le_of_lt hcut)] at hstop ⊢
    rw [Nat.sub_self, plan_zero]
    exact congrArg (fun r => [r]) (Range.ext hstart.symm hstop.symm)
  · next hwhole =>
    rw [Nat.min_eq_right (Nat.le_of_not_lt hwhole)] at hstop ⊢
    rw [Range.ext (r := piece) (s := e.range) hstart (hstop.trans hend)]

theorem fill_cons (piece place : Range) (pieces rest : List Range) :
    fill (piece :: pieces) (place :: rest) = piece :: fill pieces rest := rfl

theorem length_candidates_le {m : ExtentMap} (h : m.Sound) :
    (candidates m).length ≤ m.size := by
  rw [(candidates_perm h).length_eq, ← h.length_eq, ← List.length_map Prod.snd]
  exact List.length_filter_le _ _

end Gathering

namespace LinkedGathering

open LinkedMap

/-- The same buffer, and spaces that mirror each other. -/
structure Mirrors (g : LinkedGathering) (g' : Gathering) : Prop where
  space : g.space.Mirrors g'.space
  buffer_eq : g.buffer = g'.buffer

theorem outcome_candidates {g : LinkedGathering} {t : Space} (h : g.space.Mirrors t)
    (indices : List Nat) (hindices : ∀ index ∈ indices, index < SizeClasses.count) :
    (candidates indices).outcome g =
      (.ok ((indices.flatMap t.map.members).map Prod.snd), g) := by
  induction indices with
  | nil => rfl
  | cons index rest ih =>
      obtain ⟨hindex, hrest⟩ := List.forall_mem_cons.mp hindices
      have hmembers := LinkedSpace.outcome_onMap_ok (Checked.outcome_members h.map hindex)
      have hclass : (onSpace (LinkedSpace.onMap (Checked.members index))).outcome g =
          (.ok (t.map.members index), g) := by
        rw [onSpace, Operation.outcome_within, hmembers]
      rw [candidates, Operation.outcome_bind_ok hclass, Operation.outcome_bind_ok (ih hrest),
        Operation.outcome_pure, List.flatMap_cons, List.map_append]

/-- Behind the places that are taken, the buffer is filled with the pieces of a plan. -/
theorem outcome_cover {l : List Extent} (taken places : List Range)
    (hroom : taken.length + l.length < Word.bound) (space : LinkedSpace) (size : Nat) :
    (cover l taken.length size).outcome ⟨space, taken ++ places⟩ =
      (if places.length < (Gathering.plan l size).length then
          .error (.bufferTooSmall (taken ++ places).length)
        else .ok (taken.length + (Gathering.plan l size).length),
        ⟨space, taken ++ Gathering.fill (Gathering.plan l size) places⟩) := by
  induction l generalizing taken places size with
  | nil => simp [cover, Gathering.plan, Gathering.fill]
  | cons e l ih =>
      cases size with
      | zero => simp [cover, Gathering.plan, Gathering.fill]
      | succ size =>
          obtain ⟨piece, hpiece, hplan⟩ := Gathering.plan_succ e l size
          rw [cover, if_neg (Nat.succ_ne_zero size), Operation.outcome_get_bind, hplan]
          cases places with
          | nil => simp [Gathering.fill]
          | cons place places =>
              have hrange : (onSpace (LinkedSpace.rangeOf e.start
                  (min (size + 1) e.length))).outcome ⟨space, taken ++ place :: places⟩ =
                    (.ok piece, ⟨space, taken ++ place :: places⟩) := by
                rw [onSpace, Operation.outcome_within, LinkedSpace.rangeOf, hpiece]
                rfl
              have hset : (taken ++ place :: places).set taken.length piece =
                  (taken ++ [piece]) ++ places := by simp
              have hnext := ih (taken ++ [piece]) places
                (by simp only [List.length_append, List.length_cons, List.length_nil] at hroom ⊢
                    omega)
                (size + 1 - min (size + 1) e.length)
              rw [List.length_append, List.length_singleton] at hnext
              rw [if_pos (by simp), Operation.outcome_bind_ok hrange,
                Operation.outcome_modify_bind]
              simp only [hset]
              rw [Operation.outcome_bind_ok (Operation.outcome_sum (by
                  rw [List.length_cons] at hroom; omega) _),
                Operation.outcome_bind_ok (Operation.outcome_difference (Nat.min_le_left _ _) _),
                hnext]
              simp [Gathering.fill_cons, Nat.add_assoc, Nat.add_comm 1]

theorem outcome_front (g : LinkedGathering) {count : Nat} (h : count ≤ g.buffer.length) :
    (front count).outcome g = (.ok (g.buffer.take count), g) := by
  rw [front, Operation.outcome_get_bind, if_pos h, Operation.outcome_pure]

namespace Mirrors

variable {g : LinkedGathering} {g' : Gathering}

theorem onSpace {α : Type} {op : LinkedSpaceOperation α} {op' : SpaceOperation α}
    (h : g.Mirrors g') (hop : Agree LinkedSpace.Mirrors op op' g.space g'.space) :
    Agree Mirrors (LinkedGathering.onSpace op) (Gathering.onSpace op') g g' :=
  hop.within fun _ _ hspace => ⟨hspace, h.buffer_eq⟩

theorem takePiece (h : g.Mirrors g') (usage : Usage) (piece : Range) :
    Agree Mirrors (LinkedGathering.takePiece usage piece) (Gathering.takePiece usage piece)
      g g' := by
  refine h.onSpace (.get_bind ?_)
  have hreclaim := Checked.agree_reclaimAt h.space.map h.space.sound piece usage (some .free)
  have hboth : Agree (fun x m => LinkedMap.Mirrors x m ∧ m.Sound)
      (Checked.reclaimAt piece usage (some .free)) (ExtentMap.reclaimAt piece usage (some .free))
      g.space.map g'.space.map :=
    ⟨hreclaim.verdict_eq, hreclaim.related, h.space.sound.state_reclaimAt _ _ _⟩
  have htake : Agree LinkedSpace.Mirrors
      ((Checked.reclaimAt piece usage (some .free)).within LinkedSpace.map
        fun s map => { s with map := map })
      ((ExtentMap.reclaimAt piece usage (some .free)).within Space.map
        fun s map => { s with map := map }) g.space g'.space :=
    hboth.within fun _ _ hm => ⟨h.space.kind_eq, hm.1, hm.2⟩
  refine htake.attempt.bind fun taken _ _ _ h₁ => ?_
  cases taken with
  | ok _ => exact .pure h₁ ()
  | error error =>
      rw [h.space.kind_eq]
      exact .crash h₁ _

theorem allocate (h : g.Mirrors g') (size : Nat) (usage : Usage) :
    Agree Mirrors (LinkedGathering.allocate size usage) (Gathering.allocate size usage) g g' := by
  refine (Agree.ofExcept h _).bind fun pages g₁ g₁' _ h₁ => .get_bind_right ?_
  have hbytes : (LinkedGathering.onSpace (LinkedSpace.bytesOf .free)).outcome g₁ =
      (.ok (g₁'.space.bytesOf .free), g₁) := by
    rw [LinkedGathering.onSpace, Operation.outcome_within, h₁.space.outcome_bytesOf]
  refine .congr_outcome (Operation.outcome_bind_ok hbytes _) ?_
  simp only
  split
  · exact (h₁.onSpace (h₁.space.note .debug _)).bind fun _ _ _ _ h₂ => .refuse h₂ _
  · have hcandidates := outcome_candidates (g := g₁) h₁.space
      (List.range SizeClasses.count).reverse
      fun index hindex => List.mem_range.mp (List.mem_reverse.mp hindex)
    rw [← Gathering.candidates] at hcandidates
    have hroom : (Gathering.candidates g₁'.space.map).length < Word.bound :=
      Nat.lt_of_le_of_lt (Nat.le_trans (Gathering.length_candidates_le h₁.space.sound)
        h₁.space.map.size_le) (by decide)
    have hcover := outcome_cover [] g₁.buffer
      (by rwa [List.length_nil, Nat.zero_add]) g₁.space pages
    simp only [List.nil_append, List.length_nil, Nat.zero_add] at hcover
    refine .congr_outcome (Operation.outcome_bind_ok hcandidates _) ?_
    rw [h₁.buffer_eq] at hcover
    generalize Gathering.plan (Gathering.candidates g₁'.space.map) pages = pieces at hcover ⊢
    obtain ⟨space, buffer⟩ := g₁
    obtain rfl : buffer = g₁'.buffer := h₁.buffer_eq
    have h₂ : Mirrors ⟨space, Gathering.fill pieces g₁'.buffer⟩
        { g₁' with buffer := Gathering.fill pieces g₁'.buffer } := ⟨h₁.space, rfl⟩
    by_cases hsmall : g₁'.buffer.length < pieces.length
    · rw [if_pos hsmall] at hcover
      simp only [if_pos hsmall]
      exact .of_outcome (Operation.outcome_bind_error hcover _) rfl h₂
    · rw [if_neg hsmall] at hcover
      simp only [if_neg hsmall]
      have hroom : pieces.length ≤ (Gathering.fill pieces g₁'.buffer).length := by
        simp only [Gathering.fill, List.length_append, List.length_take]
        omega
      have hfront := outcome_front ⟨space, Gathering.fill pieces g₁'.buffer⟩ hroom
      rw [Gathering.take_fill (Nat.le_of_not_lt hsmall)] at hfront
      refine .of_rest ((Operation.outcome_bind_ok hcover _).trans
        (Operation.outcome_bind_ok hfront _)) (Operation.outcome_set_bind _ _ _) ?_
      refine (Agree.forM (fun piece _ _ h => h.takePiece usage piece) pieces h₂).bind
        fun _ _ _ _ h₃ => ?_
      exact (h₃.onSpace (h₃.space.note .debug _)).bind fun _ _ _ _ h₄ => .pure h₄ pieces.length

end Mirrors

end LinkedGathering

end KernelMemory
