import KernelMemory.Proofs.Space.Run

/-!
# Refusals of an address space

A call of an address space that is refused has changed nothing. For most calls this can be
read off their text: a reclaim checks its arguments before its first change, and afterwards
it may break off but not refuse, and the calls check theirs before they ask for a reclaim.

The release of gathered pieces is the exception. It asks for one reclaim after the other, and
each of them could be refused for its own reasons. That none is follows from the checks that
went before, on a managed map.
-/

namespace KernelMemory

namespace ExtentMap

open Operation

/-! ## Reclaims -/

theorem accepts_note (level : Level) (text : String) : (note level text).Accepts :=
  Accepts.get.bind fun _ => .note _ _

theorem accepts_broken {α : Type} (cause : Breakage) :
    (broken cause : ExtentOperation α).Accepts :=
  Accepts.get.bind fun _ => (Accepts.note _ _).bind fun _ => .stop _

theorem accepts_resolve (id : Handle) : (resolve id).Accepts := by
  refine Accepts.get.bind fun m => ?_
  split
  · exact .pure _
  · exact accepts_broken _

theorem accepts_place (e : Extent) (cause : IndexError → Breakage) : (place e cause).Accepts := by
  refine (Accepts.attempt _).bind fun answer => ?_
  cases answer with
  | ok id => exact (Accepts.modify _).bind fun _ => .pure _
  | error error => exact accepts_broken _

theorem accepts_displace (id : Handle) : (displace id).Accepts := by
  refine (Accepts.modify _).bind fun _ => (Accepts.attempt _).bind fun answer => ?_
  cases answer with
  | ok e => exact .pure _
  | error error => exact accepts_broken _

theorem accepts_mergeUpTo (fuel : Nat) (id : Handle) : (mergeUpTo fuel id).Accepts := by
  induction fuel with
  | zero => exact .pure _
  | succ fuel ih =>
      refine (accepts_resolve id).bind fun e => Accepts.get.bind fun m => ?_
      split
      · exact .pure _
      · refine Accepts.bind ?_ fun _ => ih
        exact (accepts_displace _).bind fun _ => (Accepts.modify _).bind fun _ => accepts_note _ _

theorem accepts_carve (target : Handle) (whole : Extent) (range : Range) (usage : Usage)
    (inside : whole.range.encloses range = true) :
    (carve target whole range usage inside).Accepts := by
  have hmerge : ∀ middle text, (do note .debug text; mergeAround middle).Accepts :=
    fun middle text => (accepts_note _ _).bind fun _ => Accepts.get.bind fun m =>
      accepts_mergeUpTo _ _
  refine (Accepts.modify _).bind fun _ => ?_
  dsimp only
  split
  · refine (accepts_place _ _).bind fun middle => ?_
    split
    · exact (accepts_place _ _).bind fun _ => hmerge middle _
    · exact hmerge middle _
  · refine (Accepts.pure _).bind fun middle => ?_
    split
    · exact (accepts_place _ _).bind fun _ => hmerge middle _
    · exact hmerge middle _

theorem atomic_reclaim (target : Handle) (range : Range) (usage : Usage)
    (expected : Option Usage) : (reclaim target range usage expected).Atomic := by
  refine .bind_reads .get fun m => ?_
  split
  · exact (Reads.refuse _).atomic
  · split
    · split
      · exact (Reads.refuse _).atomic
      · split
        · exact (Reads.pure _).atomic
        · exact (accepts_carve _ _ _ _ _).atomic
    · exact ((Reads.get.bind fun _ => .note _ _).bind fun _ => .refuse _).atomic

end ExtentMap

namespace Space

open Operation

/-! ## Single ranges -/

theorem accepts_note {ε : Type} (level : Level) (text : String) :
    (note level text : Operation Space ε Unit).Accepts :=
  Accepts.get.bind fun _ => .note _ _

theorem reads_note {ε : Type} (level : Level) (text : String) :
    (note level text : Operation Space ε Unit).Reads :=
  Reads.get.bind fun _ => .note _ _

theorem atomic_onMap_reclaim (target : Handle) (range : Range) (usage : Usage)
    (expected : Option Usage) :
    (onMap (ExtentMap.reclaim target range usage expected)).Atomic :=
  ((ExtentMap.atomic_reclaim target range usage expected).mapError _).within fun _ => rfl

theorem atomic_allocate (hint : Option Nat) (size : Nat) (usage : Usage) :
    (allocate hint size usage).Atomic := by
  refine .bind_reads (.ofExcept _) fun S => .bind_reads .get fun s => ?_
  refine .bind_reads (.ofExcept _) fun (target, start) => .bind_reads (.ofExcept _) fun range => ?_
  refine (atomic_onMap_reclaim target range usage (some .free)).bind_accepts fun _ => ?_
  exact (accepts_note _ _).bind fun _ => .pure _

theorem atomic_reserve (start size : Nat) (usage : Usage) :
    (reserve start size usage).Atomic := by
  refine .bind_reads (.ofExcept _) fun last => .bind_reads (.ofExcept _) fun S => ?_
  refine .bind_reads .get fun s => .bind_reads (.ofExcept _) fun (target, _) => ?_
  refine .bind_reads (.ofExcept _) fun range => ?_
  exact (atomic_onMap_reclaim target range usage (some .free)).bind_accepts fun _ =>
    accepts_note _ _

theorem atomic_free (address : Nat) (size : Option Nat) : (free address size).Atomic := by
  refine .bind_reads .get fun s => ?_
  split
  · exact (Reads.refuse _).atomic
  · split
    · exact ((reads_note _ _).bind fun _ => .refuse _).atomic
    · refine .bind_reads (.ofExcept _) fun range => ?_
      refine (atomic_onMap_reclaim _ range _ _).bind_accepts fun _ => ?_
      exact (accepts_note _ _).bind fun _ => .pure _

/-! ## Pieces -/

/-- Pieces that have passed the checks can be released. -/
theorem freeGather_refused {s : Space} (hs : s.Managed) {pieces : List Range} {e : RequestError}
    (h : ((freeGather pieces).outcome s).1 = .error e) : ((freeGather pieces).outcome s).2 = s := by
  rcases freeGather_cases pieces hs with ⟨e, hout⟩ | ⟨hapart, hheld⟩
  · rw [hout]
  · rcases outcome_freeGather hs hapart (fun _ _ => ⟨trivial, trivial⟩) hheld with
      ⟨slots, s', hout⟩ | ⟨s', hout, -⟩
    · rw [hout] at h
      exact nomatch h
    · rw [hout] at h
      exact nomatch h

end Space

namespace Gathering

open Operation

theorem accepts_onSpace {α : Type} {op : SpaceOperation α} (h : op.Accepts) :
    (onSpace op).Accepts :=
  h.within

theorem accepts_takePiece (usage : Usage) (piece : Range) : (takePiece usage piece).Accepts := by
  refine accepts_onSpace (Accepts.get.bind fun s => (Accepts.attempt _).bind fun taken => ?_)
  cases taken with
  | ok _ => exact .pure _
  | error error => exact (Accepts.note _ _).bind fun _ => .stop _

/-- What was written to the buffer stays there. -/
theorem allocate_refused {g : Gathering} {size : Nat} {usage : Usage} {e : RequestError}
    (h : ((allocate size usage).outcome g).1 = .error e) :
    ((allocate size usage).outcome g).2.space = g.space := by
  cases hpages : Space.pages size usage with
  | error e =>
      rw [allocate, hpages]
      rfl
  | ok S =>
      rcases Nat.lt_or_ge (g.space.bytesOf .free) S with hscarce | henough
      · rw [outcome_allocate_of_scarce hpages hscarce]
      · rw [allocate, hpages, outcome_bind_ok (outcome_ofExcept_ok S g), outcome_get_bind] at h ⊢
        simp only [if_neg (Nat.not_lt.mpr henough), outcome_set_bind] at h ⊢
        split at h
        · next hsmall =>
          rw [if_pos hsmall]
          rfl
        · refine absurd h (Accepts.bind ?_ (fun _ => ?_) _ e)
          · exact Accepts.forM (accepts_takePiece usage) _
          · exact (accepts_onSpace (Space.accepts_note _ _)).bind fun _ => .pure _

end Gathering

end KernelMemory
