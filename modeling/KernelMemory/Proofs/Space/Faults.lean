import KernelMemory.Proofs.Space.Lockstep

/-!
# Where calls can stop

Of the lines that a call on a space is made of, only those that give a range a new usage can
stop, for they may need a slot for another extent. The map that such a line leaves when it
stops has as many extents as there are slot numbers. A gather allocation has one line more
that can stop, where a piece of the plan is found to have vanished; that it is not reached is
what the cases of a gather allocation say.
-/

namespace KernelMemory

open Operation (Agree)

namespace ExtentMap

theorem stops_reclaim (target : Handle) (range : Range) (usage : Usage)
    (expected : Option Usage) :
    (reclaim target range usage expected).Stops Sound fun _ m => Slots.capacity ≤ m.size := by
  intro m hm f hf
  rcases hm.reclaim_cases target range usage expected with
    ⟨error, hout⟩ | ⟨slots, m', hout, -, hfull⟩ | ⟨id, m', hout, -⟩
  · rw [hout] at hf
    cases hf
  · rw [hout]
    exact hfull
  · rw [hout] at hf
    cases hf

theorem stops_reclaimAt (range : Range) (usage : Usage) (expected : Option Usage) :
    (reclaimAt range usage expected).Stops Sound fun _ m => Slots.capacity ≤ m.size := by
  intro m hm f hf
  rw [reclaimAt, Operation.outcome_get_bind] at hf ⊢
  cases hfind : m.find? range.start with
  | none =>
      rw [hfind] at hf
      cases hf
  | some found =>
      rw [hfind] at hf
      exact stops_reclaim found.1 range usage expected m hm f hf

end ExtentMap

namespace Space

open Operation (Stops Keeps)

theorem stops_note {ε : Type} {I : Space → Prop} {Q : Fault → Space → Prop} (level : Level)
    (text : String) : (note level text : Operation Space ε Unit).Stops I Q :=
  .bind .get .get fun _ => .note _ _

theorem stops_onMap {α : Type} {op : ExtentOperation α}
    (h : op.Stops ExtentMap.Sound fun _ m => Slots.capacity ≤ m.size) :
    (onMap op).Stops Managed fun _ s => Slots.capacity ≤ s.map.size :=
  (h.mapError _).within (fun _ hs => hs.sound) fun _ _ _ hm => hm

theorem stops_allocate (hint : Option Nat) (size : Nat) (usage : Usage) :
    (allocate hint size usage).Stops Managed fun _ s => Slots.capacity ≤ s.map.size := by
  refine .bind (.ofExcept _) (.ofExcept _) fun S => .bind .get .get fun s => ?_
  refine .bind (.ofExcept _) (.ofExcept _) fun (target, start) => ?_
  refine .bind (.ofExcept _) (.ofExcept _) fun range => ?_
  refine (stops_onMap (ExtentMap.stops_reclaim target range usage (some .free))).bind_last
    fun _ => (stops_note _ _).bind_last fun _ => .pure _

theorem stops_reserve (start size : Nat) (usage : Usage) :
    (reserve start size usage).Stops Managed fun _ s => Slots.capacity ≤ s.map.size := by
  refine .bind (.ofExcept _) (.ofExcept _) fun last => ?_
  refine .bind (.ofExcept _) (.ofExcept _) fun S => .bind .get .get fun s => ?_
  refine .bind (.ofExcept _) (.ofExcept _) fun (target, _) => ?_
  refine .bind (.ofExcept _) (.ofExcept _) fun range => ?_
  exact (stops_onMap (ExtentMap.stops_reclaim target range usage (some .free))).bind_last
    fun _ => stops_note _ _

theorem stops_free (address : Nat) (size : Option Nat) :
    (free address size).Stops Managed fun _ s => Slots.capacity ≤ s.map.size := by
  refine .bind .get .get fun s => ?_
  cases s.map.find? address with
  | none => exact .refuse _
  | some found =>
      simp only
      split
      · exact (stops_note _ _).bind_last fun _ => .refuse _
      · refine .bind (.ofExcept _) (.ofExcept _) fun range => ?_
        exact (stops_onMap (ExtentMap.stops_reclaim found.1 range _ _)).bind_last
          fun _ => (stops_note _ _).bind_last fun _ => .pure _

theorem stops_releasePiece (piece : Range) :
    (releasePiece piece).Stops Managed fun _ s => Slots.capacity ≤ s.map.size := by
  refine .bind .get .get fun s => ?_
  cases s.map.find? piece.start with
  | none => exact .refuse _
  | some found =>
      exact (stops_onMap (ExtentMap.stops_reclaimAt piece _ _)).bind_last fun _ => .pure _

theorem stops_freeGather (pieces : List Range) :
    (freeGather pieces).Stops Managed fun _ s => Slots.capacity ≤ s.map.size := by
  rw [freeGather]
  cases firstOverlap? pieces with
  | some piece => exact .refuse _
  | none =>
      refine .bind .get .get fun s => .bind (.ofExcept _) (.ofExcept _) fun _ => ?_
      exact (Stops.forM keeps_releasePiece stops_releasePiece pieces).bind_last
        fun _ => stops_note _ _

end Space

namespace Gathering

open Operation (Stops Keeps)

/-- If slots have run out, it is because all of them are taken. -/
def Exhausted (f : Fault) (g : Gathering) : Prop :=
  (∃ slots, f = .slotsExhausted slots) → Slots.capacity ≤ g.space.map.size

theorem stops_takePiece (usage : Usage) (piece : Range) :
    (takePiece usage piece).Stops (fun g => g.space.Managed) Exhausted := by
  refine Stops.within (J := Space.Managed)
    (P := fun f s => (∃ slots, f = .slotsExhausted slots) → Slots.capacity ≤ s.map.size)
    (fun _ hg => hg) (fun _ _ _ hs => hs) (.bind .get .get fun s => ?_)
  refine Stops.bind_last (.attempt (.within (J := ExtentMap.Sound)
    (P := fun _ m => Slots.capacity ≤ m.size) (fun _ hs => hs.sound) (fun _ _ _ hm _ => hm)
    (ExtentMap.stops_reclaimAt piece usage (some .free)))) fun taken => ?_
  cases taken with
  | ok _ => exact .pure ()
  | error error =>
      rintro s - f ⟨⟩ ⟨slots, hslots⟩
      cases hslots

theorem stops_takePieces (usage : Usage) (size : Nat) (pieces : List Range) :
    (do
      pieces.forM (takePiece usage)
      onSpace (Space.note .debug ("gathered " ++ Text.hex size ++ " bytes in "
        ++ toString pieces.length ++ " piece(s) as " ++ usage.text))
      return pieces.length : Operation Gathering RequestError Nat).Stops
        (fun g => g.space.Managed) Exhausted := by
  have hnote : ∀ text, (onSpace (Space.note .debug text)).Stops (fun _ => True) Exhausted :=
    fun _ => .within (P := fun _ _ => False) (fun _ _ => trivial) (fun _ _ _ h => h.elim)
      (Space.stops_note (I := fun _ => True) _ _)
  exact (Stops.forM (keeps_takePiece usage) (stops_takePiece usage) pieces).bind_last
    fun _ => (hnote _).bind_last fun _ => .pure _

/-- A gather allocation that runs out of slots has left a map without any. -/
theorem stops_allocate (size : Nat) (usage : Usage) :
    (allocate size usage).Stops (fun g => g.space.Managed) Exhausted := by
  refine .bind (.ofExcept _) (.ofExcept _) fun S => ?_
  intro g hg f hf
  rw [Operation.outcome_get_bind] at hf ⊢
  revert hf
  dsimp only
  split
  · exact fun hf => nomatch hf
  · rw [Operation.outcome_set_bind]
    split
    · exact fun hf => nomatch hf
    · have hrest := stops_takePieces usage S (plan (candidates g.space.map) S)
      exact hrest { g with buffer := fill (plan (candidates g.space.map) S) g.buffer } hg f

/-- A gather allocation ends with no other fault than that slots have run out: no piece
vanishes. -/
theorem isExhaustion_of_fault {g : Gathering} (hg : g.space.Managed) {size : Nat}
    {usage : Usage} {f : Fault} (hf : ((allocate size usage).outcome g).1 = .fault f) :
    ∃ slots, f = .slotsExhausted slots := by
  cases hpages : Space.pages size usage with
  | error e =>
      rw [allocate, hpages] at hf
      cases hf
  | ok S =>
      rcases Nat.lt_or_ge (g.space.bytesOf .free) S with hscarce | henough
      · rw [outcome_allocate_of_scarce hpages hscarce] at hf
        cases hf
      · rcases allocate_cases_of_enough hg hpages henough (fun _ _ => ⟨trivial, trivial⟩) with
          ⟨g', hout, -⟩ | ⟨slots, g', hout⟩ | ⟨g', hout, -⟩
        · rw [hout] at hf
          cases hf
        · rw [hout] at hf
          exact ⟨slots, (Verdict.fault.inj hf).symm⟩
        · rw [hout] at hf
          cases hf

end Gathering

namespace Space

open Operation (Stops)

theorem stops_onSpace {op : SpaceOperation Unit}
    (h : op.Stops Managed fun _ s => Slots.capacity ≤ s.map.size) :
    (Gathering.onSpace op).Stops (fun g => g.space.Managed)
      fun _ g => Slots.capacity ≤ g.space.map.size :=
  .within (fun _ hg => hg) (fun _ _ _ hs => hs) h

/-- A call on a space that a run has reached ends with a fault only if all slots are taken. -/
theorem Reached.full_of_fault {arena : Arena} {s : Space} (hs : Reached arena s) (c : Call)
    (buffer : List Range) {f : Fault} (hf : (c.perform.outcome ⟨s, buffer⟩).1 = .fault f) :
    Slots.capacity ≤ (c.perform.outcome ⟨s, buffer⟩).2.space.map.size := by
  have hm := hs.managed
  cases c with
  | allocate hint size usage =>
      exact stops_onSpace ((stops_allocate hint size usage).bind_last fun _ => .pure _) _ hm f hf
  | reserve start size usage => exact stops_onSpace (stops_reserve start size usage) _ hm f hf
  | free address size =>
      exact stops_onSpace ((stops_free address size).bind_last fun _ => .pure _) _ hm f hf
  | gather size usage =>
      have hstops : (Call.gather size usage).perform.Stops (fun g => g.space.Managed)
          Gathering.Exhausted :=
        (Gathering.stops_allocate size usage).bind_last fun _ => .pure _
      refine hstops _ hm f hf ?_
      rw [Call.perform, Operation.outcome_bind] at hf
      rcases hout : (Gathering.allocate size usage).outcome ⟨s, buffer⟩ with ⟨verdict, g⟩
      rw [hout] at hf
      cases verdict with
      | ok count => exact nomatch hf
      | error e => exact nomatch hf
      | fault f' =>
          obtain rfl := Verdict.fault.inj hf
          exact Gathering.isExhaustion_of_fault (g := ⟨s, buffer⟩) hm (by rw [hout])
  | freeGather pieces => exact stops_onSpace (stops_freeGather pieces) _ hm f hf

end Space

end KernelMemory
