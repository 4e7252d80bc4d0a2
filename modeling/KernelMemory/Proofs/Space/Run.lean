import KernelMemory.Proofs.Discipline
import KernelMemory.Proofs.Space.Ledger

/-!
# Runs of an address space

An address space is created over an arena and then used by its calls in any order, with any
arguments: also releases of what was never handed out, of a part of a grant, or of a list of
ranges that nobody gathered. The arena need not consist of whole pages. All that is left to
say of the map is that it is managed: a partition in which what is not free was free before.

That much does not depend on where a call looks for its extent. Every call changes the map
by reclaims alone, and every reclaim gives up a free range for another usage or the other
way round.
-/

namespace KernelMemory

namespace Space

/-- Nothing is asked of where extents begin and end. -/
def Managed (s : Space) : Prop :=
  s.map.Managed fun _ => True

/-! ## One call -/

theorem keeps_onMap {α : Type} {D : Nat → Prop} {op : ExtentOperation α}
    (h : op.Keeps (ExtentMap.Managed D)) : (onMap op).Keeps fun s => s.map.Managed D :=
  (h.mapError _).within (fun _ hs => hs) fun _ _ _ hm => hm

theorem keeps_note {ε : Type} {I : Space → Prop} (level : Level) (text : String) :
    (note level text : Operation Space ε Unit).Keeps I :=
  Operation.Keeps.get.bind fun _ => .note _ _

theorem keeps_take (target : Handle) (range : Range) (usage : Usage) :
    (onMap (ExtentMap.reclaim target range usage (some .free))).Keeps Managed :=
  keeps_onMap fun _ hm hslots => hm.of_reclaim target ⟨trivial, trivial⟩ usage (.inr rfl) hslots

theorem keeps_allocate (hint : Option Nat) (size : Nat) (usage : Usage) :
    (allocate hint size usage).Keeps Managed := by
  refine (Operation.Keeps.ofExcept _).bind fun S => Operation.Keeps.get.bind fun s => ?_
  refine (Operation.Keeps.ofExcept _).bind fun (target, start) => ?_
  refine (Operation.Keeps.ofExcept _).bind fun range => ?_
  exact (keeps_take target range usage).bind fun _ => (keeps_note _ _).bind fun _ => .pure _

theorem keeps_reserve (start size : Nat) (usage : Usage) :
    (reserve start size usage).Keeps Managed := by
  refine (Operation.Keeps.ofExcept _).bind fun last => (Operation.Keeps.ofExcept _).bind fun S => ?_
  refine Operation.Keeps.get.bind fun s => (Operation.Keeps.ofExcept _).bind fun (target, _) => ?_
  refine (Operation.Keeps.ofExcept _).bind fun range => ?_
  exact (keeps_take target range usage).bind fun _ => keeps_note _ _

/-- A release goes to the usage before, which is free. It makes no boundaries but those of
what is released. -/
theorem keeps_free_of_released {D : Nat → Prop} {address : Nat} {size : Option Nat}
    (hD : ∀ e : Extent, D e.start ∧ D e.stop → ∀ range, releasedRange e address size = .ok range →
      D range.start ∧ D range.stop) :
    (free address size).Keeps fun s => s.map.Managed D := by
  refine .get_bind fun s (hs : s.map.Managed D) => ?_
  refine (?_ : Operation.Keeps (fun s : Space => s.map.Managed D) _) s hs
  cases hfind : s.map.find? address with
  | none => exact .refuse _
  | some found =>
      obtain ⟨target, e⟩ := found
      obtain ⟨hmem, -⟩ := ExtentMap.contains_of_find? hfind
      simp only
      split
      · exact (keeps_note _ _).bind fun _ => .refuse _
      · next hallocated =>
        have hused : e.usage ≠ .free := by
          rintro hfree
          exact hallocated (by simp [isUnallocated, hfree, Usage.isFree])
        rw [hs.restores _ hmem hused]
        refine .ofExcept_bind fun range hrange => ?_
        refine (keeps_onMap fun m hm hslots => ?_).bind fun _ =>
          (keeps_note _ _).bind fun _ => .pure _
        exact hm.of_reclaim target (hD e (hs.aligned _ hmem) range hrange) .free (.inl rfl) hslots

theorem keeps_free (address : Nat) (size : Option Nat) : (free address size).Keeps Managed :=
  keeps_free_of_released fun _ _ _ _ => ⟨trivial, trivial⟩

theorem keeps_releasePiece (piece : Range) : (releasePiece piece).Keeps Managed := by
  refine .get_bind fun s hs => ?_
  cases hfind : s.map.find? piece.start with
  | none => exact Operation.Keeps.refuse _ s hs
  | some found =>
      obtain ⟨target, e⟩ := found
      obtain ⟨hmem, -⟩ := ExtentMap.contains_of_find? hfind
      have hfree : e.previous = .free ∨ e.usage = .free := by
        by_cases hused : e.usage = .free
        · exact .inr hused
        · exact .inl (hs.restores _ hmem hused)
      refine (keeps_onMap fun m hm hslots => ?_).bind (fun _ => .pure _) s hs
      exact hm.of_reclaimAt ⟨trivial, trivial⟩ e.previous hfree hslots

theorem keeps_freeGather (pieces : List Range) : (freeGather pieces).Keeps Managed := by
  unfold freeGather
  split
  · exact .refuse _
  · refine Operation.Keeps.get.bind fun s => (Operation.Keeps.ofExcept _).bind fun _ => ?_
    exact (Operation.Keeps.forM keeps_releasePiece pieces).bind fun _ => keeps_note _ _

end Space

namespace Gathering

theorem keeps_onSpace {α : Type} {op : SpaceOperation α} (h : op.Keeps Space.Managed) :
    (onSpace op).Keeps fun g => g.space.Managed :=
  h.within (fun _ hg => hg) fun _ _ _ hs => hs

theorem keeps_takePiece (usage : Usage) (piece : Range) :
    (takePiece usage piece).Keeps fun g => g.space.Managed := by
  refine keeps_onSpace (Operation.Keeps.get.bind fun s => Operation.Keeps.bind ?_ fun taken => ?_)
  · refine (Operation.Keeps.within (J := ExtentMap.Managed fun _ => True) (fun _ hs => hs)
      (fun _ _ _ hm => hm) fun m hm hslots => ?_).attempt
    exact hm.of_reclaimAt ⟨trivial, trivial⟩ usage (.inr rfl) hslots
  · cases taken with
    | ok _ => exact .pure _
    | error _ => exact (Operation.Keeps.note _ _).bind fun _ => .stop _

theorem keeps_allocate (size : Nat) (usage : Usage) :
    (allocate size usage).Keeps fun g => g.space.Managed := by
  refine (Operation.Keeps.ofExcept _).bind fun S => .get_bind fun g hg => ?_
  have hset : ∀ buffer, (Operation.set { g with buffer } :
      Operation Gathering RequestError Unit).Keeps fun g => g.space.Managed :=
    fun _ _ _ _ => hg
  refine (?_ : Operation.Keeps (fun g => g.space.Managed) _) g hg
  dsimp only
  split
  · exact (keeps_onSpace (Space.keeps_note _ _)).bind fun _ => .refuse _
  · refine (hset _).bind fun _ => ?_
    split
    · exact .refuse _
    · refine (Operation.Keeps.forM (keeps_takePiece usage) _).bind fun _ => ?_
      exact (keeps_onSpace (Space.keeps_note _ _)).bind fun _ => .pure _

end Gathering

namespace Space

/-- No call ends the property but a release of pieces. -/
structure Lasting (I : Space → Prop) : Prop where
  allocate : ∀ hint size usage, (Space.allocate hint size usage).Keeps I
  reserve : ∀ start size usage, (Space.reserve start size usage).Keeps I
  free : ∀ address size, (Space.free address size).Keeps I
  gather : ∀ size usage, (Gathering.allocate size usage).Keeps fun g => I g.space

theorem lasting_managed : Lasting Managed :=
  ⟨keeps_allocate, keeps_reserve, keeps_free, Gathering.keeps_allocate⟩

/-! ## Every run -/

inductive Call
  | allocate (hint : Option Nat) (size : Nat) (usage : Usage)
  | reserve (start size : Nat) (usage : Usage)
  | free (address : Nat) (size : Option Nat)
  | gather (size : Nat) (usage : Usage)
  | freeGather (pieces : List Range)
  deriving DecidableEq

/-- Carries out a call for a client with a buffer. What it answers does not matter to a
run. -/
def Call.perform : Call → Operation Gathering RequestError Unit
  | allocate hint size usage => Gathering.onSpace do let _ ← Space.allocate hint size usage
  | reserve start size usage => Gathering.onSpace (Space.reserve start size usage)
  | free address size => Gathering.onSpace do let _ ← Space.free address size
  | gather size usage => do let _ ← Gathering.allocate size usage
  | freeGather pieces => Gathering.onSpace (Space.freeGather pieces)

/-- The spaces over an arena that a run of any calls reaches without running out of slots.
A refused call is a step of a run like any other. -/
inductive Reached (arena : Arena) : Space → Prop
  | create (owner : Nat) {s : Space}
      (h : ((Space.create owner arena : Operation Unit RequestError Space).run ()).verdict =
        .ok s) : Reached arena s
  | step {s : Space} (hs : Reached arena s) (c : Call) (buffer : List Range)
      (hslots : ¬ (c.perform.run ⟨s, buffer⟩).verdict.IsExhaustion) :
      Reached arena (c.perform.run ⟨s, buffer⟩).state.space

theorem Call.keeps_perform (c : Call) : c.perform.Keeps fun g => g.space.Managed := by
  cases c with
  | allocate hint size usage =>
      exact Gathering.keeps_onSpace ((keeps_allocate hint size usage).bind fun _ => .pure _)
  | reserve start size usage => exact Gathering.keeps_onSpace (keeps_reserve start size usage)
  | free address size =>
      exact Gathering.keeps_onSpace ((keeps_free address size).bind fun _ => .pure _)
  | gather size usage => exact (Gathering.keeps_allocate size usage).bind fun _ => .pure _
  | freeGather pieces => exact Gathering.keeps_onSpace (keeps_freeGather pieces)

theorem yields_create {σ : Type} (owner : Nat) (arena : Arena) :
    (Space.create owner arena : Operation σ RequestError Space).Yields Managed := by
  intro outer s hs
  obtain ⟨region, id, hsound, -, -, hl⟩ := create_eq_ok hs
  exact ExtentMap.managed_seed hsound ⟨trivial, trivial⟩ hl

theorem Reached.managed {arena : Arena} {s : Space} (hs : Reached arena s) : s.Managed := by
  induction hs with
  | create owner h => exact yields_create owner arena () _ h
  | step _ c buffer hslots ih => exact c.keeps_perform _ ih hslots

theorem reached_created {arena : Arena} (hsize : 0 < arena.size)
    (hbound : arena.start + arena.size < Word.bound) : Reached arena (created arena) := by
  obtain ⟨_, hregion, -⟩ := Range.ofLength_eq_ok hsize hbound
  exact .create 0 (verdict_create hregion)

end Space

end KernelMemory
