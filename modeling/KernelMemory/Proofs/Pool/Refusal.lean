import KernelMemory.Pool.Allocation
import KernelMemory.Proofs.Discipline

/-!
# Refusals of a pool

A pool refuses before its first write. The walk along the chain only reads, whatever the
memory holds, and once there is a place for an allocation or a block to release, nothing but
a fault can end the call early. So this does not depend on the state of the heap.
-/

namespace KernelMemory

open Operation

namespace Block

theorem inspects_verified {ε : Type} (a : Nat) :
    (verified a : Operation Memory ε Block).Inspects := by
  unfold verified
  split
  · refine Inspects.get.bind fun m => ?_
    dsimp only
    split
    · exact .pure _
    · exact (Inspects.note _ _).bind fun _ => .stop _
  · exact .stop _

end Block

namespace Chain

variable {ε α : Type} {link : Header → Nat} {answer : Block → Operation Memory ε (Option α)}

theorem inspects_search (h : ∀ b, (answer b).Inspects) (steps a : Nat) :
    (search link answer steps a).Inspects := by
  induction steps generalizing a with
  | zero =>
      unfold search
      split
      · exact .pure _
      · exact .stop _
  | succ steps ih =>
      unfold search
      split
      · exact .pure _
      · refine (Block.inspects_verified a).bind fun b => (h b).bind fun found => ?_
        cases found with
        | some found => exact .pure _
        | none => exact ih _

theorem inspects_find (p : Header → Bool) (a : Nat) :
    (find link p a : Operation Memory ε (Option Block)).Inspects :=
  inspects_search (fun _ => .pure _) _ _

end Chain

namespace Pool

variable {ε : Type} (p : Pool)

theorem inspects_selfCheck : (p.selfCheck : Operation Memory ε Unit).Inspects := by
  unfold selfCheck
  split
  · exact .pure _
  · refine Inspects.get.bind fun m => (Inspects.attempt (.ofVerdict _)).bind fun answer => ?_
    cases answer with
    | ok _ => exact .pure _
    | error violation => exact (Inspects.note _ _).bind fun _ => .stop _

/-- A call that changes memory or finds nothing to do, checks the pool, and refuses only if
it found nothing to do. -/
theorem atomic_settle {op : PoolOperation (Option Nat)} (haccepts : op.Accepts)
    (hnone : op.IdleOnNone) {last : Option Nat → PoolOperation Nat}
    (hlast : (last none).Reads) (hanswer : ∀ a, (last (some a)).Accepts) :
    (do let answer ← op; p.selfCheck; last answer).Atomic := by
  refine haccepts.atomic.bind fun m answer m' hout => ?_
  cases answer with
  | some a => exact .inr (p.inspects_selfCheck.accepts.bind fun _ => hanswer a)
  | none => exact .inl ⟨hnone m m' hout, (p.inspects_selfCheck.reads.bind fun _ => hlast).atomic⟩

/-! ## Allocating -/

theorem accepts_carve (donor : Block) (start size padded alignment : Nat) (tag : Tag) :
    (carve donor start size padded alignment tag : Operation Memory ε Unit).Accepts := by
  unfold carve
  refine (Accepts.modify _).bind fun _ => (Accepts.modify _).bind fun _ => ?_
  split
  · exact (Block.inspects_verified _).accepts.bind fun _ => .modify _
  · exact .pure _

theorem inspects_searchRoom (padded alignment : Nat) :
    (Chain.search (ε := ε) Header.next (fun b => do
      let _ ← Operation.sum b.stop
      return (b.placement? padded alignment).map fun start => (b, start))
      Chain.longest p.start).Inspects :=
  Chain.inspects_search (fun _ => (Inspects.sum _).bind fun _ => .pure _) _ _

theorem accepts_place (size alignment : Nat) (tag : Tag) :
    (p.place size alignment tag : Operation Memory ε (Option Nat)).Accepts := by
  unfold place
  split
  · exact .pure _
  · refine (p.inspects_searchRoom _ _).accepts.bind fun found => ?_
    split
    · exact .pure _
    · exact (accepts_carve _ _ _ _ _ _).bind fun _ => (Accepts.note _ _).bind fun _ => .pure _

/-- Where there is no place for a payload, nothing has changed. -/
theorem idleOnNone_place (size alignment : Nat) (tag : Tag) :
    (p.place size alignment tag : Operation Memory ε (Option Nat)).IdleOnNone := by
  unfold place
  split
  · exact .of_reads (.pure _)
  · refine .bind (p.inspects_searchRoom _ _).reads fun found => ?_
    split
    · exact .of_reads (.pure _)
    · exact .of_yields (.bind_last _ fun _ => .bind_last _ fun _ => .pure (by simp))

theorem atomic_allocate (size alignment : Nat) (tag : Tag) :
    (p.allocate size alignment tag).Atomic := by
  unfold allocate
  split
  · exact (Reads.refuse _).atomic
  · refine .bind_reads (.ofExcept _) fun alignment => ?_
    refine p.atomic_settle (p.accepts_place _ _ _) (p.idleOnNone_place _ _ _) ?_ fun _ => .pure _
    exact (Reads.note _ _).bind fun _ => .refuse _

/-! ## Releasing -/

theorem accepts_unlink (b : Block) : (p.unlink b : Operation Memory ε Nat).Accepts := by
  have hbefore : (survivorBefore b : Operation Memory ε Block).Accepts := by
    refine (Chain.inspects_find _ _).accepts.bind fun found => ?_
    split
    · exact .pure _
    · exact .stop _
  refine hbefore.bind fun first => (Chain.inspects_find _ _).accepts.bind fun after => ?_
  refine (Inspects.sum _).accepts.bind fun tail => (Accepts.difference _ _).bind fun unused => ?_
  refine (Accepts.modify _).bind fun _ => (Accepts.modify _).bind fun _ => ?_
  dsimp only
  split
  · exact (Accepts.modify _).bind fun _ => (Accepts.note _ _).bind fun _ => .pure _
  · exact (Accepts.note _ _).bind fun _ => .pure _

theorem inspects_find? (payload : Nat) :
    (p.find? payload : Operation Memory ε (Option Block)).Inspects := by
  unfold find?
  split
  · exact .pure _
  · exact (Chain.inspects_search (fun _ => .pure _) _ _).bind fun _ => .pure _

theorem atomic_free (payload : Nat) : (p.free payload).Atomic := by
  unfold free
  refine .bind_reads (p.inspects_find? payload).reads fun found => ?_
  dsimp only
  split
  · next b =>
    have haccepts : (some <$> p.unlink b : PoolOperation (Option Nat)).Accepts :=
      (p.accepts_unlink b).bind fun _ => .pure _
    have hsome : (some <$> p.unlink b : PoolOperation (Option Nat)).IdleOnNone :=
      .of_yields (.bind_last _ fun _ => .pure (by simp))
    refine p.atomic_settle haccepts hsome ?_ fun _ => .pure _
    exact (Reads.note _ _).bind fun _ => .refuse _
  · refine p.atomic_settle (.pure none) (.of_reads (.pure none)) ?_ fun _ => .pure _
    exact (Reads.note _ _).bind fun _ => .refuse _

end Pool

end KernelMemory
