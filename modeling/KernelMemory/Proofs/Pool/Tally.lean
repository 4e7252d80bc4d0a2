import KernelMemory.Pool.Tally
import KernelMemory.Proofs.Pool.Thread

/-!
# Tallies of a row

A tally is the sum over the blocks of a row. No byte of the arena is in two blocks or in
none, so the total of a tally is the distance from the first block to the end of the row,
and with that none of its sums can leave the 64-bit range on the way.
-/

namespace KernelMemory

/-! ## Adding blocks up -/

namespace Tally

def addAll (t : Tally) (bs : List Block) : Tally :=
  bs.foldl (fun t b => t.add b.header) t

def span (b : Block) : Nat :=
  Header.size + b.header.used + b.header.reserved + b.header.unused

variable {t : Tally} {b : Block} {bs : List Block}

theorem peak_le_total (t : Tally) : t.peak ≤ t.total := by
  unfold peak total
  omega

theorem total_add (t : Tally) (b : Block) : (t.add b.header).total = t.total + span b := by
  simp only [total, add, span]
  omega

theorem total_addAll (t : Tally) (bs : List Block) :
    (t.addAll bs).total = t.total + (bs.map span).sum := by
  induction bs generalizing t with
  | nil => rfl
  | cons b rest ih =>
      show ((t.add b.header).addAll rest).total = _
      rw [ih, total_add, List.map_cons, List.sum_cons, Nat.add_assoc]

theorem used_addAll (t : Tally) (bs : List Block) :
    (t.addAll bs).used = t.used + (bs.map fun b => b.header.used).sum := by
  induction bs generalizing t with
  | nil => rfl
  | cons b rest ih =>
      show ((t.add b.header).addAll rest).used = _
      rw [ih, List.map_cons, List.sum_cons, ← Nat.add_assoc]
      rfl

theorem allocations_addAll (t : Tally) (bs : List Block) :
    (t.addAll bs).allocations = t.allocations + (bs.map fun b => b.header.isHead).count false := by
  induction bs generalizing t with
  | nil => rfl
  | cons b rest ih =>
      show ((t.add b.header).addAll rest).allocations = _
      rw [ih, List.map_cons, List.count_cons]
      simp only [add]
      cases b.header.isHead
      · simp only [Bool.false_eq_true, if_false, beq_self_eq_true, if_true]
        omega
      · simp

end Tally

/-! ## Folding over a threaded row -/

namespace Chain

variable {ε β : Type} {m : Memory} {start stop prev : Nat} {bs : List Block}

theorem sum_span_thread (hrow : Row start stop bs) (next prev : Nat) :
    ((thread next stop prev bs).map Tally.span).sum = stop - first stop bs := by
  induction bs generalizing prev with
  | nil => exact (Nat.sub_self stop).symm
  | cons b rest ih =>
      have htail := hrow.tail_le_first
      have hend := hrow.tail.first_le
      rw [thread_cons, List.map_cons, List.sum_cons, ih hrow.tail, first_cons, Tally.span,
        Block.used_linked, Block.reserved_linked, Block.unused_linked]
      unfold Block.tail Block.payload at htail ⊢
      omega

/-- A fold along a threaded row is a fold over the row and goes on behind it, if some
property of the answer so far and the blocks ahead is kept up on the way. -/
theorem outcome_fold_front {step : β → Block → Operation Memory ε β} {f : β → Block → β}
    {P : β → List Block → Prop} {acc : β} {next steps : Nat}
    (hlie : ∀ b ∈ bs, Block.canLieAt b.address = true)
    (hcarries : Carries m (thread next stop prev bs))
    (hstep : ∀ acc b rest, P acc (b :: rest) →
      (step acc b).outcome m = (.ok (f acc b), m) ∧ P (f acc b) rest)
    (hacc : P acc (thread next stop prev bs)) :
    (fold step (bs.length + steps) (first next bs) acc).outcome m =
      (fold step steps next ((thread next stop prev bs).foldl f acc)).outcome m := by
  induction bs generalizing prev acc with
  | nil =>
      rw [List.length_nil, Nat.zero_add]
      rfl
  | cons b rest ih =>
      rw [Carries.thread_cons_iff] at hcarries
      rw [thread_cons] at hacc
      rw [List.forall_mem_cons] at hlie
      obtain ⟨hout, hacc'⟩ := hstep _ _ _ hacc
      rw [first_cons, List.length_cons, Nat.add_right_comm, fold,
        if_neg (ne_zero_of_canLieAt hlie.1),
        Operation.outcome_bind_ok (outcome_verified_linked hlie.1 hcarries.1),
        Operation.outcome_bind_ok hout, Block.next_linked, thread_cons, List.foldl_cons]
      exact ih hlie.2 hcarries.2 hacc'

end Chain

namespace Pool

variable {ε : Type} {p : Pool} {m : Memory} {bs : List Block} {next stop steps : Nat}

/-- Adds the blocks from an address on to a tally. -/
def tallyFrom (steps a : Nat) (t : Tally) : Operation Memory ε Tally :=
  Chain.fold
    (fun t b => do
      let t := t.add b.header
      let _ ← Operation.sum t.peak
      return t)
    steps a t

/-- Adding up a row inside the address range cannot overflow. -/
theorem outcome_tallyFrom (hrow : Chain.Row p.start stop bs) (hstop : stop < Word.bound)
    (hcarries : Chain.Carries m (Chain.thread next stop 0 bs)) :
    (tallyFrom (bs.length + steps) (Chain.first next bs) .empty :
      Operation Memory ε Tally).outcome m =
      (tallyFrom steps next (Tally.empty.addAll (Chain.thread next stop 0 bs))).outcome m := by
  refine Chain.outcome_fold_front
    (P := fun t bs => t.total + (bs.map Tally.span).sum < Word.bound) hrow.canLie hcarries ?_ ?_
  · intro t b rest ht
    rw [List.map_cons, List.sum_cons, ← Nat.add_assoc, ← Tally.total_add] at ht
    have hpeak := (t.add b.header).peak_le_total
    exact ⟨Operation.outcome_bind_ok (Operation.outcome_sum (by omega) m) _, ht⟩
  · rw [Chain.sum_span_thread hrow]
    have : Tally.empty.total = 0 := rfl
    omega

theorem outcome_tally (hrow : Chain.Row p.start p.stop bs) (hstop : p.stop < Word.bound)
    (hstart : Chain.first 0 bs = p.start)
    (hcarries : Chain.Carries m (Chain.thread 0 p.stop 0 bs)) :
    (p.tally : Operation Memory ε Tally).outcome m =
      (.ok (Tally.empty.addAll (Chain.thread 0 p.stop 0 bs)), m) := by
  obtain ⟨left, hleft⟩ := Nat.exists_eq_add_of_le (hrow.length_le_longest hstop)
  have htally : (p.tally : Operation Memory ε Tally) =
      tallyFrom (bs.length + left) (Chain.first 0 bs) .empty := by
    rw [← hleft, hstart]
    rfl
  rw [htally, outcome_tallyFrom hrow hstop hcarries, tallyFrom, Chain.fold.eq_def]
  rfl

end Pool

end KernelMemory
