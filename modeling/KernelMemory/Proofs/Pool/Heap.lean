import KernelMemory.Pool.Allocation
import KernelMemory.Proofs.Pool.Audit
import KernelMemory.Proofs.Pool.Splice
import KernelMemory.Proofs.Pool.Tally

/-!
# What a pool holds

The invariant of a pool: its arena carries the permanent first block and behind it a row of
live allocations, threaded from end to end. From the row alone follows what the operations
that only look answer. An audit finds nothing, a tally accounts for the whole arena, and a
payload is found exactly if a block of the row has it. Bytes between the headers play no
part in any of this, whatever they look like.
-/

namespace KernelMemory

namespace Pool

open Chain

variable {ε : Type} {p : Pool} {m : Memory} {bs : List Block} {b : Block}

def base (p : Pool) : Block :=
  ⟨p.start, firstHeader p.arena⟩

@[simp] theorem address_base (p : Pool) : p.base.address = p.start := rfl

@[simp] theorem tail_base (p : Pool) : p.base.tail = p.start + Header.size := rfl

@[simp] theorem isHead_base (p : Pool) : p.base.header.isHead = true := rfl

@[simp] theorem used_base (p : Pool) : p.base.header.used = 0 := rfl

/-- The arena carries the permanent block and behind it these live allocations. -/
structure Holds (p : Pool) (m : Memory) (bs : List Block) : Prop where
  stop_lt : p.stop < Word.bound
  row : Row p.start p.stop (p.base :: bs)
  live : ∀ b ∈ bs, b.header.isLive = true
  carries : Carries m (thread 0 p.stop 0 (p.base :: bs))

theorem isLive_iff {h : Header} : h.isLive = true ↔ h.isHead = false ∧ h.used ≠ 0 := by
  simp [Header.isLive, Header.isFree]

namespace Holds

/-! ## Audit and tally -/

theorem audit_eq (hp : p.Holds m bs) : p.audit m = .ok () :=
  (auditFrom_thread hp.stop_lt hp.row (Nat.le_refl _) hp.carries).trans
    (auditFrom_eq_ok_of_chained hp.stop_lt (.done _))

theorem outcome_selfCheck (hp : p.Holds m bs) :
    (p.selfCheck : Operation Memory ε Unit).outcome m = (.ok (), m) := by
  unfold selfCheck
  split
  · rfl
  · rw [Operation.outcome_get_bind, hp.audit_eq]
    rfl

theorem outcome_tally (hp : p.Holds m bs) :
    ∃ t : Tally, (p.tally : Operation Memory ε Tally).outcome m = (.ok t, m) ∧
      t.total = p.arena.size ∧ t.allocations = bs.length ∧
      t.used = (bs.map fun b => b.header.used).sum := by
  refine ⟨_, Pool.outcome_tally hp.row hp.stop_lt rfl hp.carries, ?_, ?_, ?_⟩
  · rw [Tally.total_addAll, sum_span_thread hp.row, first_cons, address_base, stop, start]
    show 0 + _ = _
    omega
  · rw [Tally.allocations_addAll, map_thread fun b _ _ _ => b.isHead_linked, List.map_cons,
      isHead_base, List.count_cons_of_ne (by decide)]
    have hlive : (bs.map fun b => b.header.isHead) = List.replicate bs.length false :=
      List.eq_replicate_iff.mpr ⟨List.length_map _, fun x hx => by
        obtain ⟨b, hb, rfl⟩ := List.mem_map.mp hx
        exact (isLive_iff.mp (hp.live b hb)).1⟩
    rw [hlive, List.count_replicate_self]
    exact Nat.zero_add _
  · rw [Tally.used_addAll, map_thread fun b _ _ _ => b.used_linked, List.map_cons,
      List.sum_cons, used_base]
    show 0 + _ = _
    omega

/-! ## Looking up an allocation -/

theorem payload_bounds (hp : p.Holds m bs) (hb : b ∈ bs) :
    p.start + Header.size ≤ b.address ∧ b.payload < b.tail ∧ b.tail ≤ p.stop := by
  have hbase := hp.row.tail_le b hb
  have hin := hp.row.inside b (List.mem_cons_of_mem _ hb)
  have hused := (isLive_iff.mp (hp.live b hb)).2
  refine ⟨hbase, ?_, hin.2⟩
  unfold Block.tail
  omega

/-- A look-up goes to the first block at or behind where the header would lie. -/
theorem outcome_find? (hp : p.Holds m bs) {payload : Nat}
    (hlo : p.start + Header.size ≤ payload) (hhi : payload < p.stop) :
    (p.find? payload : Operation Memory ε (Option Block)).outcome m =
      (.ok (((thread 0 p.stop 0 (p.base :: bs)).findSome? fun b =>
          if payload - Header.size ≤ b.address then some b else none).filter fun b =>
        b.address == payload - Header.size && b.header.isLive), m) := by
  rw [find?, if_neg (by omega)]
  refine Operation.outcome_bind_ok (outcome_search hp.row.canLie hp.carries ?_
    (hp.row.length_le_longest hp.stop_lt)) _
  intro b _
  exact Operation.outcome_pure _ m

/-- The live block with a payload is found, with its header as it is in memory. -/
theorem outcome_find?_of_mem {left right : List Block} (hp : p.Holds m (left ++ b :: right)) :
    (p.find? b.payload : Operation Memory ε (Option Block)).outcome m =
      (.ok (some (b.linked (last p.start left) (first 0 right) (first p.stop right))), m) := by
  obtain ⟨hlo, hlt, hhi⟩ := hp.payload_bounds (b := b) (by simp)
  have hwanted : b.payload - Header.size = b.address := Nat.add_sub_cancel _ _
  have hlive := hp.live b (by simp)
  have hfront : ∀ c ∈ p.base :: left, c.tail ≤ b.address := fun c hc =>
    hp.row.tail_le_of_cons_append c hc b List.mem_cons_self
  rw [outcome_find? hp (by unfold Block.payload; omega) (by omega), hwanted,
    ← List.cons_append, thread_append, List.findSome?_append,
    List.findSome?_eq_none_iff.mpr ?_, Option.none_or, thread_cons, List.findSome?_cons]
  · simp [hlive]
  · intro c hc
    obtain ⟨front, d, back, hsplit, rfl⟩ := exists_of_mem_thread hc
    have hle := hfront d (by rw [hsplit]; simp)
    have hsize := d.address_add_size_le_tail
    have hpos : 0 < Header.size := by decide
    rw [Block.address_linked, if_neg (by omega)]

theorem outcome_find?_of_not_mem (hp : p.Holds m bs) {payload : Nat}
    (h : ∀ b ∈ bs, b.payload ≠ payload) :
    (p.find? payload : Operation Memory ε (Option Block)).outcome m = (.ok none, m) := by
  by_cases hin : payload < p.start + Header.size ∨ p.stop ≤ payload
  · rw [find?, if_pos hin]
    rfl
  · rw [outcome_find? hp (by omega) (by omega)]
    congr 2
    refine Option.filter_eq_none_iff.mpr ?_
    intro b' hb'
    obtain ⟨c, hc, hsome⟩ := List.exists_of_findSome?_eq_some hb'
    obtain ⟨front, d, back, hsplit, rfl⟩ := exists_of_mem_thread hc
    split at hsome
    · obtain rfl := Option.some.inj hsome
      rw [Block.address_linked, Block.isLive_linked]
      have hd : d ∈ p.base :: bs := by rw [hsplit]; simp
      rcases List.mem_cons.mp hd with rfl | hd
      · rw [(show p.base.header.isLive = false from rfl)]
        simp
      · have hne := h d hd
        unfold Block.payload at hne
        have : d.address ≠ payload - Header.size := by omega
        simp [this]
    · cases hsome

end Holds

end Pool

end KernelMemory
