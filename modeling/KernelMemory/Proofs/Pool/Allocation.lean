import KernelMemory.Proofs.Pool.Heap
import KernelMemory.Proofs.Word

/-!
# Carving and unlinking

An allocation is a payload that somebody holds, with the request it answers. It determines
the block that is carved for it up to the links. Carving puts that block into the row behind
the donor, and unlinking takes a block out from behind the one before it. The code looks for
survivors on both sides of a block it frees, but all blocks besides the first are live, so
the survivors are always the two neighbours.
-/

namespace KernelMemory

open Chain

/-- A payload that a client holds, and what was asked for. -/
structure Allocation where
  payload : Nat
  size : Nat
  alignment : Nat
  tag : Tag
  deriving DecidableEq

namespace Allocation

def padded (a : Allocation) : Nat :=
  Word.roundDown Header.alignment (a.size + (Header.alignment - 1))

def effective (a : Allocation) : Nat :=
  max a.alignment Header.alignment

/-- The block of the allocation, not yet linked. -/
def block (a : Allocation) : Block where
  address := a.payload - Header.size
  header :=
    { tag := a.tag, checksum := 0, marks := .ofAlignment a.effective, prev := 0, next := 0,
      used := a.size, reserved := a.padded - a.size, unused := 0 }

theorem size_le_padded (a : Allocation) : a.size ≤ a.padded := by
  have := Word.lt_roundDown_add (show 0 < Header.alignment by decide)
    (a.size + (Header.alignment - 1))
  unfold padded
  omega

theorem payload_block {a : Allocation} (h : Header.size ≤ a.payload) :
    a.block.payload = a.payload :=
  Nat.sub_add_cancel h

theorem tail_block {a : Allocation} (h : Header.size ≤ a.payload) :
    a.block.tail = a.payload + a.padded := by
  have hle := a.size_le_padded
  rw [Block.tail, payload_block h]
  simp only [block]
  omega

end Allocation

/-! ## Finding room -/

theorem Block.placement?_spec {b : Block} {padded alignment start : Nat} (hpos : 0 < alignment)
    (h : b.placement? padded alignment = some start) :
    b.tail + Header.size ≤ start ∧ alignment ∣ start ∧ start + padded ≤ b.stop := by
  simp only [placement?, Option.bind_eq_bind, Option.bind_eq_some_iff] at h
  obtain ⟨start', ⟨sum, hsum, hround⟩, stop, hstop, hfits⟩ := h
  split at hfits
  · next hle =>
    obtain rfl := Option.some.inj hfits
    obtain ⟨rfl, -⟩ := Word.add?_eq_some_iff.mp hsum
    obtain ⟨rfl, -⟩ := Word.add?_eq_some_iff.mp hstop
    obtain ⟨hlo, -, hdvd⟩ := Word.roundUp?_spec hpos hround
    exact ⟨hlo, hdvd, hle⟩
  · cases hfits

namespace Pool

variable {ε : Type} {p : Pool} {m : Memory} {bs front back : List Block} {b d : Block}

theorem effectiveAlignment_cases (alignment : Nat) :
    (∃ e, effectiveAlignment alignment = .error e) ∨
      effectiveAlignment alignment = .ok (max alignment Header.alignment) ∧
        Header.alignment ∣ max alignment Header.alignment := by
  unfold effectiveAlignment
  split
  · next h =>
    rw [h, Nat.zero_max]
    exact .inr ⟨rfl, Nat.dvd_refl _⟩
  · split
    · next h => exact .inr ⟨rfl, Word.dvd_max_of_isPowerOfTwo h 4⟩
    · exact .inl ⟨_, rfl⟩

/-! ## Carving -/

/-- The header that is written for an allocation is the one it has in the row. -/
theorem stamped_carved {prev next stop : Nat} {a : Allocation} (hhead : Header.size ≤ a.payload) :
    ({ tag := a.tag, checksum := 0, marks := .ofAlignment a.effective, prev, next,
       used := a.size, reserved := a.padded - a.size,
       unused := stop - (a.payload + a.padded) } : Header).stamped =
      (a.block.linked prev next stop).header := by
  simp only [Block.linked, Allocation.tail_block hhead]
  rfl

theorem outcome_carve {start stop : Nat} {a : Allocation} (hhead : Header.size ≤ a.payload)
    (hrow : Row start stop (front ++ d :: a.block :: back))
    (hcarries : Carries m (thread 0 stop 0 (front ++ d :: back))) :
    (carve (d.linked (last 0 front) (first 0 back) (first stop back)) a.payload a.size a.padded
        a.effective a.tag : Operation Memory ε Unit).outcome m =
      (.ok (), insertBehind stop front d a.block back m) := by
  have hrow' := hrow.sublist (List.sublist_append_right front _)
  have hd := hrow'.tail_le
  have hback := hrow'.tail.tail_le
  have hstop : (d.linked (last 0 front) (first 0 back) (first stop back)).stop = first stop back :=
    Block.stop_linked
      (hrow'.sublist ((List.sublist_cons_self a.block back).cons_cons d)).tail_le_first
  rw [List.forall_mem_cons] at hd
  simp only [thread_append, Carries.append_iff, Carries.thread_cons_iff] at hcarries
  obtain ⟨-, hdonor, hcback⟩ := hcarries
  -- the new header leaves that of the donor as it is
  have hnew : Header.load ((a.block.linked d.address (first 0 back) (first stop back)).put m)
      d.address = (d.linked (last 0 front) (first 0 back) (first stop back)).header := by
    rw [← hdonor]
    refine Block.load_put_of_apart (.inl ?_)
    rw [Block.address_linked]
    exact Nat.le_trans d.address_add_size_le_tail hd.1
  rw [carve, Operation.outcome_modify_bind]
  simp only [Block.next_linked, Block.address_linked, Block.tail_linked, hstop,
    stamped_carved hhead]
  rw [show a.payload - Header.size = a.block.address from rfl, ← Block.put_linked,
    Operation.outcome_bind_ok (Block.outcome_reseal hnew (d.stamped_next _ _ _ _ _)),
    insertBehind]
  cases back with
  | nil => rfl
  | cons c rest =>
      rw [List.forall_mem_cons] at hback hd
      rw [Carries.thread_cons_iff] at hcback
      have hlie := hrow.canLie c (by simp)
      have hbehind := hcback.1
      rw [← Block.load_put_of_apart (b := a.block.linked d.address c.address c.address)
          (.inr ?_),
        ← Block.load_put_of_apart (b := d.linked (last 0 front) a.block.address a.block.address)
          (.inr ?_)] at hbehind
      · rw [first_cons, first_cons, if_pos (ne_zero_of_canLieAt hlie),
          Operation.outcome_bind_ok (outcome_verified_linked hlie hbehind), Block.address_linked]
        exact Block.outcome_reseal hbehind (c.stamped_prev _ _ _ _)
      · rw [Block.address_linked]
        exact Nat.le_trans d.address_add_size_le_tail hd.2.1
      · rw [Block.address_linked]
        exact Nat.le_trans a.block.address_add_size_le_tail hback.1

/-! ## Unlinking -/

theorem outcome_survivorBefore {prev next stop : Nat} (hlie : Block.canLieAt d.address = true)
    (hload : Header.load m d.address = (d.linked prev next stop).header)
    (hkept : (d.header.isHead || !d.header.isFree) = true) (hprev : b.header.prev = d.address) :
    (survivorBefore b : Operation Memory ε Block).outcome m =
      (.ok (d.linked prev next stop), m) := by
  rw [survivorBefore, hprev, find,
    Operation.outcome_bind_ok (outcome_search_of_some hlie hload ?_ (by decide))]
  · rfl
  · rw [Block.isHead_linked, Block.isFree_linked, if_pos hkept]
    rfl

theorem outcome_survivorAfter {prev stop : Nat} (hlie : ∀ c ∈ back, Block.canLieAt c.address = true)
    (hlive : ∀ c ∈ back, c.header.isLive = true)
    (hcarries : Carries m (thread 0 stop prev back)) (hnext : b.header.next = first 0 back) :
    (survivorAfter b : Operation Memory ε (Option Block)).outcome m =
      (.ok (thread 0 stop prev back).head?, m) := by
  rw [survivorAfter, hnext, find]
  cases back with
  | nil =>
      rw [search.eq_def]
      rfl
  | cons c rest =>
      rw [Carries.thread_cons_iff] at hcarries
      refine outcome_search_of_some (hlie c List.mem_cons_self) hcarries.1 ?_ (by decide)
      have hc := (isLive_iff.mp (hlive c List.mem_cons_self)).2
      rw [Block.isFree_linked, if_pos (by simpa [Header.isFree] using hc)]
      rfl

/-- A row that is cut behind its block `d`. -/
theorem cons_append_of_split {left : List Block} (h : b :: left = front ++ [d])
    (back : List Block) : b :: (left ++ back) = front ++ d :: back := by
  rw [← List.cons_append, h, List.append_assoc, List.singleton_append]

theorem last_of_split {left : List Block} (h : b :: left = front ++ [d]) :
    last b.address left = d.address := by
  show last 0 (b :: left) = d.address
  rw [h, last_append, last_cons, last_nil]

/-- Every block of a row survives the release of another one. -/
theorem Holds.survives (hp : p.Holds m bs) (hd : d ∈ p.base :: bs) :
    (d.header.isHead || !d.header.isFree) = true := by
  rcases List.mem_cons.mp hd with rfl | hd
  · rfl
  · have hused := (isLive_iff.mp (hp.live d hd)).2
    simp [Header.isFree, hused]

theorem outcome_unlink {left right : List Block} (hp : p.Holds m (left ++ b :: right)) :
    ∃ front d, p.base :: left = front ++ [d] ∧
      (p.unlink (b.linked (last p.start left) (first 0 right) (first p.stop right)) :
        Operation Memory ε Nat).outcome m =
        (.ok b.header.used, removeBehind p.stop front d right m) := by
  obtain ⟨front, d, hsplit⟩ : ∃ front d, p.base :: left = front ++ [d] :=
    ⟨_, _, (List.dropLast_append_getLast (List.cons_ne_nil p.base left)).symm⟩
  refine ⟨front, d, hsplit, ?_⟩
  have hrow := hp.row
  have hcarries := hp.carries
  rw [cons_append_of_split hsplit] at hrow hcarries
  have hkept := hp.survives (d := d) (by rw [cons_append_of_split hsplit]; simp)
  have hrow' := hrow.sublist (List.sublist_append_right front _)
  have hd := hrow'.tail_le
  have hb := hrow'.tail.tail_le
  have hend := hrow'.tail.tail_le_first
  have hfirst := hrow'.tail.tail.first_le
  have hsize := b.address_add_size_le_tail
  rw [List.forall_mem_cons] at hd
  simp only [thread_append, Carries.append_iff, Carries.thread_cons_iff, first_cons] at hcarries
  obtain ⟨-, hfront, -, hbehind⟩ := hcarries
  have hcleared : Header.load (m.clear d.tail (first p.stop right)) d.address =
      (d.linked (last 0 front) b.address b.address).header := by
    rw [← hfront]
    exact Header.load_clear_of_apart m (.inl d.address_add_size_le_tail)
  have hstop := hp.stop_lt
  rw [unlink, show last p.start left = d.address from last_of_split hsplit,
    Operation.outcome_bind_ok
      (outcome_survivorBefore (hrow'.canLie d (by simp)) hfront hkept Block.prev_linked),
    Operation.outcome_bind_ok
      (outcome_survivorAfter (fun c hc => hrow'.canLie c (by simp [hc]))
        (fun c hc => hp.live c (by simp [hc])) hbehind Block.next_linked),
    Block.tail_linked, Operation.outcome_bind_ok (Operation.outcome_sum (by omega) m)]
  simp only [first_of_head?_thread, Block.address_linked, Block.used_linked]
  rw [Operation.outcome_bind_ok (Operation.outcome_difference (by omega) m),
    Operation.outcome_modify_bind,
    Operation.outcome_bind_ok (Block.outcome_reseal hcleared (d.stamped_next _ _ _ _ _)),
    removeBehind]
  cases right with
  | nil => rfl
  | cons c rest =>
      rw [List.forall_mem_cons] at hd
      rw [Carries.thread_cons_iff] at hbehind
      have hc := hbehind.1
      rw [← Header.load_clear_of_apart m
          (show c.address + Header.size ≤ d.tail ∨ c.address ≤ c.address from .inr (Nat.le_refl _)),
        ← Block.load_put_of_apart (b := d.linked (last 0 front) c.address c.address)
          (.inr ?_)] at hc
      · simp only [thread_cons, List.head?_cons, Block.address_linked, first_cons]
        rw [Operation.outcome_bind_ok (Block.outcome_reseal hc (c.stamped_prev _ _ _ _))]
        rfl
      · rw [Block.address_linked]
        exact Nat.le_trans d.address_add_size_le_tail hd.2.1

end Pool

end KernelMemory
