import KernelMemory.Pool.Chain
import KernelMemory.Proofs.Outcome
import KernelMemory.Proofs.Pool.Header
import Mathlib.Data.List.Sort

/-!
# Threading blocks

What a pool holds is a row of blocks: where each lies, what it is for and how much of it is
taken. Everything else in the headers follows from the row. A block is linked to the one
before it and the one behind it, its tail reaches up to the next block or the end of the
arena, and its checksum belongs to the rest. So the headers in memory are a function of the
row, the threaded row, and to know what an operation has done it is enough to know what it
has done to the row.

Threading takes the address of the block in front of the row, the link that the last block
gets and the address at which its tail ends. A row that is cut in two is threaded as two
rows, and the seam is in these three numbers.
-/

namespace KernelMemory

namespace Block

/-- The block as its header is written between the block at `prev` and the one at `next`,
with a tail up to `stop`. -/
@[irreducible] def linked (b : Block) (prev next stop : Nat) : Block :=
  ⟨b.address, ({ b.header with prev, next, unused := stop - b.tail } : Header).stamped⟩

variable {b : Block} {prev next stop : Nat}

-- the checksum would be computed on the way if these were left to `rfl`

@[simp] theorem address_linked : (b.linked prev next stop).address = b.address := by
  simp only [linked]

@[simp] theorem prev_linked : (b.linked prev next stop).header.prev = prev := by
  simp only [linked, Header.stamped]

@[simp] theorem next_linked : (b.linked prev next stop).header.next = next := by
  simp only [linked, Header.stamped]

@[simp] theorem used_linked : (b.linked prev next stop).header.used = b.header.used := by
  simp only [linked, Header.stamped]

@[simp] theorem reserved_linked :
    (b.linked prev next stop).header.reserved = b.header.reserved := by
  simp only [linked, Header.stamped]

@[simp] theorem unused_linked : (b.linked prev next stop).header.unused = stop - b.tail := by
  simp only [linked, Header.stamped]

@[simp] theorem marks_linked : (b.linked prev next stop).header.marks = b.header.marks := by
  simp only [linked, Header.stamped]

@[simp] theorem payload_linked : (b.linked prev next stop).payload = b.payload := by
  rw [payload, address_linked, payload]

@[simp] theorem tail_linked : (b.linked prev next stop).tail = b.tail := by
  rw [tail, payload_linked, used_linked, reserved_linked, tail]

@[simp] theorem isHead_linked : (b.linked prev next stop).header.isHead = b.header.isHead := by
  rw [Header.isHead, marks_linked, Header.isHead]

@[simp] theorem isFree_linked : (b.linked prev next stop).header.isFree = b.header.isFree := by
  rw [Header.isFree, used_linked, Header.isFree]

@[simp] theorem isLive_linked : (b.linked prev next stop).header.isLive = b.header.isLive := by
  rw [Header.isLive, isHead_linked, isFree_linked, Header.isLive]

@[simp] theorem isIntact_linked : (b.linked prev next stop).header.isIntact = true := by
  unfold linked
  exact Header.isIntact_stamped _

theorem stop_linked (h : b.tail ≤ stop) : (b.linked prev next stop).stop = stop := by
  rw [Block.stop, tail_linked, unused_linked, Nat.add_sub_cancel' h]

theorem address_add_size_le_tail (b : Block) : b.address + Header.size ≤ b.tail := by
  unfold tail payload
  omega

theorem inRange_linked (hprev : prev < Word.bound) (hnext : next < Word.bound)
    (hstop : stop < Word.bound) (htail : b.tail ≤ stop) :
    (b.linked prev next stop).header.InRange := by
  have hused : b.header.used + b.header.reserved ≤ b.tail := by
    unfold tail
    omega
  refine ⟨?_, ?_, ?_, ?_, ?_, ?_⟩
  · simp only [linked, Header.stamped]
    exact Header.computed_lt _
  · rwa [prev_linked]
  · rwa [next_linked]
  · rw [used_linked]
    omega
  · rw [reserved_linked]
    omega
  · rw [unused_linked]
    omega

end Block

namespace Chain

/-! ## Rows -/

def first (d : Nat) : List Block → Nat
  | [] => d
  | b :: _ => b.address

def last (d : Nat) : List Block → Nat
  | [] => d
  | b :: rest => last b.address rest

@[simp] theorem first_nil (d : Nat) : first d [] = d := rfl

@[simp] theorem first_cons (d : Nat) (b : Block) (rest : List Block) :
    first d (b :: rest) = b.address := rfl

@[simp] theorem last_nil (d : Nat) : last d [] = d := rfl

@[simp] theorem last_cons (d : Nat) (b : Block) (rest : List Block) :
    last d (b :: rest) = last b.address rest := rfl

theorem first_append (d : Nat) (bs cs : List Block) :
    first d (bs ++ cs) = first (first d cs) bs := by
  cases bs <;> rfl

theorem last_append (d : Nat) (bs cs : List Block) :
    last d (bs ++ cs) = last (last d bs) cs := by
  induction bs generalizing d with
  | nil => rfl
  | cons b rest ih => exact ih b.address

theorem last_mem (d : Nat) (bs : List Block) :
    last d bs = d ∨ ∃ b ∈ bs, last d bs = b.address := by
  induction bs generalizing d with
  | nil => exact .inl rfl
  | cons b rest ih =>
      refine .inr ?_
      rcases ih b.address with h | ⟨c, hc, h⟩
      · exact ⟨b, List.mem_cons_self, h⟩
      · exact ⟨c, List.mem_cons_of_mem b hc, h⟩

/-- The blocks lie between two addresses at places for a header, and each ends, but for its
tail, where or before the next begins. -/
structure Row (start stop : Nat) (bs : List Block) : Prop where
  ordered : bs.Pairwise fun b c => b.tail ≤ c.address
  inside : ∀ b ∈ bs, start ≤ b.address ∧ b.tail ≤ stop
  canLie : ∀ b ∈ bs, Block.canLieAt b.address = true

namespace Row

variable {start stop : Nat} {b : Block} {bs cs rest : List Block}

theorem sublist (h : Row start stop bs) (hsub : cs.Sublist bs) : Row start stop cs :=
  ⟨h.ordered.sublist hsub, fun b hb => h.inside b (hsub.subset hb),
    fun b hb => h.canLie b (hsub.subset hb)⟩

theorem tail (h : Row start stop (b :: rest)) : Row start stop rest :=
  h.sublist (List.sublist_cons_self b rest)

theorem tail_le (h : Row start stop (b :: rest)) : ∀ c ∈ rest, b.tail ≤ c.address :=
  (List.pairwise_cons.mp h.ordered).1

/-- The first block leaves room for the second, and the last one keeps to the end. -/
theorem tail_le_first (h : Row start stop (b :: rest)) : b.tail ≤ first stop rest := by
  cases rest with
  | nil => exact (h.inside b List.mem_cons_self).2
  | cons c rest => exact h.tail_le c List.mem_cons_self

theorem first_le (h : Row start stop bs) : first stop bs ≤ stop := by
  cases bs with
  | nil => exact Nat.le_refl stop
  | cons b rest =>
      have hin := h.inside b List.mem_cons_self
      have hlt := b.address_add_size_le_tail
      rw [first_cons]
      omega

theorem first_le_address (h : Row start stop bs) (hb : b ∈ bs) (d : Nat) :
    first d bs ≤ b.address := by
  cases bs with
  | nil => simp at hb
  | cons c rest =>
      rcases List.mem_cons.mp hb with rfl | hb
      · exact Nat.le_refl _
      · have hle := h.tail_le b hb
        have hlt := c.address_add_size_le_tail
        rw [first_cons]
        omega

/-- Blocks take a header each. -/
theorem length_mul_size_le (h : Row start stop bs) :
    bs.length * Header.size ≤ stop - first stop bs := by
  induction bs with
  | nil => simp
  | cons b rest ih =>
      have hle := h.tail_le_first
      have hrest := ih h.tail
      have hend := h.tail.first_le
      have hlt := b.address_add_size_le_tail
      rw [List.length_cons, Nat.succ_mul, first_cons]
      omega

/-- A walk along a row never runs out of steps. -/
theorem length_le_longest (h : Row start stop bs) (hstop : stop < Word.bound) :
    bs.length ≤ longest := by
  have hle := h.length_mul_size_le
  have hsize : Header.size = 48 := rfl
  have hlongest : Word.bound = longest * 16 := by decide
  rw [hsize] at hle
  omega

theorem tail_le_of_append (h : Row start stop (bs ++ cs)) :
    ∀ b ∈ bs, ∀ c ∈ cs, b.tail ≤ c.address :=
  (List.pairwise_append.mp h.ordered).2.2

theorem tail_le_of_cons_append (h : Row start stop (b :: (bs ++ cs))) :
    ∀ c ∈ b :: bs, ∀ d ∈ cs, c.tail ≤ d.address := by
  rw [← List.cons_append] at h
  exact h.tail_le_of_append

theorem tail_le_tail (h : Row start stop (bs ++ b :: cs)) : ∀ c ∈ bs ++ [b], c.tail ≤ b.tail := by
  intro c hc
  have hsize := b.address_add_size_le_tail
  rw [List.mem_append, List.mem_singleton] at hc
  rcases hc with hc | rfl
  · have := h.tail_le_of_append c hc b List.mem_cons_self
    omega
  · exact Nat.le_refl _

theorem insert {c : Block} (h : Row start stop (bs ++ b :: cs)) (hb : b.tail ≤ c.address)
    (hc : c.tail ≤ first stop cs) (hlie : Block.canLieAt c.address = true) :
    Row start stop (bs ++ b :: c :: cs) := by
  have hsize := b.address_add_size_le_tail
  have hrow := h.sublist (List.sublist_append_right bs (b :: cs))
  have hcs : ∀ d ∈ cs, c.tail ≤ d.address := fun d hd =>
    Nat.le_trans hc (hrow.tail.first_le_address hd stop)
  have hin := hrow.inside b List.mem_cons_self
  have hend := hrow.tail.first_le
  have hfront := h.tail_le_of_append
  have hmem : ∀ d ∈ bs ++ b :: c :: cs, d = c ∨ d ∈ bs ++ b :: cs := by
    intro d hd
    simp only [List.mem_append, List.mem_cons] at hd ⊢
    tauto
  refine ⟨?_, ?_, ?_⟩
  · refine List.pairwise_append.mpr ⟨(h.sublist (List.sublist_append_left bs _)).ordered, ?_, ?_⟩
    · refine List.pairwise_cons.mpr ⟨?_, List.pairwise_cons.mpr ⟨hcs, hrow.tail.ordered⟩⟩
      exact List.forall_mem_cons.mpr ⟨hb, hrow.tail_le⟩
    · intro d hd
      have hd := hfront d hd
      rw [List.forall_mem_cons] at hd ⊢
      exact ⟨hd.1, List.forall_mem_cons.mpr ⟨by omega, hd.2⟩⟩
  · intro d hd
    rcases hmem d hd with rfl | hd
    · exact ⟨by omega, by omega⟩
    · exact h.inside d hd
  · intro d hd
    rcases hmem d hd with rfl | hd
    · exact hlie
    · exact h.canLie d hd

/-- Two rows of the same blocks are the same row. -/
theorem ext {start' stop' : Nat} (h : Row start stop bs) (h' : Row start' stop' cs)
    (hmem : ∀ b, b ∈ bs ↔ b ∈ cs) : bs = cs := by
  have hlt := Block.address_add_size_le_tail
  have hpos : 0 < Header.size := by decide
  have hirrefl : Std.Irrefl fun b c : Block => b.tail ≤ c.address :=
    ⟨fun b hle => by have := hlt b; omega⟩
  have hantisymm : Std.Antisymm fun b c : Block => b.tail ≤ c.address :=
    ⟨fun b c hbc hcb => by have := hlt b; have := hlt c; omega⟩
  exact h.ordered.eq_of_mem_iff h'.ordered hmem

/-- What is in front of a block is a row that ends where the block begins. -/
theorem front (h : Row start stop (bs ++ b :: cs)) : Row start b.address bs where
  ordered := h.ordered.sublist (List.sublist_append_left bs _)
  inside c hc :=
    ⟨(h.inside c (List.mem_append_left _ hc)).1, h.tail_le_of_append c hc b List.mem_cons_self⟩
  canLie c hc := h.canLie c (List.mem_append_left _ hc)

/-- A block of a row is apart from all others in it. -/
theorem apart (h : Row start stop (bs ++ b :: cs)) :
    ∀ c ∈ bs ++ cs, c.tail ≤ b.address ∨ b.tail ≤ c.address := by
  intro c hc
  rcases List.mem_append.mp hc with hc | hc
  · exact .inl (h.tail_le_of_append c hc b List.mem_cons_self)
  · exact .inr ((h.sublist (List.sublist_append_right bs _)).tail_le c hc)

theorem eq_or_apart {c : Block} (h : Row start stop bs) (hb : b ∈ bs) (hc : c ∈ bs) :
    c = b ∨ c.tail ≤ b.address ∨ b.tail ≤ c.address := by
  obtain ⟨front, back, rfl⟩ := List.append_of_mem hb
  rw [List.mem_append, List.mem_cons] at hc
  have hap := h.apart c
  rw [List.mem_append] at hap
  tauto

theorem address_ne (h : Row start stop (bs ++ b :: cs)) :
    ∀ c ∈ bs ++ cs, c.address ≠ b.address := by
  intro c hc
  have hpos : 0 < Header.size := by decide
  have hsize := b.address_add_size_le_tail
  have hsize' := c.address_add_size_le_tail
  rcases h.apart c hc with hle | hle <;> omega

/-- No two blocks of a row lie at one address. -/
theorem eq_of_address_eq {c : Block} (h : Row start stop bs) (hb : b ∈ bs) (hc : c ∈ bs)
    (haddress : c.address = b.address) : c = b := by
  have hpos : 0 < Header.size := by decide
  have hsize := b.address_add_size_le_tail
  have hsize' := c.address_add_size_le_tail
  exact (h.eq_or_apart hb hc).resolve_right (by omega)

end Row

def InHeader (bs : List Block) (x : Nat) : Prop :=
  ∃ b ∈ bs, b.address ≤ x ∧ x < b.payload

theorem InHeader.mono {x : Nat} {bs cs : List Block} (h : InHeader bs x) (hsub : bs ⊆ cs) :
    InHeader cs x :=
  let ⟨b, hb, hin⟩ := h
  ⟨b, hsub hb, hin⟩

theorem Row.bounds_of_inHeader {start stop x : Nat} {bs : List Block} (h : Row start stop bs)
    (hx : InHeader bs x) : start ≤ x ∧ x < stop := by
  obtain ⟨b, hb, hlo, hhi⟩ := hx
  have hin := h.inside b hb
  have hsize := b.address_add_size_le_tail
  unfold Block.payload at hhi
  omega

/-- No header reaches into a padded payload. -/
theorem Row.not_inHeader {start stop x : Nat} {b : Block} {bs : List Block} (h : Row start stop bs)
    (hb : b ∈ bs) (hlo : b.payload ≤ x) (hhi : x < b.tail) : ¬ InHeader bs x := by
  rintro ⟨c, hc, hin⟩
  have hsize := b.address_add_size_le_tail
  have hsize' := c.address_add_size_le_tail
  unfold Block.payload at hlo hin
  rcases h.eq_or_apart hb hc with rfl | hle | hle
  · omega
  · omega
  · omega

/-! ## The threaded row -/

/-- The row with the headers that its blocks have in memory. -/
def thread (next stop : Nat) : Nat → List Block → List Block
  | _, [] => []
  | prev, b :: rest =>
    b.linked prev (first next rest) (first stop rest) :: thread next stop b.address rest

@[simp] theorem thread_nil (next stop prev : Nat) : thread next stop prev [] = [] := rfl

@[simp] theorem thread_cons (next stop prev : Nat) (b : Block) (rest : List Block) :
    thread next stop prev (b :: rest) =
      b.linked prev (first next rest) (first stop rest) ::
        thread next stop b.address rest := rfl

theorem thread_append (next stop prev : Nat) (bs cs : List Block) :
    thread next stop prev (bs ++ cs) =
      thread (first next cs) (first stop cs) prev bs ++ thread next stop (last prev bs) cs := by
  induction bs generalizing prev with
  | nil => rfl
  | cons b rest ih =>
      rw [List.cons_append, thread_cons, thread_cons, ih, first_append, first_append,
        last_cons, List.cons_append]

theorem first_of_head?_thread (next stop prev d : Nat) (bs : List Block) :
    ((thread next stop prev bs).head?.map Block.address).getD d = first d bs := by
  cases bs with
  | nil => rfl
  | cons b rest => exact b.address_linked

theorem exists_of_mem_thread {next stop prev : Nat} {bs : List Block} {b : Block}
    (h : b ∈ thread next stop prev bs) :
    ∃ front c back, bs = front ++ c :: back ∧
      b = c.linked (last prev front) (first next back) (first stop back) := by
  induction bs generalizing prev with
  | nil => simp at h
  | cons c rest ih =>
      rw [thread_cons, List.mem_cons] at h
      rcases h with rfl | h
      · exact ⟨[], c, rest, rfl, rfl⟩
      · obtain ⟨front, d, back, rfl, hd⟩ := ih h
        exact ⟨c :: front, d, back, rfl, hd⟩

theorem linked_mem_thread (next stop prev : Nat) (front : List Block) (b : Block)
    (back : List Block) :
    b.linked (last prev front) (first next back) (first stop back) ∈
      thread next stop prev (front ++ b :: back) := by
  rw [thread_append, thread_cons]
  exact List.mem_append_right _ List.mem_cons_self

/-- A block of a threaded row ends where the next one begins or before. -/
theorem pairwise_thread {start stop next prev : Nat} {bs : List Block} (h : Row start stop bs) :
    (thread next stop prev bs).Pairwise fun b c => b.stop ≤ c.address := by
  induction bs generalizing prev with
  | nil => exact .nil
  | cons b rest ih =>
      refine List.pairwise_cons.mpr ⟨fun c hc => ?_, ih h.tail⟩
      obtain ⟨front, d, back, rfl, rfl⟩ := exists_of_mem_thread hc
      rw [Block.stop_linked h.tail_le_first, Block.address_linked]
      exact h.tail.first_le_address (by simp) stop

theorem stop_le_of_mem_thread {start stop next prev : Nat} {bs : List Block} {b : Block}
    (h : Row start stop bs) (hb : b ∈ thread next stop prev bs) : b.stop ≤ stop := by
  obtain ⟨front, c, back, rfl, rfl⟩ := exists_of_mem_thread hb
  have hrow := h.sublist (List.sublist_append_right front _)
  rw [Block.stop_linked hrow.tail_le_first]
  exact hrow.tail.first_le

/-- Threading keeps everything about the blocks that linking keeps. -/
theorem map_thread {γ : Type} {f : Block → γ}
    (hf : ∀ b prev next stop, f (b.linked prev next stop) = f b) (next stop prev : Nat)
    (bs : List Block) : (thread next stop prev bs).map f = bs.map f := by
  induction bs generalizing prev with
  | nil => rfl
  | cons b rest ih => rw [thread_cons, List.map_cons, List.map_cons, ih, hf]

/-! ## In memory -/

/-- The headers of these blocks are in memory. -/
def Carries (m : Memory) (bs : List Block) : Prop :=
  ∀ b ∈ bs, Header.load m b.address = b.header

namespace Carries

variable {m m' : Memory} {bs cs : List Block} {b : Block}

theorem append_iff : Carries m (bs ++ cs) ↔ Carries m bs ∧ Carries m cs :=
  List.forall_mem_append

theorem thread_cons_iff {next stop prev : Nat} :
    Carries m (thread next stop prev (b :: bs)) ↔
      Header.load m b.address = (b.linked prev (first next bs) (first stop bs)).header ∧
        Carries m (thread next stop b.address bs) := by
  rw [thread_cons, Carries, List.forall_mem_cons, Block.address_linked, Carries]

theorem load_eq {next stop prev : Nat} (h : Carries m (thread next stop prev bs))
    (h' : Carries m' (thread next stop prev bs)) (hb : b ∈ bs) :
    Header.load m b.address = Header.load m' b.address := by
  obtain ⟨front, back, rfl⟩ := List.append_of_mem hb
  have hmem := linked_mem_thread next stop prev front b back
  have hload := (h _ hmem).trans (h' _ hmem).symm
  rwa [Block.address_linked] at hload

/-- Headers that read as before are still there. -/
theorem of_load_eq {next stop prev : Nat} (h : Carries m (thread next stop prev bs))
    (hload : ∀ b ∈ bs, Header.load m' b.address = Header.load m b.address) :
    Carries m' (thread next stop prev bs) := by
  intro b hb
  obtain ⟨front, c, back, rfl, rfl⟩ := exists_of_mem_thread hb
  have hold := h _ hb
  rw [Block.address_linked] at hold ⊢
  rw [hload c (by simp), hold]

end Carries

/-! ## Walks -/

variable {ε α β : Type} {m : Memory} {next stop prev : Nat} {b : Block} {bs : List Block}

theorem outcome_verified (a : Nat) (m : Memory) :
    (Block.verified a : Operation Memory ε Block).outcome m =
      (if Block.canLieAt a then
        if (Header.load m a).isIntact then .ok ⟨a, Header.load m a⟩ else .fault (.damagedBlock a)
      else .fault (.unreadableHeader a), m) := by
  unfold Block.verified
  split
  · rw [Operation.outcome_get_bind]
    dsimp only
    split <;> rfl
  · rfl

theorem outcome_verified_linked (hlie : Block.canLieAt b.address = true)
    (hload : Header.load m b.address = (b.linked prev next stop).header) :
    (Block.verified b.address : Operation Memory ε Block).outcome m =
      (.ok (b.linked prev next stop), m) := by
  rw [outcome_verified, if_pos hlie, hload, if_pos Block.isIntact_linked]
  simp only [Block.linked]

theorem ne_zero_of_canLieAt {a : Nat} (h : Block.canLieAt a = true) : a ≠ 0 := by
  simp only [Block.canLieAt, Bool.and_eq_true, bne_iff_ne] at h
  exact h.1

theorem outcome_search_of_some {link : Header → Nat} {steps : Nat} {found : α}
    {answer : Block → Operation Memory ε (Option α)} (hlie : Block.canLieAt b.address = true)
    (hload : Header.load m b.address = (b.linked prev next stop).header)
    (hanswer : (answer (b.linked prev next stop)).outcome m = (.ok (some found), m))
    (hsteps : 0 < steps) :
    (search link answer steps b.address).outcome m = (.ok (some found), m) := by
  obtain ⟨steps, rfl⟩ := Nat.exists_eq_succ_of_ne_zero (Nat.ne_of_gt hsteps)
  rw [search, if_neg (ne_zero_of_canLieAt hlie),
    Operation.outcome_bind_ok (outcome_verified_linked hlie hload),
    Operation.outcome_bind_ok hanswer]
  rfl

/-- A search along a threaded row is a search of the row, and if that finds nothing, it goes
on behind the row. -/
theorem outcome_search_front {steps : Nat} {answer : Block → Operation Memory ε (Option α)}
    {f : Block → Option α} (hlie : ∀ b ∈ bs, Block.canLieAt b.address = true)
    (hcarries : Carries m (thread next stop prev bs))
    (hanswer : ∀ b ∈ thread next stop prev bs, (answer b).outcome m = (.ok (f b), m)) :
    (search Header.next answer (bs.length + steps) (first next bs)).outcome m =
      match (thread next stop prev bs).findSome? f with
      | some found => (.ok (some found), m)
      | none => (search Header.next answer steps next).outcome m := by
  induction bs generalizing prev with
  | nil =>
      rw [List.length_nil, Nat.zero_add]
      rfl
  | cons b rest ih =>
      rw [Carries.thread_cons_iff] at hcarries
      simp only [thread_cons, List.forall_mem_cons] at hanswer hlie
      rw [thread_cons, List.findSome?_cons, first_cons, List.length_cons, Nat.add_right_comm,
        search, if_neg (ne_zero_of_canLieAt hlie.1),
        Operation.outcome_bind_ok (outcome_verified_linked hlie.1 hcarries.1),
        Operation.outcome_bind_ok hanswer.1]
      cases f (b.linked prev (first next rest) (first stop rest)) with
      | some found => rfl
      | none =>
          rw [Block.next_linked]
          exact ih hlie.2 hcarries.2 hanswer.2

/-- Behind a row that is not linked to anything the search is over. -/
theorem outcome_search {steps : Nat} {answer : Block → Operation Memory ε (Option α)}
    {f : Block → Option α} (hlie : ∀ b ∈ bs, Block.canLieAt b.address = true)
    (hcarries : Carries m (thread 0 stop prev bs))
    (hanswer : ∀ b ∈ thread 0 stop prev bs, (answer b).outcome m = (.ok (f b), m))
    (hsteps : bs.length ≤ steps) :
    (search Header.next answer steps (first 0 bs)).outcome m =
      (.ok ((thread 0 stop prev bs).findSome? f), m) := by
  obtain ⟨left, rfl⟩ := Nat.exists_eq_add_of_le hsteps
  rw [outcome_search_front hlie hcarries hanswer]
  cases (thread 0 stop prev bs).findSome? f with
  | some found => rfl
  | none =>
      rw [search.eq_def]
      rfl

end Chain

end KernelMemory
