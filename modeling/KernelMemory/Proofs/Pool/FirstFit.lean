import KernelMemory.Proofs.Pool.Damage
import Mathlib.Data.List.Induction
import Mathlib.Order.Bounds.Basic

/-!
# First fit

A payload can go wherever, on a multiple of its alignment, it and a header in front of it lie in
the unused tail of one block. An allocation takes the lowest such place, and it is refused only if
there is none. So an arena is never out of memory while there is room in it, however far ahead a
large alignment skips and wherever a tail starts.

In one tail the place is the least multiple of the alignment behind the tail's start and a header.
Rounding up to it may leave the range of addresses; then there is no multiple left in the range
at all, because the alignment is a power of two. From one tail to the next addresses only rise, so
what the first block with room answers is the least over all of them.
-/

namespace KernelMemory

open Chain

/-- Where a payload of `padded` bytes may go in the tail of a block, with its header in front. -/
def Block.room (b : Block) (padded alignment : Nat) : Set Nat :=
  {a | alignment ∣ a ∧ b.tail + Header.size ≤ a ∧ a + padded ≤ b.stop}

/-! ## One tail -/

namespace Block

variable {b : Block} {padded k a start : Nat}

/-- No place in the tail is lower than the one that is answered. -/
theorem isLeast_of_placement? (h : b.placement? padded (2 ^ k) = some start) :
    IsLeast (b.room padded (2 ^ k)) start := by
  have hpos := Nat.two_pow_pos k
  obtain ⟨hlo, hdvd, hhi⟩ := placement?_spec hpos h
  refine ⟨⟨hdvd, hlo, hhi⟩, ?_⟩
  rintro a ⟨hdvd', hlo', -⟩
  simp only [placement?, Option.bind_eq_bind, Option.bind_eq_some_iff] at h
  obtain ⟨start', ⟨sum, hsum, hround⟩, stop, -, hfits⟩ := h
  obtain ⟨rfl, -⟩ := Word.add?_eq_some_iff.mp hsum
  split at hfits
  · obtain rfl := Option.some.inj hfits
    exact Word.roundUp?_le hpos hround hdvd' hlo'
  · cases hfits

/-- If there is a place, no step of the computation leaves the range of addresses. -/
theorem exists_placement? (hstop : b.stop < Word.bound) (ha : a ∈ b.room padded (2 ^ k)) :
    ∃ start, b.placement? padded (2 ^ k) = some start := by
  obtain ⟨hdvd, hlo, hhi⟩ := ha
  have hpos : 0 < b.tail + Header.size := Nat.lt_of_lt_of_le (by decide) (Nat.le_add_left _ _)
  have hsum : Word.add? b.tail Header.size = some (b.tail + Header.size) :=
    Word.add?_eq_some_iff.mpr ⟨rfl, by omega⟩
  cases hround : Word.roundUp? (2 ^ k) (b.tail + Header.size) with
  | none =>
      have hbound := Word.bound_le_of_roundUp?_eq_none hpos hround hdvd hlo
      omega
  | some start =>
      have hle := Word.roundUp?_le (Nat.two_pow_pos k) hround hdvd hlo
      have hend : start + padded ≤ b.stop := Nat.le_trans (Nat.add_le_add_right hle padded) hhi
      have hstop : Word.add? start padded = some (start + padded) :=
        Word.add?_eq_some_iff.mpr ⟨rfl, by omega⟩
      refine ⟨start, ?_⟩
      simp only [placement?, hsum, hround, hstop, Option.bind_eq_bind, Option.bind_some,
        if_pos hend]

end Block

/-! ## One tail after another -/

/-- If each block ends before the next begins, the first of them with room has the lowest. -/
theorem findSome?_placement?_cases {bs : List Block}
    (hbs : bs.Pairwise fun b c => b.stop ≤ c.address) (hstop : ∀ b ∈ bs, b.stop < Word.bound)
    (padded k : Nat) :
    (∃ donor a, (bs.findSome? fun b =>
          (b.placement? padded (2 ^ k)).map fun start => (b, start)) = some (donor, a) ∧
        IsLeast {a | ∃ b ∈ bs, a ∈ b.room padded (2 ^ k)} a) ∨
      (bs.findSome? fun b => (b.placement? padded (2 ^ k)).map fun start => (b, start)) = none ∧
        {a | ∃ b ∈ bs, a ∈ b.room padded (2 ^ k)} = ∅ := by
  induction bs with
  | nil => exact .inr ⟨rfl, by simp⟩
  | cons b rest ih =>
      rw [List.pairwise_cons] at hbs
      rw [List.forall_mem_cons] at hstop
      simp only [List.findSome?_cons, List.exists_mem_cons_iff]
      cases hplace : b.placement? padded (2 ^ k) with
      | some a =>
          obtain ⟨hroom, hleast⟩ := Block.isLeast_of_placement? hplace
          refine .inl ⟨b, a, rfl, .inl hroom, ?_⟩
          rintro x (hx | ⟨c, hc, -, hx, -⟩)
          · exact hleast hx
          · have hend : a + padded ≤ b.stop := hroom.2.2
            have hnext := hbs.1 c hc
            have htail := c.address_add_size_le_tail
            omega
      | none =>
          have hnone : ∀ a, a ∉ b.room padded (2 ^ k) := fun a ha => by
            obtain ⟨start, hsome⟩ := Block.exists_placement? hstop.1 ha
            exact nomatch hplace.symm.trans hsome
          simp only [hnone, Option.map_none, false_or]
          exact ih hbs.2 hstop.2

namespace Pool

variable {arena : Arena} {p : Pool} {m : Memory} {live : List Allocation} {bs : List Block}

/-! ## The blocks of a pool -/

theorem Holds.inList {b : Block} {front back : List Block} (hp : p.Holds m bs)
    (hsplit : p.base :: bs = front ++ b :: back) : InList p m b.address := by
  induction front using List.reverseRecOn generalizing b back with
  | nil =>
      obtain ⟨rfl, -⟩ := List.cons.inj hsplit
      exact .first
  | append_singleton front c ih =>
      rw [List.append_assoc, List.singleton_append] at hsplit
      have hcarries := hp.carries
      have hlie := hp.row.canLie b (by rw [hsplit]; simp)
      rw [hsplit] at hcarries
      simp only [thread_append, Carries.append_iff, Carries.thread_cons_iff] at hcarries
      have hnext : (Header.load m c.address).next = b.address := by
        rw [hcarries.2.1, Block.next_linked, first_cons]
      rw [← hnext]
      exact .next (ih hsplit) (hnext ▸ ne_zero_of_canLieAt hlie)

/-- The headers in the list are those of the threaded row. -/
theorem Holds.mem_thread_iff (hp : p.Holds m bs) {b : Block} :
    b ∈ thread 0 p.stop 0 (p.base :: bs) ↔
      InList p m b.address ∧ Header.load m b.address = b.header := by
  constructor
  · intro hb
    refine ⟨?_, hp.carries b hb⟩
    obtain ⟨front, c, back, hsplit, rfl⟩ := exists_of_mem_thread hb
    rw [Block.address_linked]
    exact hp.inList hsplit
  · rintro ⟨hlist, hload⟩
    obtain ⟨c, hc, haddress⟩ := hp.exists_of_inList hlist
    obtain ⟨front, back, hsplit⟩ := List.append_of_mem hc
    have hmem := linked_mem_thread 0 p.stop 0 front c back
    rw [← hsplit] at hmem
    have hheader := hp.carries _ hmem
    rw [Block.address_linked, haddress, hload] at hheader
    have heq : b = c.linked (last 0 front) (first 0 back) (first p.stop back) := by
      rw [Block.mk.injEq, Block.address_linked]
      exact ⟨haddress.symm, hheader⟩
    exact heq ▸ hmem

/-- Where a payload may go in a pool: in the tail of a block that is in its list. -/
def room (p : Pool) (m : Memory) (size alignment : Nat) : Set Nat :=
  let padded := Word.roundDown Header.alignment (size + (Header.alignment - 1))
  {a | ∃ x, InList p m x ∧ a ∈ Block.room ⟨x, Header.load m x⟩ padded alignment}

theorem Holds.room_eq (hp : p.Holds m bs) (size alignment : Nat) :
    p.room m size alignment = {a | ∃ b ∈ thread 0 p.stop 0 (p.base :: bs),
      a ∈ b.room (Word.roundDown Header.alignment (size + (Header.alignment - 1)))
        alignment} := by
  ext a
  constructor
  · rintro ⟨x, hlist, hroom⟩
    exact ⟨_, hp.mem_thread_iff.mpr ⟨hlist, rfl⟩, hroom⟩
  · rintro ⟨⟨x, header⟩, hb, hroom⟩
    obtain ⟨hlist, hload⟩ := hp.mem_thread_iff.mp hb
    refine ⟨x, hlist, ?_⟩
    rwa [show Header.load m x = header from hload]

theorem Holds.roomIn?_cases (hp : p.Holds m bs) {size : Nat} (hsize : 0 < size) (k : Nat) :
    (∃ a, p.roomIn? bs size (2 ^ k) = some a ∧ IsLeast (p.room m size (2 ^ k)) a) ∨
      p.roomIn? bs size (2 ^ k) = none ∧ p.room m size (2 ^ k) = ∅ := by
  have hrow : (thread 0 p.stop 0 (p.base :: bs)).Pairwise fun b c => b.stop ≤ c.address :=
    pairwise_thread hp.row
  have hend : ∀ b ∈ thread 0 p.stop 0 (p.base :: bs), b.stop < Word.bound := fun b hb =>
    Nat.lt_of_le_of_lt (stop_le_of_mem_thread hp.row hb) hp.stop_lt
  rw [hp.room_eq, roomIn?]
  cases hround : Word.roundUp? Header.alignment size with
  | none =>
      -- the padded size alone is more than the range of addresses
      have hpadded := Word.bound_le_of_roundUp?_eq_none (k := 4) hsize hround
        (Word.dvd_roundDown Header.alignment (size + (Header.alignment - 1)))
        (Allocation.size_le_padded ⟨0, size, 0, .byLayout⟩)
      refine .inr ⟨rfl, Set.eq_empty_iff_forall_notMem.mpr ?_⟩
      rintro a ⟨b, hb, -, -, hhi⟩
      have hlt := hend b hb
      omega
  | some padded =>
      obtain ⟨rfl, -⟩ := Word.roundUp?_eq_some_iff.mp hround
      simp only [Option.bind_some, donorIn?]
      rcases findSome?_placement?_cases hrow hend
          (Word.roundDown Header.alignment (size + (Header.alignment - 1))) k with
        ⟨donor, a, hfound, hleast⟩ | ⟨hfound, hempty⟩
      · exact .inl ⟨a, by rw [hfound]; rfl, hleast⟩
      · exact .inr ⟨by rw [hfound]; rfl, hempty⟩

/-! ## Every allocation -/

theorem effectiveAlignment_eq_ok {alignment : Nat}
    (halign : alignment = 0 ∨ ∃ k, alignment = 2 ^ k) :
    effectiveAlignment alignment = .ok (max alignment Header.alignment) ∧
      ∃ k, max alignment Header.alignment = 2 ^ k := by
  rcases halign with rfl | ⟨k, rfl⟩
  · exact ⟨rfl, 4, rfl⟩
  · refine ⟨?_, Word.exists_max_two_pow k 4⟩
    rw [effectiveAlignment, if_neg (Nat.ne_of_gt (Nat.two_pow_pos k)),
      if_pos (Word.isPowerOfTwo_two_pow k)]

/-- An allocation takes the lowest place there is for it. Only if there is none, also where
rounding its size or an address would leave the range of addresses, it is refused, and then no
byte changes. -/
theorem allocation_is_first_fit (hm : Reachable arena p m live) {size alignment : Nat}
    (hsize : 0 < size) (halign : alignment = 0 ∨ ∃ k, alignment = 2 ^ k) (tag : Tag)
    {reply : Reply Memory PoolError Nat}
    (hreply : (p.allocate size alignment tag).run m = reply) :
    let effective := max alignment Header.alignment
    (reply.verdict = .error (.outOfMemory size effective) ↔ p.room m size effective = ∅) ∧
      (p.room m size effective = ∅ → reply.state = m) ∧
      ((p.room m size effective).Nonempty →
        ∃ a, IsLeast (p.room m size effective) a ∧ reply.verdict = .ok a) := by
  intro effective
  obtain ⟨order, -, hp⟩ := hm.accounts.holds
  obtain ⟨heffective, k, hk⟩ := effectiveAlignment_eq_ok halign
  have hroom := hp.roomIn?_cases hsize k
  rw [← hk] at hroom
  subst hreply
  rw [Operation.verdict_run, Operation.state_run]
  rcases hroom with ⟨a, hsome, hleast⟩ | ⟨hnone, hempty⟩
  · have hgrant : p.grantIn (order.map Allocation.block) size alignment = .ok a := by
      simp only [grantIn, Nat.ne_of_gt hsize, ↓reduceIte, heffective, hsome]
    have hne : p.room m size effective ≠ ∅ := Set.nonempty_iff_ne_empty.mp ⟨a, hleast.1⟩
    rcases hp.allocate_cases size alignment tag with
      ⟨e, hgrant', -⟩ | ⟨payload, m', left, right, -, hgrant', hout, -⟩
    · exact nomatch hgrant.symm.trans hgrant'
    · obtain rfl := Verdict.ok.inj (hgrant.symm.trans hgrant')
      rw [hout]
      exact ⟨iff_of_false (nomatch ·) hne, fun hempty => absurd hempty hne,
        fun _ => ⟨a, hleast, rfl⟩⟩
  · have hgrant : p.grantIn (order.map Allocation.block) size alignment =
        .error (.outOfMemory size effective) := by
      simp only [grantIn, Nat.ne_of_gt hsize, ↓reduceIte, heffective, hnone, effective]
    rcases hp.allocate_cases size alignment tag with
      ⟨e, hgrant', hout⟩ | ⟨payload, m', left, right, -, hgrant', -⟩
    · obtain rfl := Verdict.error.inj (hgrant.symm.trans hgrant')
      rw [hout]
      refine ⟨iff_of_true rfl hempty, fun _ => rfl, fun hsome => ?_⟩
      exact absurd hempty (Set.nonempty_iff_ne_empty.mp hsome)
    · exact nomatch hgrant.symm.trans hgrant'

/-- A large alignment leaves room in front of the payload. A later request goes there if it is
small, and behind the payload if it is not, and one for a page boundary is refused, since the next
boundary is outside the arena. -/
theorem allocation_is_first_fit_around_gap :
    let arena : Arena := ⟨.nonPaged, 0x10000, 0x200⟩
    let p : Pool := ⟨.touched, trimmed arena⟩
    let m₀ := ((create arena .touched).run Memory.zeroed).state
    let m₁ := ((p.allocate 8 0x100 .byLayout).run m₀).state
    IsLeast (p.room m₁ 0x20 16) 0x10060 ∧ IsLeast (p.room m₁ 0x80 16) 0x10140 ∧
      p.room m₁ 0x20 0x1000 = ∅ ∧ ((p.allocate 0x20 0x1000 .byLayout).run m₁).state = m₁ := by
  intro arena p m₀ m₁
  have h₀ : Reachable arena p m₀ [] := .create .touched Memory.zeroed (by decide)
  have h₁ : Reachable arena p m₁ [⟨0x10100, 8, 0x100, .byLayout⟩] :=
    h₀.call_of_verdict (.allocate 8 0x100 .byLayout) (v := .ok 0x10100) (by decide +kernel)
  have hsmall : ((p.allocate 0x20 0 .byLayout).run m₁).verdict = .ok 0x10060 := by
    decide +kernel
  have hlarge : ((p.allocate 0x80 0 .byLayout).run m₁).verdict = .ok 0x10140 := by
    decide +kernel
  have hpage : ((p.allocate 0x20 0x1000 .byLayout).run m₁).verdict =
    .error (.outOfMemory 0x20 0x1000) := by decide +kernel
  have hleast : ∀ size, 0 < size → ∀ a,
      ((p.allocate size 0 .byLayout).run m₁).verdict = .ok a → IsLeast (p.room m₁ size 16) a := by
    intro size hsize a hverdict
    obtain ⟨hempty, -, hsome⟩ := allocation_is_first_fit h₁ hsize (.inl rfl) .byLayout rfl
    rw [hverdict] at hempty hsome
    obtain ⟨a', hleast, heq⟩ :=
      hsome (Set.nonempty_iff_ne_empty.mpr fun h => nomatch hempty.mpr h)
    obtain rfl := Verdict.ok.inj heq
    exact hleast
  obtain ⟨hempty, hstate, -⟩ :=
    allocation_is_first_fit h₁ (show 0 < 0x20 by decide) (.inr ⟨12, rfl⟩) .byLayout rfl
  have hnone := hempty.mp hpage
  exact ⟨hleast 0x20 (by decide) _ hsmall, hleast 0x80 (by decide) _ hlarge, hnone,
    hstate hnone⟩

end Pool

end KernelMemory
