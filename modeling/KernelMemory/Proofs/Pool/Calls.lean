import KernelMemory.Proofs.Pool.Allocation

/-!
# Calls to a pool

What each call does to a pool that holds a row, for all arguments. A call that fails leaves
memory as it is. An allocation answers a payload whose block is then in the row, and a
release takes the block of the payload out; no other block changes its place. Besides
headers of the row that is left, an allocation writes nothing and a release only clears room
that no block of that row takes. What is answered can be read off the row.
-/

namespace KernelMemory

namespace Pool

open Chain

variable {ε : Type} {p : Pool} {m m' : Memory} {bs front back left right : List Block}
  {b d : Block}

/-! ## Keeping the invariant -/

/-- A pool only looks at the headers of its row. -/
theorem Holds.of_get_eq (hp : p.Holds m bs)
    (h : ∀ x, InHeader (p.base :: bs) x → m'.get x = m.get x) : p.Holds m' bs :=
  ⟨hp.stop_lt, hp.row, hp.live, hp.carries.of_load_eq fun b hb =>
    Header.load_eq_of_get_eq fun x hlo hhi => h x ⟨b, hb, hlo, hhi⟩⟩

/-- The payload lies, with a header in front of it, in the room between the end of a row
and the start of another. -/
structure Fits (front : List Block) (a : Allocation) (hi : Nat) : Prop where
  size_pos : 0 < a.size
  aligned : a.effective ∣ a.payload
  lies : Header.alignment ∣ a.payload
  above : ∀ b ∈ front, b.tail + Header.size ≤ a.payload
  below : a.payload + a.padded ≤ hi

theorem Fits.size_lt_payload {a : Allocation} {hi : Nat} (h : Fits (b :: front) a hi) :
    Header.size < a.payload := by
  have := h.above b List.mem_cons_self
  have hlt := b.address_add_size_le_tail
  have hsize : Header.size = 48 := rfl
  omega

theorem Fits.canLie {a : Allocation} {hi : Nat} (h : Fits (b :: front) a hi) :
    Block.canLieAt a.block.address = true := by
  have hlt := h.size_lt_payload
  have hdvd : Header.alignment ∣ a.payload - Header.size :=
    Nat.dvd_sub h.lies (by decide)
  rw [Block.canLieAt, Bool.and_eq_true, bne_iff_ne, beq_iff_eq]
  exact ⟨Nat.sub_ne_zero_of_lt hlt, Nat.mod_eq_zero_of_dvd hdvd⟩

theorem Holds.insertBehind {a : Allocation} (hp : p.Holds m (left ++ right))
    (hsplit : p.base :: left = front ++ [d]) (ha : Fits (p.base :: left) a (first p.stop right)) :
    p.Holds (insertBehind p.stop front d a.block right m) (left ++ a.block :: right) := by
  have hrow := hp.row
  have hcarries := hp.carries
  have hlt := ha.size_lt_payload
  have hd : d.tail ≤ a.block.address := by
    have := ha.above d (by rw [hsplit]; simp)
    show d.tail ≤ a.payload - Header.size
    omega
  have hright : a.block.tail ≤ first p.stop right := by
    rw [Allocation.tail_block (Nat.le_of_lt hlt)]
    exact ha.below
  rw [cons_append_of_split hsplit] at hrow hcarries
  have hnew := hrow.insert hd hright ha.canLie
  have hcnew := carries_insertBehind hnew hp.stop_lt hcarries
  rw [← cons_append_of_split hsplit] at hnew hcnew
  refine ⟨hp.stop_lt, hnew, ?_, hcnew⟩
  intro c hc
  rw [List.mem_append, List.mem_cons] at hc
  rcases hc with hc | rfl | hc
  · exact hp.live c (List.mem_append_left right hc)
  · exact isLive_iff.mpr ⟨rfl, Nat.ne_of_gt ha.size_pos⟩
  · exact hp.live c (List.mem_append_right left hc)

theorem Holds.removeBehind (hp : p.Holds m (left ++ b :: right))
    (hsplit : p.base :: left = front ++ [d]) :
    p.Holds (removeBehind p.stop front d right m) (left ++ right) := by
  have hrow := hp.row
  have hcarries := hp.carries
  rw [cons_append_of_split hsplit] at hrow hcarries
  refine ⟨hp.stop_lt, hp.row.sublist ?_, fun c hc => hp.live c ?_, ?_⟩
  · exact ((List.sublist_cons_self b right).append_left left).cons_cons p.base
  · simp only [List.mem_append, List.mem_cons] at hc ⊢
    tauto
  · have := carries_removeBehind hrow hp.stop_lt hcarries
    rwa [← cons_append_of_split hsplit] at this

/-! ## Allocating -/

theorem exists_left_of_split {b d : Block} (h : b :: bs = front ++ d :: back) :
    ∃ left, b :: left = front ++ [d] ∧ bs = left ++ back := by
  rw [List.append_cons] at h
  cases hfront : front ++ [d] with
  | nil => simp at hfront
  | cons c left =>
      rw [hfront, List.cons_append, List.cons.injEq] at h
      exact ⟨left, by rw [h.1], h.2⟩

/-- The first block of a row with room in its tail, and where the payload goes in it. -/
def donorIn? (p : Pool) (bs : List Block) (padded alignment : Nat) : Option (Block × Nat) :=
  (thread 0 p.stop 0 (p.base :: bs)).findSome? fun b =>
    (b.placement? padded alignment).map fun start => (b, start)

def roomIn? (p : Pool) (bs : List Block) (size alignment : Nat) : Option Nat :=
  (Word.roundUp? Header.alignment size).bind fun padded =>
    (p.donorIn? bs padded alignment).map Prod.snd

/-- What a pool with this row answers to a request for memory. -/
def grantIn (p : Pool) (bs : List Block) (size alignment : Nat) : Verdict PoolError Nat :=
  if size = 0 then
    .error .emptyRequest
  else
    match effectiveAlignment alignment with
    | .error e => .error e
    | .ok alignment =>
      match p.roomIn? bs size alignment with
      | some payload => .ok payload
      | none => .error (.outOfMemory size alignment)

/-- The blocks of a row end inside the arena, so looking for room cannot overflow. -/
theorem Holds.outcome_room (hp : p.Holds m bs) (padded alignment : Nat) {c : Block}
    (hc : c ∈ thread 0 p.stop 0 (p.base :: bs)) (m' : Memory) :
    (do
        let _ ← Operation.sum c.stop
        return (c.placement? padded alignment).map fun start => (c, start) :
      Operation Memory ε (Option (Block × Nat))).outcome m' =
      (.ok ((c.placement? padded alignment).map fun start => (c, start)), m') := by
  have hstop : c.stop < Word.bound :=
    Nat.lt_of_le_of_lt (stop_le_of_mem_thread hp.row hc) hp.stop_lt
  rw [Operation.outcome_bind_ok (Operation.outcome_sum hstop m')]
  rfl

theorem Holds.outcome_searchRoom (hp : p.Holds m bs) (padded alignment : Nat) :
    (search Header.next (fun b => do
        let _ ← Operation.sum b.stop
        return (b.placement? padded alignment).map fun start => (b, start)) longest p.start :
      Operation Memory ε (Option (Block × Nat))).outcome m =
      (.ok (p.donorIn? bs padded alignment), m) :=
  outcome_search hp.row.canLie hp.carries (fun _ hb => hp.outcome_room padded alignment hb m)
    (hp.row.length_le_longest hp.stop_lt)

/-- What a donor has room for fits behind it. -/
theorem Holds.donorIn?_spec (hp : p.Holds m bs) {size alignment payload : Nat} {donor : Block}
    (hsize : 0 < size) (halign : Header.alignment ∣ max alignment Header.alignment) (tag : Tag)
    (hfound : p.donorIn? bs (Allocation.padded ⟨payload, size, alignment, tag⟩)
      (max alignment Header.alignment) = some (donor, payload)) :
    ∃ left right front d, bs = left ++ right ∧ p.base :: left = front ++ [d] ∧
      donor = d.linked (last 0 front) (first 0 right) (first p.stop right) ∧
      Fits (p.base :: left) ⟨payload, size, alignment, tag⟩ (first p.stop right) := by
  have hpos : 0 < max alignment Header.alignment :=
    Nat.lt_of_lt_of_le (by decide) (Nat.le_max_right alignment Header.alignment)
  obtain ⟨b, hb, hroom⟩ := List.exists_of_findSome?_eq_some hfound
  obtain ⟨payload', hplace, heq⟩ := Option.map_eq_some_iff.mp hroom
  obtain ⟨rfl, rfl⟩ := Prod.mk.inj heq
  obtain ⟨front, d, right, hsplit, rfl⟩ := exists_of_mem_thread hb
  obtain ⟨left, hleft, rfl⟩ := exists_left_of_split hsplit
  obtain ⟨hlo, hdvd, hhi⟩ := Block.placement?_spec hpos hplace
  have hrow := hp.row
  rw [hsplit] at hrow
  have hd := hrow.tail_le_tail
  rw [← hleft] at hd
  rw [Block.tail_linked] at hlo
  rw [Block.stop_linked
    (hrow.sublist (List.sublist_append_right front _)).tail_le_first] at hhi
  refine ⟨left, right, front, d, rfl, hleft, rfl, hsize, hdvd, Nat.dvd_trans halign hdvd, ?_,
    hhi⟩
  intro b hb
  exact Nat.le_trans (Nat.add_le_add_right (hd b hb) Header.size) hlo

theorem Holds.outcome_place (hp : p.Holds m bs) {size alignment : Nat} (hsize : 0 < size)
    (halign : Header.alignment ∣ max alignment Header.alignment) (tag : Tag) :
    p.roomIn? bs size (max alignment Header.alignment) = none ∧
        (p.place size (max alignment Header.alignment) tag :
          Operation Memory ε (Option Nat)).outcome m = (.ok none, m) ∨
      ∃ payload left right front d,
        p.roomIn? bs size (max alignment Header.alignment) = some payload ∧
        bs = left ++ right ∧ p.base :: left = front ++ [d] ∧
        Fits (p.base :: left) ⟨payload, size, alignment, tag⟩ (first p.stop right) ∧
        (p.place size (max alignment Header.alignment) tag :
          Operation Memory ε (Option Nat)).outcome m =
            (.ok (some payload), Chain.insertBehind p.stop front d
              (Allocation.block ⟨payload, size, alignment, tag⟩) right m) := by
  unfold place roomIn?
  cases hround : Word.roundUp? Header.alignment size with
  | none => exact .inl ⟨rfl, rfl⟩
  | some padded =>
      simp only [Option.bind_some]
      rw [Operation.outcome_bind_ok (hp.outcome_searchRoom padded _)]
      cases hfound : p.donorIn? bs padded (max alignment Header.alignment) with
      | none => exact .inl ⟨rfl, rfl⟩
      | some found =>
          obtain ⟨rfl, -⟩ := Word.roundUp?_eq_some_iff.mp hround
          obtain ⟨donor, payload⟩ := found
          obtain ⟨left, right, front, d, rfl, hleft, rfl, hfits⟩ :=
            hp.donorIn?_spec hsize halign tag hfound
          have hcarries := hp.carries
          have hnew := (hp.insertBehind hleft hfits).row
          rw [cons_append_of_split hleft] at hnew hcarries
          refine .inr ⟨payload, left, right, front, d, rfl, rfl, hleft, hfits, ?_⟩
          exact Operation.outcome_bind_ok
            (outcome_carve (Nat.le_of_lt hfits.size_lt_payload) hnew hcarries) _

/-- An allocation fails without a change, or puts a block into the row and writes nothing
but headers. -/
theorem Holds.allocate_cases (hp : p.Holds m bs) (size alignment : Nat) (tag : Tag) :
    (∃ e, p.grantIn bs size alignment = .error e ∧
        (p.allocate size alignment tag).outcome m = (.error e, m)) ∨
      ∃ payload m' left right, bs = left ++ right ∧
        p.grantIn bs size alignment = .ok payload ∧
        (p.allocate size alignment tag).outcome m = (.ok payload, m') ∧
        Fits (p.base :: left) ⟨payload, size, alignment, tag⟩ (first p.stop right) ∧
        p.Holds m' (left ++ Allocation.block ⟨payload, size, alignment, tag⟩ :: right) ∧
        ∀ x, ¬ InHeader (p.base ::
            (left ++ Allocation.block ⟨payload, size, alignment, tag⟩ :: right)) x →
          m'.get x = m.get x := by
  unfold allocate grantIn
  split
  · exact .inl ⟨_, rfl, rfl⟩
  · next hsize =>
    rcases effectiveAlignment_cases alignment with ⟨e, halign⟩ | ⟨halign, hdvd⟩
    · rw [halign]
      exact .inl ⟨e, rfl, rfl⟩
    · rw [halign, Operation.outcome_bind_ok (Operation.outcome_ofExcept_ok _ m)]
      rcases hp.outcome_place (ε := PoolError) (Nat.pos_of_ne_zero hsize) hdvd tag with
        ⟨hroom, hout⟩ | ⟨payload, left, right, front, d, hroom, rfl, hsplit, hfits, hout⟩
      · rw [Operation.outcome_bind_ok hout, Operation.outcome_bind_ok hp.outcome_selfCheck]
        refine .inl ⟨_, ?_, rfl⟩
        simp only [hroom]
      · have hp' := hp.insertBehind hsplit hfits
        refine .inr ⟨payload, _, left, right, rfl, ?_, ?_, hfits, hp', ?_⟩
        · simp only [hroom]
        · rw [Operation.outcome_bind_ok hout, Operation.outcome_bind_ok hp'.outcome_selfCheck]
          rfl
        · intro x hx
          refine get_insertBehind fun hin => hx ?_
          rwa [cons_append_of_split hsplit]

/-- Clearing what was allocated changes no header. -/
theorem Holds.allocateZeroed_cases (hp : p.Holds m bs) (size alignment : Nat) (tag : Tag) :
    (∃ e, p.grantIn bs size alignment = .error e ∧
        (p.allocateZeroed size alignment tag).outcome m = (.error e, m)) ∨
      ∃ payload m' left right, bs = left ++ right ∧
        p.grantIn bs size alignment = .ok payload ∧
        (p.allocateZeroed size alignment tag).outcome m = (.ok payload, m') ∧
        Fits (p.base :: left) ⟨payload, size, alignment, tag⟩ (first p.stop right) ∧
        p.Holds m' (left ++ Allocation.block ⟨payload, size, alignment, tag⟩ :: right) ∧
        ∀ x, ¬ InHeader (p.base ::
            (left ++ Allocation.block ⟨payload, size, alignment, tag⟩ :: right)) x →
          m'.get x = (m.clear payload (payload + size)).get x := by
  unfold allocateZeroed
  rcases hp.allocate_cases size alignment tag with
    ⟨e, hgrant, hout⟩ | ⟨payload, m', left, right, rfl, hgrant, hout, hfits, hp', hframe⟩
  · exact .inl ⟨e, hgrant, Operation.outcome_bind_error hout _⟩
  · refine .inr ⟨payload, m'.clear payload (payload + size), left, right, rfl, hgrant,
      Operation.outcome_bind_ok hout _, hfits, ?_, ?_⟩
    · refine hp'.of_get_eq fun x hx => m'.get_clear_of_not_mem ?_
      by_contra hin
      have hpayload := Allocation.payload_block (Nat.le_of_lt hfits.size_lt_payload)
      have htail := Allocation.tail_block (Nat.le_of_lt hfits.size_lt_payload)
      have hpadded := Allocation.size_le_padded ⟨payload, size, alignment, tag⟩
      simp only at hpayload htail hpadded
      exact hp'.row.not_inHeader (b := Allocation.block ⟨payload, size, alignment, tag⟩)
        (by simp) (by omega) (by omega) hx
    · intro x hx
      rw [Memory.get_clear, Memory.get_clear, hframe x hx]

/-! ## Releasing -/

/-- A release of what is not a payload of the row fails without a change. Any other takes
the block out and clears all the room that is left between its neighbours. -/
theorem Holds.free_cases (hp : p.Holds m bs) (payload : Nat) :
    (∀ b ∈ bs, b.payload ≠ payload) ∧
        (p.free payload).outcome m = (.error (.invalidPointer payload), m) ∨
      ∃ left b right m' lo, bs = left ++ b :: right ∧ b.payload = payload ∧
        (p.free payload).outcome m = (.ok b.header.used, m') ∧ p.Holds m' (left ++ right) ∧
        (∀ c ∈ p.base :: left, c.tail ≤ lo) ∧ lo ≤ b.address ∧
        ∀ x, ¬ InHeader (p.base :: (left ++ right)) x →
          m'.get x = (m.clear lo (first p.stop right)).get x := by
  unfold free
  by_cases hmem : ∃ b ∈ bs, b.payload = payload
  · obtain ⟨b, hb, rfl⟩ := hmem
    obtain ⟨left, right, rfl⟩ := List.append_of_mem hb
    obtain ⟨front, d, hsplit, hout⟩ := outcome_unlink (ε := PoolError) hp
    have hp' := hp.removeBehind hsplit
    have hrow := hp.row
    refine .inr ⟨left, b, right, _, d.tail, rfl, rfl, ?_, hp', ?_, ?_, ?_⟩
    · rw [Operation.outcome_bind_ok hp.outcome_find?_of_mem]
      exact (Operation.outcome_bind_ok (Operation.outcome_map_ok hout some) _).trans
        (Operation.outcome_bind_ok hp'.outcome_selfCheck _)
    · intro c hc
      rw [cons_append_of_split hsplit] at hrow
      exact hrow.tail_le_tail c (hsplit ▸ hc)
    · exact hrow.tail_le_of_cons_append d (by rw [hsplit]; simp) b
        List.mem_cons_self
    · intro x hx
      refine get_removeBehind fun hin => hx ?_
      rwa [cons_append_of_split hsplit]
  · have hnone : ∀ b ∈ bs, b.payload ≠ payload := fun b hb h => hmem ⟨b, hb, h⟩
    refine .inl ⟨hnone, ?_⟩
    rw [Operation.outcome_bind_ok (hp.outcome_find?_of_not_mem hnone)]
    exact Operation.outcome_bind_ok hp.outcome_selfCheck _

end Pool

end KernelMemory
