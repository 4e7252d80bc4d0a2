import KernelMemory.Proofs.Pool.Thread

/-!
# Splicing rows

An allocation puts a block into the row behind its donor, a release takes one out again. In
memory that is the header of the donor, whose link and tail change, and the header behind
the splice, whose link back changes. All other headers say what they said before: none of
them lies where something is written, because the blocks of a row are apart.
-/

namespace KernelMemory

namespace Block

def put (b : Block) (m : Memory) : Memory :=
  b.header.store b.address m

variable {b : Block} {m : Memory} {a : Nat}

theorem load_put_linked {prev next stop : Nat} (h : (b.linked prev next stop).header.InRange) :
    Header.load ((b.linked prev next stop).put m) b.address =
      (b.linked prev next stop).header := by
  rw [put, address_linked]
  exact Header.load_store h b.address m

theorem load_put_of_apart (h : a + Header.size ≤ b.address ∨ b.address + Header.size ≤ a) :
    Header.load (b.put m) a = Header.load m a :=
  b.header.load_store_of_apart m h

theorem get_put (h : ¬ (b.address ≤ a ∧ a < b.payload)) : (b.put m).get a = m.get a :=
  b.header.get_store_of_not_mem m (by unfold payload at h; omega)

theorem put_linked {prev next stop : Nat} :
    (b.linked prev next stop).put m = (b.linked prev next stop).header.store b.address m := by
  rw [put, address_linked]

theorem stamped_prev (b : Block) (prev prev' next stop : Nat) :
    ({ (b.linked prev next stop).header with prev := prev' } : Header).stamped =
      (b.linked prev' next stop).header := by
  simp only [linked, Header.stamped, Header.computed, Header.covered]

theorem stamped_next (b : Block) (prev next next' stop stop' : Nat) :
    ({ (b.linked prev next stop).header with next := next', unused := stop' - b.tail } :
      Header).stamped = (b.linked prev next' stop').header := by
  simp only [linked, Header.stamped, Header.computed, Header.covered]

/-- Resealing the header of a block puts what has become of it. -/
theorem outcome_reseal {ε : Type} {f : Header → Header} {h : Header} {prev next stop : Nat}
    (hload : Header.load m b.address = h) (hf : (f h).stamped = (b.linked prev next stop).header) :
    (reseal b.address f : Operation Memory ε Unit).outcome m =
      (.ok (), (b.linked prev next stop).put m) := by
  rw [reseal, Operation.outcome_modify, hload, hf, put_linked]

end Block

namespace Chain

variable {start stop : Nat} {m : Memory} {b c : Block} {bs front back : List Block}

/-! ## Headers of a row fit -/

theorem Row.last_le (h : Row start stop bs) : last 0 bs ≤ stop := by
  rcases last_mem 0 bs with hlast | ⟨b, hb, hlast⟩
  · rw [hlast]
    exact Nat.zero_le stop
  · have hin := h.inside b hb
    have hlt := b.address_add_size_le_tail
    omega

theorem Row.first_zero_le (h : Row start stop bs) : first 0 bs ≤ stop := by
  cases bs with
  | nil => exact Nat.zero_le stop
  | cons b rest => exact h.first_le

theorem Row.inRange (h : Row start stop bs) (hstop : stop < Word.bound)
    (hb : b ∈ thread 0 stop 0 bs) : b.header.InRange := by
  obtain ⟨front, c, back, rfl, rfl⟩ := exists_of_mem_thread hb
  have hfront := (h.sublist (List.sublist_append_left front (c :: back))).last_le
  have hrow := h.sublist (List.sublist_append_right front (c :: back))
  have hback := hrow.tail.first_zero_le
  have hend := hrow.tail.first_le
  exact Block.inRange_linked (by omega) (by omega) (by omega) hrow.tail_le_first

/-! ## The link back from behind a splice -/

/-- Writes the first header of a row with another predecessor. -/
def relinkFirst (stop prev : Nat) : List Block → Memory → Memory
  | [], m => m
  | b :: rest, m => (b.linked prev (first 0 rest) (first stop rest)).put m

theorem load_relinkFirst {prev a : Nat} (h : ∀ b ∈ bs, a + Header.size ≤ b.address) :
    Header.load (relinkFirst stop prev bs m) a = Header.load m a := by
  cases bs with
  | nil => rfl
  | cons b rest =>
      refine Block.load_put_of_apart (.inl ?_)
      rw [Block.address_linked]
      exact h b List.mem_cons_self

theorem get_relinkFirst {prev a : Nat} (h : ¬ InHeader bs a) :
    (relinkFirst stop prev bs m).get a = m.get a := by
  cases bs with
  | nil => rfl
  | cons b rest =>
      refine Block.get_put ?_
      rw [Block.address_linked, Block.payload_linked]
      exact fun hin => h ⟨b, List.mem_cons_self, hin⟩

/-- What is written behind or in front of a row does not change it. -/
theorem Carries.put {next prev : Nat} (h : Carries m (thread next stop prev bs))
    (hap : ∀ c ∈ bs, c.tail ≤ b.address ∨ b.tail ≤ c.address) :
    Carries (b.put m) (thread next stop prev bs) := by
  refine h.of_load_eq fun c hc => Block.load_put_of_apart ?_
  have hlt := b.address_add_size_le_tail
  have hlt' := c.address_add_size_le_tail
  rcases hap c hc with hle | hle
  · exact .inl (by omega)
  · exact .inr (by omega)

theorem Carries.clear {next prev lo hi : Nat} (h : Carries m (thread next stop prev bs))
    (hap : ∀ b ∈ bs, b.tail ≤ lo ∨ hi ≤ b.address) :
    Carries (m.clear lo hi) (thread next stop prev bs) := by
  refine h.of_load_eq fun b hb => Header.load_clear_of_apart m ?_
  have hlt := b.address_add_size_le_tail
  rcases hap b hb with hle | hle
  · exact .inl (by omega)
  · exact .inr hle

theorem Carries.relinkFirst {next prev prev' : Nat} (h : Carries m (thread next stop prev bs))
    (hap : ∀ b ∈ bs, ∀ c ∈ back, b.tail ≤ c.address) {stop' : Nat} :
    Carries (relinkFirst stop' prev' back m) (thread next stop prev bs) := by
  refine h.of_load_eq fun b hb => load_relinkFirst ?_
  intro c hc
  have hlt := b.address_add_size_le_tail
  have hle := hap b hb c hc
  omega

theorem carries_relinkFirst {prev prev' : Nat} (hrow : Row start stop bs)
    (hfits : ∀ b ∈ thread 0 stop prev' bs, b.header.InRange)
    (h : Carries m (thread 0 stop prev bs)) :
    Carries (Chain.relinkFirst stop prev' bs m) (thread 0 stop prev' bs) := by
  cases bs with
  | nil => exact h
  | cons b rest =>
      rw [Carries.thread_cons_iff] at h ⊢
      refine ⟨Block.load_put_linked (hfits _ List.mem_cons_self), h.2.put fun c hc => .inr ?_⟩
      rw [Block.tail_linked]
      exact hrow.tail_le c hc

/-! ## Putting a block in -/

/-- The memory with `c` behind `b`, in front of the row `back`. -/
def insertBehind (stop : Nat) (front : List Block) (b c : Block) (back : List Block)
    (m : Memory) : Memory :=
  relinkFirst stop c.address back
    ((b.linked (last 0 front) c.address c.address).put
      ((c.linked b.address (first 0 back) (first stop back)).put m))

theorem carries_insertBehind (hrow : Row start stop (front ++ b :: c :: back))
    (hstop : stop < Word.bound) (h : Carries m (thread 0 stop 0 (front ++ b :: back))) :
    Carries (insertBehind stop front b c back m)
      (thread 0 stop 0 (front ++ b :: c :: back)) := by
  have hfits := fun x => hrow.inRange hstop (b := x)
  have hfront := hrow.tail_le_of_append
  have hrow' := hrow.sublist (List.sublist_append_right front _)
  have hb := hrow'.tail_le
  have hc := hrow'.tail.tail_le
  simp only [List.forall_mem_cons] at hfront hb
  simp only [thread_append, thread_cons, first_cons, List.forall_mem_append,
    List.forall_mem_cons] at hfits
  simp only [thread_append, Carries.append_iff, Carries.thread_cons_iff, first_cons] at h ⊢
  obtain ⟨holdfront, -, holdback⟩ := h
  obtain ⟨-, hfitsb, hfitsc, hfitsback⟩ := hfits
  refine ⟨?_, ?_, ?_, ?_⟩
  · refine ((holdfront.put fun d hd => .inl ?_).put fun d hd => .inl ?_).relinkFirst
      fun d hd => (hfront d hd).2.2
    · rw [Block.address_linked]
      exact (hfront d hd).2.1
    · rw [Block.address_linked]
      exact (hfront d hd).1
  · rw [insertBehind, load_relinkFirst fun d hd => ?_]
    · exact Block.load_put_linked hfitsb
    · exact Nat.le_trans b.address_add_size_le_tail (hb.2 d hd)
  · rw [insertBehind, load_relinkFirst fun d hd => ?_,
      Block.load_put_of_apart (.inr ?_)]
    · exact Block.load_put_linked hfitsc
    · rw [Block.address_linked]
      exact Nat.le_trans b.address_add_size_le_tail hb.1
    · exact Nat.le_trans c.address_add_size_le_tail (hc d hd)
  · refine carries_relinkFirst hrow'.tail.tail hfitsback
      ((holdback.put fun d hd => .inr ?_).put fun d hd => .inr ?_)
    · rw [Block.tail_linked]
      exact hc d hd
    · rw [Block.tail_linked]
      exact hb.2 d hd

theorem get_insertBehind {a : Nat} (h : ¬ InHeader (front ++ b :: c :: back) a) :
    (insertBehind stop front b c back m).get a = m.get a := by
  rw [insertBehind, get_relinkFirst, Block.get_put, Block.get_put]
  · rw [Block.address_linked, Block.payload_linked]
    exact fun hin => h ⟨c, by simp, hin⟩
  · rw [Block.address_linked, Block.payload_linked]
    exact fun hin => h ⟨b, by simp, hin⟩
  · rintro ⟨d, hd, hin⟩
    exact h ⟨d, by simp [hd], hin⟩

/-! ## Taking a block out -/

/-- The memory with no block between `b` and the row `back`, and with the room between
them clear. -/
def removeBehind (stop : Nat) (front : List Block) (b : Block) (back : List Block)
    (m : Memory) : Memory :=
  relinkFirst stop b.address back
    ((b.linked (last 0 front) (first 0 back) (first stop back)).put
      (m.clear b.tail (first stop back)))

theorem carries_removeBehind (hrow : Row start stop (front ++ b :: c :: back))
    (hstop : stop < Word.bound) (h : Carries m (thread 0 stop 0 (front ++ b :: c :: back))) :
    Carries (removeBehind stop front b back m) (thread 0 stop 0 (front ++ b :: back)) := by
  have hrow' : Row start stop (front ++ b :: back) := hrow.sublist
    ((((List.sublist_cons_self c back).cons_cons b)).append_left front)
  have hfits := fun x => hrow'.inRange hstop (b := x)
  have hfront := hrow'.tail_le_of_append
  have hb := (hrow'.sublist (List.sublist_append_right front _)).tail_le
  have hback := (hrow'.sublist (List.sublist_append_right front _)).tail
  simp only [List.forall_mem_cons] at hfront
  simp only [thread_append, thread_cons, first_cons, List.forall_mem_append,
    List.forall_mem_cons] at hfits
  simp only [thread_append, Carries.append_iff, Carries.thread_cons_iff, first_cons] at h ⊢
  obtain ⟨holdfront, -, -, holdback⟩ := h
  obtain ⟨-, hfitsb, hfitsback⟩ := hfits
  refine ⟨?_, ?_, ?_⟩
  · refine ((holdfront.clear fun d hd => .inl ?_).put fun d hd => .inl ?_).relinkFirst
      fun d hd => (hfront d hd).2
    · exact Nat.le_trans (hfront d hd).1
        (Nat.le_trans (Nat.le_add_right _ _) b.address_add_size_le_tail)
    · rw [Block.address_linked]
      exact (hfront d hd).1
  · rw [removeBehind, load_relinkFirst fun d hd => ?_]
    · exact Block.load_put_linked hfitsb
    · exact Nat.le_trans b.address_add_size_le_tail (hb d hd)
  · refine carries_relinkFirst hback hfitsback
      ((holdback.clear fun d hd => .inr ?_).put fun d hd => .inr ?_)
    · exact hback.first_le_address hd stop
    · rw [Block.tail_linked]
      exact hb d hd

/-- Besides headers of the new row, only the room behind `b` is written. -/
theorem get_removeBehind {a : Nat} (h : ¬ InHeader (front ++ b :: back) a) :
    (removeBehind stop front b back m).get a = (m.clear b.tail (first stop back)).get a := by
  rw [removeBehind, get_relinkFirst, Block.get_put]
  · rw [Block.address_linked, Block.payload_linked]
    exact fun hin => h ⟨b, by simp, hin⟩
  · rintro ⟨d, hd, hin⟩
    exact h ⟨d, by simp [hd], hin⟩

end Chain

end KernelMemory
