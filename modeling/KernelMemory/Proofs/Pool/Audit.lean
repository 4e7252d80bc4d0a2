import KernelMemory.Pool.Audit
import KernelMemory.Proofs.Pool.Thread

/-!
# What an audit of a pool accepts

An audit follows the links from the start of the arena and stops at the first header that
is not what its position asks for. So it accepts a pool exactly if every header on the way
is, and a threaded row that fills the arena is such a way.
-/

namespace KernelMemory

namespace Pool

open Chain

variable {p : Pool} {m : Memory} {prev address expected : Nat}

/-- From `address` on the headers in memory are a chain that fills the arena: each lies
inside, where the one before it ends, with its own checksum and linked back. -/
inductive Chained (p : Pool) (m : Memory) : (prev address expected : Nat) → Prop
  | done (prev : Nat) : Chained p m prev 0 p.stop
  | link {prev : Nat} {b : Block} (loaded : Header.load m b.address = b.header)
      (lies : Block.canLieAt b.address = true) (inside : p.start ≤ b.address)
      (room : b.address + Header.size ≤ p.stop) (intact : b.header.isIntact = true)
      (back : b.header.prev = prev) (fits : b.stop ≤ p.stop)
      (rest : Chained p m b.address b.header.next b.stop) : Chained p m prev b.address b.address

/-- A header that is what its position asks for is passed. -/
theorem auditFrom_link (hstop : p.stop < Word.bound) {b : Block}
    (loaded : Header.load m b.address = b.header) (lies : Block.canLieAt b.address = true)
    (inside : p.start ≤ b.address) (room : b.address + Header.size ≤ p.stop)
    (intact : b.header.isIntact = true) (back : b.header.prev = prev) (fits : b.stop ≤ p.stop) :
    p.auditFrom m prev b.address b.address =
      p.auditFrom m b.address b.header.next b.stop := by
  rw [auditFrom, if_neg (ne_zero_of_canLieAt lies), if_neg (by omega),
    if_neg (by omega), if_neg (by omega), if_neg (by rw [lies]; decide)]
  simp only [loaded, intact, back]
  rw [if_neg (by decide), if_neg (by simp), if_neg (by simp),
    if_neg (Nat.not_le_of_lt (Nat.lt_of_le_of_lt fits hstop)),
    if_neg (Nat.not_lt_of_le fits)]

theorem auditFrom_eq_ok_of_chained (hstop : p.stop < Word.bound)
    (h : p.Chained m prev address expected) : p.auditFrom m prev address expected = .ok () := by
  induction h with
  | done prev => rw [auditFrom, if_pos rfl, if_pos rfl]
  | link loaded lies inside room intact back fits _ ih =>
      rw [auditFrom_link hstop loaded lies inside room intact back fits]
      exact ih

theorem chained_of_auditFrom_eq_ok (h : p.auditFrom m prev address expected = .ok ()) :
    p.Chained m prev address expected := by
  fun_induction auditFrom p m prev address expected
  case case1 => exact .done _
  case case12 prev address expected _ hstart _ hroom hlies b hintact hback hcontiguous _ hfits
      ih =>
    obtain rfl := Decidable.not_not.mp hcontiguous
    exact .link (b := b) rfl (by simpa using hlies) (Nat.le_of_not_lt hstart)
      (Nat.le_of_not_lt hroom) (by simpa using hintact) (Decidable.not_not.mp hback)
      (Nat.le_of_not_lt hfits) (ih h)
  -- every other way out of an audit is a defect or a fault
  all_goals nomatch h

theorem audit_eq_ok_iff (hstop : p.stop < Word.bound) :
    p.audit m = .ok () ↔ p.Chained m 0 p.start p.start :=
  ⟨chained_of_auditFrom_eq_ok, auditFrom_eq_ok_of_chained hstop⟩

/-- An audit goes along a threaded row without finding anything. -/
theorem auditFrom_thread {next stop : Nat} {bs : List Block} (hstop : p.stop < Word.bound)
    (hrow : Row p.start stop bs) (hle : stop ≤ p.stop)
    (hcarries : Carries m (thread next stop prev bs)) :
    p.auditFrom m prev (first next bs) (first stop bs) = p.auditFrom m (last prev bs) next stop := by
  induction bs generalizing prev with
  | nil => rfl
  | cons b rest ih =>
      rw [Carries.thread_cons_iff] at hcarries
      have hin := hrow.inside b List.mem_cons_self
      have hlt := b.address_add_size_le_tail
      have hend : (b.linked prev (first next rest) (first stop rest)).stop = first stop rest :=
        Block.stop_linked hrow.tail_le_first
      have hfits := hrow.tail.first_le
      have hlink := auditFrom_link hstop (b := b.linked prev (first next rest) (first stop rest))
        (by rw [Block.address_linked]; exact hcarries.1)
        (by rw [Block.address_linked]; exact hrow.canLie b List.mem_cons_self)
        (by rw [Block.address_linked]; exact hin.1)
        (by rw [Block.address_linked]; omega) Block.isIntact_linked Block.prev_linked
        (by omega)
      rw [Block.address_linked, hend, Block.next_linked] at hlink
      exact hlink.trans (ih hrow.tail hcarries.2)

end Pool

end KernelMemory
