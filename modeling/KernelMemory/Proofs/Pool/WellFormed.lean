import KernelMemory.Proofs.Pool.Ledger

/-!
# Well-formed arenas

The bytes of an arena may be anything: headers may have been overwritten, and sealed again
with a checksum that fits. What an audit accepts is said here without the audit, of the row
of addresses that the links visit from the start of the arena on. The audit asks at each
header only whether it is what the one before it led to expect. That is enough, since every
equation between two headers of the row is between neighbours.

Sums are taken without a bound. No well-formed block ends behind its arena, so none of the
sums that an audit takes on the way leaves the range of addresses.
-/

namespace KernelMemory

namespace Pool

open Chain

variable {p : Pool} {m : Memory} {prev address expected a : Nat} {as : List Nat}

/-- Where the block ends whose header lies at an address. -/
def stopAt (m : Memory) (a : Nat) : Nat :=
  (⟨a, Header.load m a⟩ : Block).stop

/-- The links visit the headers at `as`, from the one at `address` on, and these headers make
up the rest of a well-formed arena behind a block at `prev` that ends at `expected`. -/
structure Visits (p : Pool) (m : Memory) (prev address expected : Nat) (as : List Nat) :
    Prop where
  increasing : as.Pairwise (· < ·)
  inside : ∀ a ∈ as, p.start ≤ a ∧ a + Header.size ≤ p.stop
  intact : ∀ a ∈ as, (Header.load m a).isIntact = true
  /-- Each header is linked to the next one, and the last to none. -/
  next_eq : address :: as.map (fun a => (Header.load m a).next) = as ++ [0]
  /-- Each header is linked back to the one before it. -/
  prev_eq : as.map (fun a => (Header.load m a).prev) = (prev :: as).dropLast
  /-- Each block ends where the next one starts, and the last with the arena. -/
  stop_eq : expected :: as.map (stopAt m) = as ++ [p.stop]

/-- The links from the start of the arena visit the headers at `as`, and these are
well-formed: in front of the first there is none, and it lies at the start. -/
def WellFormed (p : Pool) (m : Memory) (as : List Nat) : Prop :=
  p.Visits m 0 p.start p.start as

namespace Visits

theorem address_eq (h : p.Visits m prev address expected (a :: as)) : address = a :=
  (List.cons.inj h.next_eq).1

theorem expected_eq (h : p.Visits m prev address expected (a :: as)) : expected = a :=
  (List.cons.inj h.stop_eq).1

theorem prev_head_eq (h : p.Visits m prev address expected (a :: as)) :
    (Header.load m a).prev = prev :=
  (List.cons.inj h.prev_eq).1

theorem tail (h : p.Visits m prev address expected (a :: as)) :
    p.Visits m a (Header.load m a).next (stopAt m a) as where
  increasing := h.increasing.tail
  inside b hb := h.inside b (List.mem_cons_of_mem a hb)
  intact b hb := h.intact b (List.mem_cons_of_mem a hb)
  next_eq := (List.cons.inj h.next_eq).2
  prev_eq := (List.cons.inj h.prev_eq).2
  stop_eq := (List.cons.inj h.stop_eq).2

/-- No address of the row lies in front of where the first block is expected. -/
theorem expected_le (h : p.Visits m prev address expected as) : ∀ a ∈ as, expected ≤ a := by
  cases as with
  | nil => exact fun _ hmem => nomatch hmem
  | cons a as =>
      rw [h.expected_eq]
      intro b hb
      rcases List.mem_cons.mp hb with rfl | hb
      · exact Nat.le_refl _
      · exact Nat.le_of_lt (List.rel_of_pairwise_cons h.increasing hb)

theorem expected_le_stop (h : p.Visits m prev address expected as) : expected ≤ p.stop := by
  cases as with
  | nil => exact Nat.le_of_eq (List.cons.inj h.stop_eq).1
  | cons a as =>
      rw [h.expected_eq]
      exact Nat.le_of_add_right_le (h.inside a List.mem_cons_self).2

theorem cons (hinside : p.start ≤ a ∧ a + Header.size ≤ p.stop)
    (hintact : (Header.load m a).isIntact = true) (hback : (Header.load m a).prev = prev)
    (h : p.Visits m a (Header.load m a).next (stopAt m a) as) :
    p.Visits m prev a a (a :: as) where
  increasing := by
    refine List.pairwise_cons.mpr ⟨fun b hb => ?_, h.increasing⟩
    have hle := h.expected_le b hb
    have hsize : Header.size = 48 := rfl
    simp only [stopAt, Block.stop, Block.tail, Block.payload] at hle
    omega
  inside := List.forall_mem_cons.mpr ⟨hinside, h.inside⟩
  intact := List.forall_mem_cons.mpr ⟨hintact, h.intact⟩
  next_eq := congrArg (a :: ·) h.next_eq
  prev_eq := by rw [List.map_cons, hback, h.prev_eq, List.dropLast_cons_cons]
  stop_eq := congrArg (a :: ·) h.stop_eq

/-- An audit that gives an answer accepts what is well-formed. Headers that lie where no
header can are the reason why it may not give one. -/
theorem auditFrom_eq_ok (h : p.Visits m prev address expected as) (hstart : p.start ≠ 0)
    (hstop : p.stop < Word.bound)
    (hvalue : ∀ f, p.auditFrom m prev address expected ≠ .fault f) :
    p.auditFrom m prev address expected = .ok () := by
  induction as generalizing prev address expected with
  | nil =>
      obtain rfl := (List.cons.inj h.next_eq).1
      obtain rfl := (List.cons.inj h.stop_eq).1
      exact auditFrom_eq_ok_of_chained hstop (.done prev)
  | cons a as ih =>
      obtain ⟨hlo, hhi⟩ := h.inside a List.mem_cons_self
      obtain rfl := h.address_eq
      obtain rfl := h.expected_eq
      cases hlies : Block.canLieAt expected with
      | false =>
          refine absurd ?_ (hvalue (.unreadableHeader expected))
          rw [auditFrom, if_neg (by omega), if_neg (Nat.not_lt_of_le hlo), if_neg (by omega),
            if_neg (Nat.not_lt_of_le hhi), if_pos (by rw [hlies]; rfl)]
      | true =>
          have hlink : p.auditFrom m prev expected expected =
              p.auditFrom m expected (Header.load m expected).next (stopAt m expected) :=
            auditFrom_link hstop (b := ⟨expected, Header.load m expected⟩) rfl hlies hlo hhi
              (h.intact _ List.mem_cons_self) h.prev_head_eq h.tail.expected_le_stop
          rw [hlink] at hvalue ⊢
          exact ih h.tail hvalue

end Visits

theorem Chained.exists_visits (h : p.Chained m prev address expected) :
    ∃ as, p.Visits m prev address expected as := by
  induction h with
  | done prev => exact ⟨[], .nil, by simp, by simp, rfl, rfl, rfl⟩
  | @link prev b loaded lies inside room intact back fits _ ih =>
      obtain ⟨as, has⟩ := ih
      obtain ⟨a, h⟩ := b
      obtain rfl : Header.load m a = h := loaded
      exact ⟨a :: as, .cons ⟨inside, room⟩ intact back has⟩

/-- Whatever the memory holds, if an audit gives an answer, it accepts exactly the arenas that
are well-formed. -/
theorem audit_decides_wellFormed {arena : Arena} {policy : Policy} {m₀ : Memory}
    (hp : ((create arena policy).run m₀).verdict = .ok p) {m : Memory}
    (hvalue : ∀ f, p.audit m ≠ .fault f) :
    p.audit m = .ok () ↔ ∃ as, p.WellFormed m as := by
  obtain ⟨rfl, hcreate⟩ := create_of_ok hp
  have hholds := (hcreate policy m₀).2
  have hstart := ne_zero_of_canLieAt (hholds.row.canLie _ List.mem_cons_self)
  constructor
  · intro hok
    exact ((audit_eq_ok_iff hholds.stop_lt).mp hok).exists_visits
  · rintro ⟨as, has⟩
    exact has.auditFrom_eq_ok hstart hholds.stop_lt hvalue

/-- Two headers are written over an arena and sealed. The first with another link, sealed
again, leaves out the second. -/
theorem audit_decides_wellFormed_forged :
    let arena : Arena := ⟨.nonPaged, 0x10000, 0x100⟩
    let p : Pool := ⟨.touched, trimmed arena⟩
    let low : Header := ⟨⟨7⟩, 0, .ofHead, 0, 0x10070, 0x11, 0x2f, 0⟩
    let high : Header := ⟨⟨9⟩, 0, .ofHead, 0x10000, 0, 0, 0x20, 0x40⟩
    let m := high.stamped.store 0x10070 (low.stamped.store 0x10000 .zeroed)
    let m' := ({ low with next := 0 } : Header).stamped.store 0x10000 m
    (∃ as, p.WellFormed m as) ∧ ¬ ∃ as, p.WellFormed m' as := by
  intro arena p low high m m'
  have hp : ((create arena .touched).run .zeroed).verdict = .ok p := by decide
  have hok : p.audit m = .ok () := by decide +kernel
  have herror : p.audit m' = .error (.conservation 0x100 0x70) := by decide +kernel
  refine ⟨(audit_decides_wellFormed hp fun f hf => ?_).mp hok, fun has => ?_⟩
  · cases hok.symm.trans hf
  · have hok' := (audit_decides_wellFormed hp fun f hf => nomatch herror.symm.trans hf).mpr has
    cases herror.symm.trans hok'

end Pool

end KernelMemory
