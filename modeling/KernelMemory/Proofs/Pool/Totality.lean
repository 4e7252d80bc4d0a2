import KernelMemory.Proofs.Pool.Ledger

/-!
# Where an audit can end

An audit is made for arenas that have been damaged, so it has to end whatever the memory
holds. It does: every header that it passes lies at least a header's size behind the one
before, no matter where the links lead. It reads nothing outside of the arena either, since
a link is compared with the bounds before it is followed.

It does not always give an answer. Three things end it with a fault. A link may lead so high
that the header there would wrap, which the comparison with the end of the arena runs into.
A link may lead to a place inside where no header can lie. And a header that is what its
position asks for may give sizes whose sum wraps, which is not known before it is added up.
There are no other ways to derail an audit.
-/

namespace KernelMemory

namespace Pool

open Chain

variable {p : Pool} {m m' : Memory} {count prev address expected : Nat} {b : Block} {f : Fault}

/-! ## The way of an audit -/

/-- A header that can be read, is intact and linked back to the one at `prev`. What its sizes
add up to is left open. -/
structure Readable (p : Pool) (m : Memory) (prev : Nat) (b : Block) : Prop where
  loaded : Header.load m b.address = b.header
  lies : Block.canLieAt b.address = true
  inside : p.start ≤ b.address
  room : b.address + Header.size ≤ p.stop
  intact : b.header.isIntact = true
  back : b.header.prev = prev

/-- What the checks of an audit leave, as far as they go before the sizes are added up. -/
theorem Readable.of_checks (hinside : ¬ address < p.start)
    (hroom : ¬ p.stop < address + Header.size) (hlies : ¬ (!Block.canLieAt address) = true)
    (hintact : ¬ (!(Header.load m address).isIntact) = true)
    (hback : ¬ (Header.load m address).prev ≠ prev) :
    p.Readable m prev ⟨address, Header.load m address⟩ where
  loaded := rfl
  lies := by simpa using hlies
  inside := Nat.le_of_not_lt hinside
  room := Nat.le_of_not_lt hroom
  intact := by simpa using hintact
  back := Decidable.not_not.mp hback

/-- An audit has passed `count` headers, the last at `prev`, and comes to `address` next. -/
inductive Arrives (p : Pool) (m : Memory) : (count prev address expected : Nat) → Prop
  | start : Arrives p m 0 0 p.start p.start
  | pass {count prev : Nat} {b : Block} (h : Arrives p m count prev b.address b.address)
      (readable : p.Readable m prev b) (fits : b.stop ≤ p.stop) :
      Arrives p m (count + 1) b.address b.header.next b.stop

/-- What ends an audit with a fault. -/
inductive Derails (p : Pool) (m : Memory) (prev : Nat) :
    (address expected : Nat) → Fault → Prop
  | link {address expected : Nat} (inside : p.start ≤ address)
      (wraps : Word.bound ≤ address + Header.size) : Derails p m prev address expected .addOverflow
  | misaligned {address expected : Nat} (inside : p.start ≤ address)
      (room : address + Header.size ≤ p.stop) (lies : Block.canLieAt address = false) :
      Derails p m prev address expected (.unreadableHeader address)
  | sizes {b : Block} (readable : p.Readable m prev b) (wraps : Word.bound ≤ b.stop) :
      Derails p m prev b.address b.address .addOverflow

/-- Each header that was passed takes its size at least, and all of them are in the arena. -/
theorem Arrives.bounds (h : p.Arrives m count prev address expected) :
    p.start + count * Header.size ≤ expected ∧ expected ≤ p.stop := by
  induction h with
  | start => exact ⟨by omega, Nat.le_add_right _ _⟩
  | @pass count prev b _ _ fits ih =>
      have hpayload : b.address + Header.size ≤ b.stop :=
        Nat.le_trans b.address_add_size_le_tail b.tail_le_stop
      rw [Nat.add_mul, Nat.one_mul]
      exact ⟨by omega, fits⟩

theorem Arrives.audit_eq (hstop : p.stop < Word.bound)
    (h : p.Arrives m count prev address expected) :
    p.audit m = p.auditFrom m prev address expected := by
  induction h with
  | start => rfl
  | pass _ readable fits ih =>
      rw [ih, auditFrom_link hstop readable.loaded readable.lies readable.inside readable.room
        readable.intact readable.back fits]

theorem Derails.auditFrom_eq (hstart : p.start ≠ 0) (hstop : p.stop < Word.bound)
    (h : p.Derails m prev address expected f) :
    p.auditFrom m prev address expected = .fault f := by
  cases h with
  | link inside wraps =>
      rw [auditFrom, if_neg (by omega), if_neg (Nat.not_lt_of_le inside), if_pos wraps]
  | misaligned inside room lies =>
      rw [auditFrom, if_neg (by omega), if_neg (Nat.not_lt_of_le inside), if_neg (by omega),
        if_neg (Nat.not_lt_of_le room), if_pos (by rw [lies]; rfl)]
  | @sizes b readable wraps =>
      rw [auditFrom, if_neg (ne_zero_of_canLieAt readable.lies),
        if_neg (Nat.not_lt_of_le readable.inside),
        if_neg (by have := readable.room; omega), if_neg (Nat.not_lt_of_le readable.room),
        if_neg (by rw [readable.lies]; decide)]
      simp only [readable.loaded, readable.intact, readable.back]
      rw [if_neg (by decide), if_neg (by simp), if_neg (by simp), if_pos wraps]

/-- An audit that ends with a fault has come to what derails it: by induction along the
audit, case by case. -/
theorem exists_derails (h : p.Arrives m count prev address expected)
    (hfault : p.auditFrom m prev address expected = .fault f) :
    ∃ count prev address expected, p.Arrives m count prev address expected ∧
      p.Derails m prev address expected f := by
  fun_induction auditFrom p m prev address expected generalizing count
  case case4 _ hinside hwraps =>
    obtain rfl := Verdict.fault.inj hfault
    exact ⟨_, _, _, _, h, .link (Nat.le_of_not_lt hinside) hwraps⟩
  case case6 _ hinside _ hroom hlies =>
    obtain rfl := Verdict.fault.inj hfault
    exact ⟨_, _, _, _, h, .misaligned (Nat.le_of_not_lt hinside) (Nat.le_of_not_lt hroom)
      (by simpa using hlies)⟩
  case case10 prev address expected _ hinside _ hroom hlies b hintact hback hcontiguous hwraps =>
    obtain rfl := Verdict.fault.inj hfault
    obtain rfl := Decidable.not_not.mp hcontiguous
    exact ⟨_, _, _, _, h, .sizes (.of_checks hinside hroom hlies hintact hback) hwraps⟩
  case case12 prev address expected _ hinside _ hroom hlies b hintact hback hcontiguous _ hfits
      ih =>
    obtain rfl := Decidable.not_not.mp hcontiguous
    have readable : p.Readable m prev b := .of_checks hinside hroom hlies hintact hback
    exact ih (.pass h readable (Nat.le_of_not_lt hfits)) hfault
  -- an answer is no fault
  all_goals cases hfault

theorem audit_eq_fault_iff (hstart : p.start ≠ 0) (hstop : p.stop < Word.bound) :
    p.audit m = .fault f ↔ ∃ count prev address expected,
      p.Arrives m count prev address expected ∧ p.Derails m prev address expected f := by
  constructor
  · exact exists_derails .start
  · rintro ⟨_, _, _, _, harrives, hderails⟩
    rw [harrives.audit_eq hstop, hderails.auditFrom_eq hstart hstop]

/-! ## What it reads -/

/-- An audit depends on the bytes of the arena alone: by induction on what is left of it. -/
theorem auditFrom_congr (h : ∀ x, p.start ≤ x → x < p.stop → m'.get x = m.get x) :
    p.auditFrom m' prev address expected = p.auditFrom m prev address expected := by
  induction hleft : p.stop - expected using Nat.strong_induction_on
    generalizing prev address expected with
  | h left ih =>
      rw [auditFrom.eq_def p m', auditFrom.eq_def p m]
      refine ite_congr rfl (fun _ => rfl) fun _ => ite_congr rfl (fun _ => rfl) fun hinside =>
        ite_congr rfl (fun _ => rfl) fun _ => ite_congr rfl (fun _ => rfl) fun hroom =>
          ite_congr rfl (fun _ => rfl) fun _ => ?_
      -- only here the memories are read, and both hold the same header
      rw [Header.load_eq_of_get_eq fun x hx hx' => h x (by omega) (by omega)]
      refine ite_congr rfl (fun _ => rfl) fun _ => ite_congr rfl (fun _ => rfl) fun _ =>
        ite_congr rfl (fun _ => rfl) fun hcontiguous => ite_congr rfl (fun _ => rfl) fun _ =>
          ite_congr rfl (fun _ => rfl) fun hfits => ih _ ?_ rfl
      obtain rfl := Decidable.not_not.mp hcontiguous
      have hsize : Header.size = 48 := rfl
      simp only [Block.stop, Block.tail, Block.payload] at hfits ⊢
      omega

/-- An audit comes to an end within the headers that the arena has room for and depends on
nothing outside of the arena, whatever the memory holds. It gives an answer unless it comes to
a link or to sizes that wrap, or to a link that is misaligned. -/
theorem audit_answers_unless_derailed {arena : Arena} {policy : Policy} {m₀ : Memory}
    (hp : ((create arena policy).run m₀).verdict = .ok p) (m : Memory) :
    (∀ count prev address expected, p.Arrives m count prev address expected →
      count * Header.size ≤ p.arena.size) ∧
    (∀ m' : Memory, (∀ x, p.start ≤ x → x < p.stop → m'.get x = m.get x) →
      p.audit m' = p.audit m) ∧
    ∀ f, p.audit m = .fault f ↔ ∃ count prev address expected,
      p.Arrives m count prev address expected ∧ p.Derails m prev address expected f := by
  obtain ⟨rfl, hcreate⟩ := create_of_ok hp
  have hholds := (hcreate policy m₀).2
  have hstart := ne_zero_of_canLieAt (hholds.row.canLie _ List.mem_cons_self)
  refine ⟨fun count prev address expected h => ?_, fun m' h => auditFrom_congr h, fun f =>
    audit_eq_fault_iff hstart hholds.stop_lt⟩
  have hbounds := h.bounds
  rw [Pool.start, Pool.stop] at hbounds
  omega

/-- The links of two sealed headers lead round in a circle. -/
theorem audit_answers_unless_derailed_in_circle :
    let arena : Arena := ⟨.nonPaged, 0x10000, 0x100⟩
    let p : Pool := ⟨.touched, trimmed arena⟩
    let low : Header := ⟨⟨7⟩, 0, .ofHead, 0, 0x10070, 0x11, 0x2f, 0⟩
    let high : Header := ⟨⟨9⟩, 0, .ofHead, 0x10000, 0x10000, 0, 0x20, 0⟩
    let m := high.stamped.store 0x10070 (low.stamped.store 0x10000 .zeroed)
    p.audit m = .error (.brokenLink 0x10070) ∧
      (∀ count prev address expected, p.Arrives m count prev address expected → count ≤ 5) ∧
      ∀ f, ¬ ∃ count prev address expected, p.Arrives m count prev address expected ∧
        p.Derails m prev address expected f := by
  intro arena p low high m
  have hp : ((create arena .touched).run .zeroed).verdict = .ok p := by decide
  have herror : p.audit m = .error (.brokenLink 0x10070) := by decide +kernel
  obtain ⟨hbound, -, hfault⟩ := audit_answers_unless_derailed hp m
  refine ⟨herror, fun count prev address expected h => ?_, fun f hderails => ?_⟩
  · have hle := hbound count prev address expected h
    rw [show p.arena.size = 0x100 by decide, show Header.size = 48 from rfl] at hle
    omega
  · cases herror.symm.trans ((hfault f).mpr hderails)

/-- The sizes of a sealed header at the start of an arena wrap. The block leaves the arena, but
that is not what the audit answers. -/
theorem audit_derailed_by_sizes :
    let arena : Arena := ⟨.nonPaged, 0x10000, 0x100⟩
    let p : Pool := ⟨.touched, trimmed arena⟩
    let h : Header := ⟨.head, 0, .ofHead, 0, 0, 0, 0, 0xffffffffffffffc0⟩
    let m := h.stamped.store 0x10000 .zeroed
    ((create arena .touched).run .zeroed).verdict = .ok p ∧
      ¬ (p.audit m = .ok () ∨ ∃ violation, p.audit m = .error violation) := by
  intro arena p h m
  have hfault : p.audit m = .fault .addOverflow := by decide +kernel
  refine ⟨by decide, ?_⟩
  rw [hfault]
  rintro (hok | ⟨violation, herror⟩)
  · cases hok
  · cases herror

end Pool

end KernelMemory
