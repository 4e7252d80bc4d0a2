import KernelMemory.Proofs.Pool.Splice

/-!
# Guarding a header

Suppose the bytes of one header are no longer what a pool has written there. An operation of
the pool then either stops with a fault that names the header, or it never comes near it: it
ends as it would have ended, changes the rest of memory as it would have, and leaves the
foreign bytes alone. `Guards` is this alternative, for one operation and one state of memory.

It is followed along the text of an operation. As long as the header has not been read, the
run goes as it would on the memory without the damage, so for each line what is known of that
run may be used: which block a search answers, where a header is written, what is cleared.
The line that reads the header is a check of its checksum, and there the run is over.
-/

namespace KernelMemory

open Chain

/-- The fault of a check that finds the header at `a` damaged. -/
inductive Fault.Blames (a : Nat) : Fault → Prop
  | block : Blames a (.damagedBlock a)
  | pool (kind : ArenaKind) (stored computed : Nat) :
      Blames a (.damagedPool kind (.checksumMismatch a stored computed))

namespace Header

/-- The memories hold the same bytes, but for those of a header at `a`. -/
def SameBut (a : Nat) (m m' : Memory) : Prop :=
  ∀ x, ¬ (a ≤ x ∧ x < a + size) → m'.get x = m.get x

/-- Headers at the two addresses have no byte in common. -/
def Apart (a b : Nat) : Prop :=
  a + size ≤ b ∨ b + size ≤ a

variable {a b : Nat} {m m' : Memory}

theorem SameBut.refl (a : Nat) (m : Memory) : SameBut a m m := fun _ _ => rfl

theorem SameBut.load_eq (h : SameBut a m m') (hap : Apart a b) : load m' b = load m b := by
  unfold Apart at hap
  exact load_eq_of_get_eq fun x hlo hhi => h x (by omega)

theorem SameBut.clear (h : SameBut a m m') (lo hi : Nat) :
    SameBut a (m.clear lo hi) (m'.clear lo hi) := by
  intro x hx
  rw [Memory.get_clear, Memory.get_clear, h x hx]

theorem SameBut.store (h : SameBut a m m') (header : Header) (b : Nat) :
    SameBut a (header.store b m) (header.store b m') := by
  intro x hx
  rw [Header.store, Header.store, Memory.get_write, Memory.get_write, h x hx]

end Header

open Header

section Guards

variable {ε α β : Type} {a : Nat} {m m₁ : Memory} {op : Operation Memory ε α}
  {next : α → Operation Memory ε β} {Q : α → Memory → Prop} {R : β → Memory → Prop}

/-! ## Alarms -/

/-- The operation faults wherever the header at `a` is damaged. -/
def Alarms (a : Nat) (m : Memory) (op : Operation Memory ε α) : Prop :=
  ∀ m', SameBut a m m' → (load m' a).isIntact = false →
    ∃ f, (op.outcome m').1 = .fault f ∧ f.Blames a

theorem Alarms.bind (h : Alarms a m op) (next : α → Operation Memory ε β) :
    Alarms a m (op >>= next) := by
  intro m' hsame hdamaged
  obtain ⟨f, hf, hblames⟩ := h m' hsame hdamaged
  refine ⟨f, ?_, hblames⟩
  rw [Operation.outcome_bind]
  rcases hout : op.outcome m' with ⟨verdict, m''⟩
  rw [hout] at hf
  obtain rfl : verdict = .fault f := hf
  rfl

/-! ## Passing by -/

/-- Whatever is in the header at `a`, the operation ends with the same verdict, makes the same
of the rest of memory, and leaves the header as it is. -/
def Ignores (a : Nat) (m : Memory) (op : Operation Memory ε α) : Prop :=
  ∀ m', SameBut a m m' →
    (op.outcome m').1 = (op.outcome m).1 ∧ SameBut a (op.outcome m).2 (op.outcome m').2 ∧
      ∀ x, a ≤ x → x < a + size → (op.outcome m').2.get x = m'.get x

namespace Ignores

/-- The header plays no part in how the operation ends and in what it makes of memory. -/
theorem of_change (v : Verdict ε α) (g : Memory → Memory)
    (hout : ∀ m', SameBut a m m' → op.outcome m' = (v, g m'))
    (hsame : ∀ m', SameBut a m m' → SameBut a (g m) (g m'))
    (hkept : ∀ m' x, a ≤ x → x < a + size → (g m').get x = m'.get x) : Ignores a m op := by
  intro m' h
  rw [hout m' h, hout m (.refl a m)]
  exact ⟨rfl, hsame m' h, hkept m'⟩

/-- An operation that only looks, and always sees the same. -/
theorem of_outcome {v : Verdict ε α} (h : ∀ m', SameBut a m m' → op.outcome m' = (v, m')) :
    Ignores a m op :=
  of_change v id h (fun _ hsame => hsame) fun _ _ _ _ => rfl

theorem pure (v : α) : Ignores a m (Pure.pure v : Operation Memory ε α) :=
  of_outcome fun _ _ => rfl

theorem refuse (e : ε) : Ignores a m (Operation.refuse e : Operation Memory ε α) :=
  of_outcome fun _ _ => rfl

theorem stop (f : Fault) : Ignores a m (Operation.stop f : Operation Memory ε α) :=
  of_outcome fun _ _ => rfl

theorem note (level : Level) (text : String) :
    Ignores a m (Operation.note level text : Operation Memory ε Unit) :=
  of_outcome fun _ _ => rfl

theorem sum (n : Nat) : Ignores a m (Operation.sum n : Operation Memory ε Nat) := by
  unfold Operation.sum
  split
  · exact pure n
  · exact stop _

theorem difference (n k : Nat) :
    Ignores a m (Operation.difference n k : Operation Memory ε Nat) := by
  unfold Operation.difference
  split
  · exact pure _
  · exact stop _

theorem ofExcept (answer : Except ε α) :
    Ignores a m (Operation.ofExcept answer : Operation Memory ε α) := by
  cases answer with
  | error e => exact refuse e
  | ok v => exact pure v

theorem clear {lo hi : Nat} (hap : a + size ≤ lo ∨ hi ≤ a) :
    Ignores a m (Operation.modify fun m => m.clear lo hi : Operation Memory ε Unit) :=
  of_change (.ok ()) (·.clear lo hi) (fun _ _ => rfl) (fun _ h => h.clear lo hi)
    fun m' _ _ _ => m'.get_clear_of_not_mem (by omega)

theorem store (h : Header) {b : Nat} (hap : Apart a b) :
    Ignores a m (Operation.modify (h.store b) : Operation Memory ε Unit) := by
  unfold Apart at hap
  exact of_change (.ok ()) (h.store b) (fun _ _ => rfl) (fun _ hsame => hsame.store h b)
    fun m' _ _ _ => h.get_store_of_not_mem m' (by omega)

theorem reseal {b : Nat} (hap : Apart a b) (f : Header → Header) :
    Ignores a m (Block.reseal b f : Operation Memory ε Unit) := by
  refine of_change (.ok ()) ((f (load m b)).stamped.store b) (fun m' hsame => ?_)
    (fun _ hsame => hsame.store _ b) fun m' _ _ _ => ?_
  · rw [Block.reseal, Operation.outcome_modify, hsame.load_eq hap]
  · unfold Apart at hap
    exact Header.get_store_of_not_mem _ m' (by omega)

/-- Where a run goes that starts with something else in the header. -/
theorem exists_outcome (h : Ignores a m op) {v : Verdict ε α} (hout : op.outcome m = (v, m₁))
    {m' : Memory} (hsame : SameBut a m m') :
    ∃ m₁', op.outcome m' = (v, m₁') ∧ SameBut a m₁ m₁' ∧
      ∀ x, a ≤ x → x < a + size → m₁'.get x = m'.get x := by
  obtain ⟨hverdict, hrest, hkept⟩ := h m' hsame
  rw [hout] at hverdict hrest
  rcases hout' : op.outcome m' with ⟨v', m₁'⟩
  rw [hout'] at hverdict hrest hkept
  obtain rfl : v' = v := hverdict
  exact ⟨m₁', rfl, hrest, hkept⟩

theorem bind (h : Ignores a m op)
    (hnext : ∀ v m₁, op.outcome m = (.ok v, m₁) → Ignores a m₁ (next v)) :
    Ignores a m (op >>= next) := by
  intro m' hsame
  rcases hout : op.outcome m with ⟨verdict, m₁⟩
  obtain ⟨m₁', hout', hrest, hkept⟩ := h.exists_outcome hout hsame
  cases verdict with
  | ok v =>
      obtain ⟨hverdict, hrest', hkept'⟩ := hnext v m₁ hout m₁' hrest
      rw [Operation.outcome_bind_ok hout, Operation.outcome_bind_ok hout']
      exact ⟨hverdict, hrest', fun x hlo hhi => (hkept' x hlo hhi).trans (hkept x hlo hhi)⟩
  | error e =>
      rw [Operation.outcome_bind_error hout, Operation.outcome_bind_error hout']
      exact ⟨rfl, hrest, hkept⟩
  | fault f =>
      rw [Operation.outcome_bind_fault hout, Operation.outcome_bind_fault hout']
      exact ⟨rfl, hrest, hkept⟩

/-- What has not come near the header leaves it to the rest of the block to raise the alarm. -/
theorem bind_alarms (h : Ignores a m op) {v : α} (hout : op.outcome m = (.ok v, m₁))
    (hnext : Alarms a m₁ (next v)) : Alarms a m (op >>= next) := by
  intro m' hsame hdamaged
  obtain ⟨m₁', hout', hrest, hkept⟩ := h.exists_outcome hout hsame
  rw [Operation.outcome_bind_ok hout']
  refine hnext m₁' hrest ?_
  rw [load_eq_of_get_eq hkept]
  exact hdamaged

end Ignores

/-! ## One or the other -/

/-- The operation faults if the header at `a` is damaged, or does not come near it. Of a run
that has not come near it, `Q` says what it has answered and left. -/
inductive Guards (a : Nat) (m : Memory) (op : Operation Memory ε α) (Q : α → Memory → Prop) :
    Prop
  | alarms (h : Alarms a m op)
  | ignores (h : Ignores a m op) (hpost : ∀ v m₁, op.outcome m = (.ok v, m₁) → Q v m₁)

namespace Guards

/-- A line that raises the alarm ends the block. Behind any other, memory is as it would be,
but for the header. -/
theorem bind (h : Guards a m op Q)
    (hnext : ∀ v m₁, op.outcome m = (.ok v, m₁) → Q v m₁ → Guards a m₁ (next v) R) :
    Guards a m (op >>= next) R := by
  cases h with
  | alarms h => exact .alarms (h.bind next)
  | ignores h hpost =>
      rcases hout : op.outcome m with ⟨verdict, m₁⟩
      cases verdict with
      | ok v =>
          cases hnext v m₁ hout (hpost v m₁ hout) with
          | alarms hnext => exact .alarms (h.bind_alarms hout hnext)
          | ignores hnext hpost' =>
              refine .ignores (h.bind fun v' m₁' hout' => ?_) fun w m₂ hw => ?_
              · obtain ⟨hv, rfl⟩ := Prod.mk.inj (hout.symm.trans hout')
                obtain rfl := Verdict.ok.inj hv
                exact hnext
              · rw [Operation.outcome_bind_ok hout] at hw
                exact hpost' w m₂ hw
      | error e =>
          refine .ignores (h.bind fun v m₁' hout' => ?_) fun w m₂ hw => ?_
          · cases hout.symm.trans hout'
          · rw [Operation.outcome_bind_error hout] at hw
            cases hw
      | fault f =>
          refine .ignores (h.bind fun v m₁' hout' => ?_) fun w m₂ hw => ?_
          · cases hout.symm.trans hout'
          · rw [Operation.outcome_bind_fault hout] at hw
            cases hw

/-- The rest of the block, in the one state it is reached in, decides about the block. -/
theorem bind_of_outcome (h : Guards a m op Q) {v : α} (hout : op.outcome m = (.ok v, m₁))
    {P : Prop} (hnext : Q v m₁ → Guards a m₁ (next v) R ∧ (P → Alarms a m₁ (next v))) :
    Guards a m (op >>= next) R ∧ (P → Alarms a m (op >>= next)) := by
  refine ⟨h.bind fun v' m₁' hout' hq => ?_, fun hP => ?_⟩
  · obtain ⟨hverdict, rfl⟩ := Prod.mk.inj (hout.symm.trans hout')
    obtain rfl := Verdict.ok.inj hverdict
    exact (hnext hq).1
  · cases h with
    | alarms h => exact h.bind next
    | ignores h hpost => exact h.bind_alarms hout ((hnext (hpost v m₁ hout)).2 hP)

theorem mono {Q' : α → Memory → Prop} (h : Guards a m op Q) (hQ : ∀ v m₁, Q v m₁ → Q' v m₁) :
    Guards a m op Q' := by
  cases h with
  | alarms h => exact .alarms h
  | ignores h hpost => exact .ignores h fun v m₁ hout => hQ v m₁ (hpost v m₁ hout)

theorem trivial_of_ignores (h : Ignores a m op) : Guards a m op fun _ _ => True :=
  .ignores h fun _ _ _ => trivial

theorem sum (n : Nat) : Guards a m (Operation.sum n : Operation Memory ε Nat) fun k _ => k = n := by
  refine .ignores (.sum n) fun k m₁ hk => ?_
  unfold Operation.sum at hk
  split at hk
  · exact (Verdict.ok.inj (Prod.mk.inj hk).1).symm
  · cases hk

end Guards

end Guards

/-! ## Reading headers -/

section Reading

variable {ε α : Type} {a start stop prev next : Nat} {m : Memory} {b c : Block} {bs : List Block}

theorem outcome_verified_of_damaged (hlie : Block.canLieAt a = true)
    (hdamaged : (load m a).isIntact = false) :
    (Block.verified a : Operation Memory ε Block).outcome m = (.fault (.damagedBlock a), m) := by
  rw [outcome_verified, if_pos hlie, hdamaged, if_neg Bool.false_ne_true]

/-- A header is only read by a check of its checksum. -/
theorem guards_verified (hlie : Block.canLieAt a = true) {x : Nat} (hx : x = a ∨ Apart a x) :
    Guards a m (Block.verified x : Operation Memory ε Block)
      fun c _ => c.address = x ∧ Apart a x := by
  rcases hx with rfl | hap
  · refine .alarms fun m' _ hdamaged => ⟨_, ?_, .block⟩
    rw [outcome_verified_of_damaged hlie hdamaged]
  · refine .ignores (.of_outcome (v := ((Block.verified x).outcome m).1) fun m' hsame => ?_)
      fun c m₁ hc => ⟨?_, hap⟩
    · rw [outcome_verified, outcome_verified, hsame.load_eq hap]
    · rw [outcome_verified] at hc
      have hverdict := (Prod.mk.inj hc).1
      split at hverdict
      · split at hverdict
        · obtain rfl := Verdict.ok.inj hverdict
          rfl
        · cases hverdict
      · cases hverdict

theorem apart_of_row {start stop : Nat} (hrow : Row start stop bs) (hb : b ∈ bs) (hc : c ∈ bs) :
    c = b ∨ Apart b.address c.address := by
  have hsize := b.address_add_size_le_tail
  have hsize' := c.address_add_size_le_tail
  unfold Apart
  exact (hrow.eq_or_apart hb hc).imp_right fun hle => by omega

/-- A search that is over at the first block it looks at. -/
theorem guards_find {link : Header → Nat} {q : Header → Bool}
    (hlie : Block.canLieAt b.address = true) (hb : b.address = a ∨ Apart a b.address)
    (hload : load m b.address = (b.linked prev next stop).header)
    (hq : q (b.linked prev next stop).header = true) :
    Guards a m (find link q b.address : Operation Memory ε (Option Block))
      fun found m₁ => found = some (b.linked prev next stop) ∧ m₁ = m ∧ Apart a b.address := by
  have hlongest : longest = longest - 1 + 1 := by decide
  rcases hb with rfl | hap
  · refine .alarms fun m' _ hdamaged => ⟨.damagedBlock b.address, ?_, .block⟩
    rw [find, hlongest, search, if_neg (ne_zero_of_canLieAt hlie),
      Operation.outcome_bind_fault (outcome_verified_of_damaged hlie hdamaged)]
  · have hout : ∀ m', SameBut a m m' →
        (find link q b.address : Operation Memory ε (Option Block)).outcome m' =
          (.ok (some (b.linked prev next stop)), m') := by
      intro m' hsame
      refine outcome_search_of_some hlie ((hsame.load_eq hap).trans hload) ?_ (by decide)
      rw [if_pos hq]
      rfl
    refine .ignores (.of_outcome hout) fun found m₁ hfound => ?_
    obtain ⟨hverdict, rfl⟩ := Prod.mk.inj ((hout m (.refl a m)).symm.trans hfound)
    exact ⟨(Verdict.ok.inj hverdict).symm, rfl, hap⟩

/-- The headers in front of the damaged one are what they were. -/
theorem carries_front {front back : List Block} {m' : Memory}
    (hrow : Row start stop (front ++ b :: back))
    (hcarries : Carries m (thread 0 stop 0 (front ++ b :: back)))
    (hsame : SameBut b.address m m') : Carries m' (thread b.address b.address 0 front) := by
  rw [thread_append, first_cons, first_cons, Carries.append_iff] at hcarries
  refine hcarries.1.of_load_eq fun c hc => hsame.load_eq ?_
  refine (apart_of_row hrow (by simp) (by simp [hc])).resolve_left fun heq => ?_
  exact hrow.address_ne c (by simp [hc]) (congrArg Block.address heq)

/-- A search along a row raises the alarm at the damaged header, unless it is over before. -/
theorem guards_search {steps : Nat} {answer : Block → Operation Memory ε (Option α)}
    {f : Block → Option α} (hrow : Row start stop bs) (hb : b ∈ bs)
    (hcarries : Carries m (thread 0 stop 0 bs))
    (hanswer : ∀ c ∈ thread 0 stop 0 bs, ∀ m, (answer c).outcome m = (.ok (f c), m))
    (hsteps : bs.length ≤ steps) :
    Guards b.address m (search Header.next answer steps (first 0 bs))
      fun found _ => ∀ x, found = some x →
        ∃ c ∈ thread 0 stop 0 bs, f c = some x ∧ c.address ≠ b.address := by
  obtain ⟨front, back, rfl⟩ := List.append_of_mem hb
  obtain ⟨steps, rfl⟩ : ∃ n, steps = front.length + (n + 1) :=
    ⟨steps - (front.length + 1), by simp at hsteps; omega⟩
  have hlie := hrow.canLie b (by simp)
  have hwalk : ∀ m', SameBut b.address m m' →
      (search Header.next answer (front.length + (steps + 1)) (first 0 (front ++ b :: back))
        ).outcome m' =
        ((thread b.address b.address 0 front).findSome? f).elim
          ((search Header.next answer (steps + 1) b.address).outcome m')
          fun found => (.ok (some found), m') := by
    intro m' hsame
    rw [first_append, first_cons, outcome_search_front hrow.front.canLie
      (carries_front hrow hcarries hsame) fun c hc => hanswer c (by
        rw [thread_append, first_cons, first_cons]
        exact List.mem_append_left _ hc) m']
    cases (thread b.address b.address 0 front).findSome? f <;> rfl
  cases hfound : (thread b.address b.address 0 front).findSome? f with
  | none =>
      refine .alarms fun m' hsame hdamaged => ⟨.damagedBlock b.address, ?_, .block⟩
      rw [hwalk m' hsame, hfound, Option.elim_none, search, if_neg (ne_zero_of_canLieAt hlie),
        Operation.outcome_bind_fault (outcome_verified_of_damaged hlie hdamaged)]
  | some found =>
      simp only [hfound, Option.elim_some] at hwalk
      refine .ignores (.of_outcome hwalk) fun found' m₁ hout x hx => ?_
      rw [hwalk m (.refl _ m)] at hout
      obtain rfl := Verdict.ok.inj (Prod.mk.inj hout).1
      obtain rfl := Option.some.inj hx
      obtain ⟨c, hc, hcx⟩ := List.exists_of_findSome?_eq_some hfound
      obtain ⟨front', d, back', hsplit, rfl⟩ := exists_of_mem_thread hc
      refine ⟨_, ?_, hcx, ?_⟩
      · rw [thread_append, first_cons, first_cons]
        exact List.mem_append_left _ hc
      · rw [Block.address_linked]
        exact hrow.address_ne d (by rw [hsplit]; simp)

end Reading

end KernelMemory
