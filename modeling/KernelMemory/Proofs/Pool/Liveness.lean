import KernelMemory.Proofs.Pool.Ledger
import Mathlib.Data.List.Pairwise

/-!
# Live pointers

A pointer is live if an allocation has returned it and it has not been released since. That is a
matter of history, and a pool keeps none. What it has are the headers in its arena, among bytes
that clients write as they like, and it reaches them by a walk that stops at the first header far
enough along. Still it always knows what the history says. A walk goes from header to header and
never into a payload, so it makes no difference whether the bytes of a payload could pass for a
header.

Histories list what was called and how the call ended, the last call first.
-/

namespace KernelMemory

namespace Pool

open Chain

/-! ## Histories -/

/-- A call and how it ended. -/
structure Event where
  call : Call
  verdict : Verdict PoolError Nat

namespace Event

/-- An allocation of `n` bytes has returned `x`. -/
def Grants (e : Event) (x n : Nat) : Prop :=
  match e.call with
  | .allocate size _ _ | .allocateZeroed size _ _ => size = n ∧ e.verdict = .ok x
  | .free _ => False

/-- A release of `x` has succeeded. -/
def Releases (e : Event) (x : Nat) : Prop :=
  match e.call with
  | .allocate .. | .allocateZeroed .. => False
  | .free payload => payload = x ∧ ∃ n, e.verdict = .ok n

end Event

/-- An allocation of `n` bytes has returned `x`, and `x` has not been released since. -/
def Outstanding (past : List Event) (x n : Nat) : Prop :=
  ∃ later e earlier, past = later ++ e :: earlier ∧ e.Grants x n ∧ ∀ e' ∈ later, ¬ e'.Releases x

/-- The contents of memory that a run over an arena reaches, and what has been called on the way.
Between calls clients write to what is outstanding, and anything may happen outside the arena. -/
inductive Run (arena : Arena) (p : Pool) : Memory → List Event → Prop
  | create (policy : Policy) (m : Memory) (h : ((create arena policy).run m).verdict = .ok p) :
      Run arena p ((Pool.create arena policy).run m).state []
  | call {m : Memory} {past : List Event} (hm : Run arena p m past) (c : Call)
      {reply : Reply Memory PoolError Nat} (hreply : (c.perform p).run m = reply) :
      Run arena p reply.state (⟨c, reply.verdict⟩ :: past)
  | write {m m' : Memory} {past : List Event} (hm : Run arena p m past)
      (h : ∀ x, p.contains x = true → (∀ a n, Outstanding past a n → x < a ∨ a + n ≤ x) →
        m'.get x = m.get x) : Run arena p m' past

variable {arena : Arena} {p : Pool} {m : Memory} {live : List Allocation} {past : List Event}
  {e : Event} {a : Allocation} {x n : Nat}

/-- A pointer is outstanding after a call that returned it, or if it was before and the call has
not released it. -/
theorem outstanding_cons_iff :
    Outstanding (e :: past) x n ↔ e.Grants x n ∨ ¬ e.Releases x ∧ Outstanding past x n := by
  constructor
  · rintro ⟨later, e', earlier, hpast, hgrants, hkept⟩
    cases later with
    | nil =>
        obtain ⟨rfl, -⟩ := List.cons.inj hpast
        exact .inl hgrants
    | cons first later =>
        obtain ⟨rfl, rfl⟩ := List.cons.inj hpast
        rw [List.forall_mem_cons] at hkept
        exact .inr ⟨hkept.1, later, e', earlier, rfl, hgrants, hkept.2⟩
  · rintro (hgrants | ⟨hkept, later, e', earlier, rfl, hgrants, hlater⟩)
    · exact ⟨[], e, past, rfl, hgrants, by simp⟩
    · exact ⟨e :: later, e', earlier, rfl, hgrants, List.forall_mem_cons.mpr ⟨hkept, hlater⟩⟩

/-- The live allocations at the end of a history. -/
def ledger : List Event → List Allocation
  | [] => []
  | e :: past => e.call.record e.verdict (ledger past)

theorem outstanding_iff :
    Outstanding past x n ↔ ∃ a ∈ ledger past, a.payload = x ∧ a.size = n := by
  induction past with
  | nil => simp [Outstanding, ledger]
  | cons e past ih =>
      obtain ⟨c, v⟩ := e
      rw [outstanding_cons_iff, ih, ledger]
      cases c with
      | allocate size alignment tag | allocateZeroed size alignment tag =>
          cases v with
          | ok payload =>
              simp only [Event.Grants, Event.Releases, Call.record, List.exists_mem_cons_iff,
                Verdict.ok.injEq, not_false_eq_true, true_and]
              exact or_congr_left and_comm
          | error _ | fault _ => simp [Event.Grants, Event.Releases, Call.record]
      | free payload =>
          cases v with
          | ok freed =>
              simp only [Event.Grants, Event.Releases, Call.record, false_or, List.mem_filter,
                decide_eq_true_eq, Verdict.ok.injEq, exists_eq', and_true]
              constructor
              · rintro ⟨hne, a, ha, rfl, rfl⟩
                exact ⟨a, ⟨ha, Ne.symm hne⟩, rfl, rfl⟩
              · rintro ⟨a, ⟨ha, hne⟩, rfl, rfl⟩
                exact ⟨Ne.symm hne, a, ha, rfl, rfl⟩
          | error _ | fault _ => simp [Event.Grants, Event.Releases, Call.record]

theorem Run.call_of_verdict (h : Run arena p m past) (c : Call) {v : Verdict PoolError Nat}
    (hv : ((c.perform p).run m).verdict = v) :
    Run arena p ((c.perform p).run m).state (⟨c, v⟩ :: past) :=
  hv ▸ h.call c rfl

theorem Run.reachable (h : Run arena p m past) : Reachable arena p m (ledger past) := by
  induction h with
  | create policy m h => exact .create policy m h
  | call _ c hreply ih => exact .call ih c hreply
  | write _ h ih =>
      refine .write ih fun x hx hheld => h x hx fun a n hout => ?_
      obtain ⟨b, hb, rfl, rfl⟩ := outstanding_iff.mp hout
      refine Nat.lt_or_ge _ _ |>.imp_right fun hlo => Nat.le_of_not_lt fun hhi => ?_
      exact hheld ⟨b, hb, hlo, hhi⟩

/-! ## What a pool answers -/

/-- The pool takes the pointer for a live one of this size. -/
structure Accepts (p : Pool) (m : Memory) (x n : Nat) : Prop where
  owns_eq : ((p.owns x : PoolOperation Bool).run m).verdict = .ok true
  sizeOf?_eq : ((p.sizeOf? x : PoolOperation (Option Nat)).run m).verdict = .ok (some n)
  free_eq : ((p.free x).run m).verdict = .ok n

/-- The pool takes the pointer for no live one, and a release of it changes nothing. -/
structure Rejects (p : Pool) (m : Memory) (x : Nat) : Prop where
  owns_eq : ((p.owns x : PoolOperation Bool).run m).verdict = .ok false
  sizeOf?_eq : ((p.sizeOf? x : PoolOperation (Option Nat)).run m).verdict = .ok none
  free_eq : ((p.free x).run m).verdict = .error (.invalidPointer x)
  state_eq : ((p.free x).run m).state = m

theorem Reachable.accepts (hm : Reachable arena p m live) (ha : a ∈ live) :
    p.Accepts m a.payload a.size := by
  obtain ⟨order, hperm, hp⟩ := hm.accounts.holds
  have hpayload := Allocation.payload_block (Nat.le_of_lt (hm.accounts.size_lt_payload ha))
  have hmem := List.mem_map_of_mem (f := Allocation.block) (hperm.mem_iff.mpr ha)
  have hfind : ∃ b : Block, b.header.used = a.size ∧
      (p.find? a.payload : PoolOperation (Option Block)).outcome m = (.ok (some b), m) := by
    obtain ⟨left, right, hsplit⟩ := List.append_of_mem hmem
    rw [hsplit] at hp
    rw [← hpayload]
    exact ⟨_, Block.used_linked, hp.outcome_find?_of_mem⟩
  obtain ⟨b, hused, hfind⟩ := hfind
  refine ⟨?_, ?_, ?_⟩
  · rw [Operation.verdict_run, owns, Operation.outcome_bind_ok hfind]
    rfl
  · rw [Operation.verdict_run, sizeOf?, Operation.outcome_bind_ok hfind, Option.map_some, hused]
    rfl
  · rw [Operation.verdict_run]
    rcases hp.free_cases a.payload with
      ⟨hnone, -⟩ | ⟨left, c, right, m', lo, hsplit, hc, hout, -⟩
    · exact absurd hpayload (hnone a.block hmem)
    · have haddress : c.address = a.block.address :=
        Nat.add_right_cancel (hc.trans hpayload.symm)
      obtain rfl := hp.row.tail.eq_of_address_eq hmem (by rw [hsplit]; simp) haddress
      rw [hout]
      rfl

theorem Reachable.rejects (hm : Reachable arena p m live) (hx : ∀ a ∈ live, a.payload ≠ x) :
    p.Rejects m x := by
  obtain ⟨order, hperm, hp⟩ := hm.accounts.holds
  have hnone : ∀ b ∈ order.map Allocation.block, b.payload ≠ x := by
    intro b hb
    obtain ⟨a, ha, rfl⟩ := List.mem_map.mp hb
    have hlive := hperm.mem_iff.mp ha
    rw [Allocation.payload_block (Nat.le_of_lt (hm.accounts.size_lt_payload hlive))]
    exact hx a hlive
  have hfind := hp.outcome_find?_of_not_mem (ε := PoolError) hnone
  have hfree : (p.free x).outcome m = (.error (.invalidPointer x), m) := by
    rcases hp.free_cases x with ⟨-, hout⟩ | ⟨left, b, right, m', lo, hsplit, hb, -⟩
    · exact hout
    · exact absurd hb (hnone b (by rw [hsplit]; simp))
  refine ⟨?_, ?_, ?_, ?_⟩
  · rw [Operation.verdict_run, owns, Operation.outcome_bind_ok hfind]
    rfl
  · rw [Operation.verdict_run, sizeOf?, Operation.outcome_bind_ok hfind]
    rfl
  · rw [Operation.verdict_run, hfree]
  · rw [Operation.state_run, hfree]

/-! ## Every run -/

theorem Run.accepts (h : Run arena p m past) (hx : Outstanding past x n) : p.Accepts m x n := by
  obtain ⟨a, ha, rfl, rfl⟩ := outstanding_iff.mp hx
  exact h.reachable.accepts ha

theorem Run.rejects (h : Run arena p m past) (hx : ∀ n, ¬ Outstanding past x n) :
    p.Rejects m x :=
  h.reachable.rejects fun a ha heq => hx a.size (outstanding_iff.mpr ⟨a, ha, heq, rfl⟩)

theorem Run.accepts_or_rejects (h : Run arena p m past) (x : Nat) :
    (∃ n, Outstanding past x n ∧ p.Accepts m x n) ∨
      (∀ n, ¬ Outstanding past x n) ∧ p.Rejects m x := by
  by_cases hx : ∃ n, Outstanding past x n
  · obtain ⟨n, hx⟩ := hx
    exact .inl ⟨n, hx, h.accepts hx⟩
  · rw [not_exists] at hx
    exact .inr ⟨hx, h.rejects hx⟩

/-- Payloads lie behind the header of the permanent block, and inside the arena. -/
theorem Run.inside (h : Run arena p m past) (hx : Outstanding past x n) :
    p.start + Header.size < x ∧ p.contains x = true := by
  obtain ⟨a, ha, rfl, rfl⟩ := outstanding_iff.mp hx
  have hacc := h.reachable.accounts
  obtain ⟨order, hperm, hp⟩ := hacc.holds
  have hmem := List.mem_map_of_mem (f := Allocation.block) (hperm.mem_iff.mpr ha)
  obtain ⟨-, hlt, hhi⟩ := hp.payload_bounds hmem
  have hlo := (hacc.inside ha).1
  have hsize : Header.size = 48 := rfl
  rw [Allocation.payload_block (Nat.le_of_lt (hacc.size_lt_payload ha))] at hlt
  exact ⟨by omega, (Accounts.contains_iff hp.stop_lt).mpr ⟨by omega, by omega⟩⟩

theorem Accounts.apart (h : Accounts arena p m live) {b : Allocation} (ha : a ∈ live)
    (hb : b ∈ live) (hne : a ≠ b) :
    a.payload + a.padded ≤ b.payload - Header.size ∨
      b.payload + b.padded ≤ a.payload - Header.size :=
  have : Std.Symm fun a b : Allocation => a.payload + a.padded ≤ b.payload - Header.size ∨
      b.payload + b.padded ≤ a.payload - Header.size := ⟨fun _ _ hab => hab.symm⟩
  h.pairwise.forall ha hb hne

/-- No payload starts inside another one. -/
theorem Run.not_outstanding_inside (h : Run arena p m past) {y k : Nat}
    (hx : Outstanding past x n) (hlo : x < y) (hhi : y < x + n) : ¬ Outstanding past y k := by
  intro hy
  obtain ⟨a, ha, rfl, rfl⟩ := outstanding_iff.mp hx
  obtain ⟨b, hb, rfl, rfl⟩ := outstanding_iff.mp hy
  have hne : a ≠ b := fun heq => Nat.ne_of_lt hlo (congrArg Allocation.payload heq)
  have hpadded := a.size_le_padded
  have hapart := h.reachable.accounts.apart ha hb hne
  omega

/-- A pool knows its live pointers, whatever clients have written to them. It owns a pointer, has
a size for it and releases it exactly if an allocation has returned it and it has not been released
since, and the size is the one that was asked for. It rejects any other pointer, and then no byte
changes: one that is released for the second time, one into the middle of a payload, the one behind
the header of the permanent block, and one outside the arena. -/
theorem live_pointers_exact (h : Run arena p m past) (x : Nat) :
    (((p.owns x : PoolOperation Bool).run m).verdict = .ok true ↔ ∃ n, Outstanding past x n) ∧
      (∀ n, ((p.sizeOf? x : PoolOperation (Option Nat)).run m).verdict = .ok (some n) ↔
        Outstanding past x n) ∧
      (∀ n, ((p.free x).run m).verdict = .ok n ↔ Outstanding past x n) ∧
      ((∀ n, ¬ Outstanding past x n) → p.Rejects m x) ∧
      (∀ n, Outstanding past x n → p.Rejects ((p.free x).run m).state x) ∧
      (∀ a n, Outstanding past a n → a < x → x < a + n → p.Rejects m x) ∧
      p.Rejects m (p.start + Header.size) ∧
      (p.contains x = false → p.Rejects m x) := by
  refine ⟨?owns, fun n => ⟨?size, fun hx => (h.accepts hx).sizeOf?_eq⟩,
    fun n => ⟨?free, fun hx => (h.accepts hx).free_eq⟩, h.rejects, ?again, ?inside, ?head,
    ?outside⟩
  case owns =>
    rcases h.accepts_or_rejects x with ⟨k, hx, haccepts⟩ | ⟨hnone, hrejects⟩
    · exact iff_of_true haccepts.owns_eq ⟨k, hx⟩
    · rw [hrejects.owns_eq]
      exact iff_of_false (by simp) (not_exists.mpr hnone)
  case size =>
    intro hverdict
    rcases h.accepts_or_rejects x with ⟨k, hx, haccepts⟩ | ⟨-, hrejects⟩
    · obtain rfl := Option.some.inj (Verdict.ok.inj (haccepts.sizeOf?_eq.symm.trans hverdict))
      exact hx
    · exact nomatch hrejects.sizeOf?_eq.symm.trans hverdict
  case free =>
    intro hverdict
    rcases h.accepts_or_rejects x with ⟨k, hx, haccepts⟩ | ⟨-, hrejects⟩
    · obtain rfl := Verdict.ok.inj (haccepts.free_eq.symm.trans hverdict)
      exact hx
    · exact nomatch hrejects.free_eq.symm.trans hverdict
  case again =>
    intro n hx
    refine (h.call (.free x) rfl).rejects fun k hout => ?_
    rcases outstanding_cons_iff.mp hout with hgrants | ⟨hkept, -⟩
    · exact hgrants
    · exact hkept ⟨rfl, n, (h.accepts hx).free_eq⟩
  case inside =>
    intro a n hout hlo hhi
    exact h.rejects fun k => h.not_outstanding_inside hout hlo hhi
  case head => exact h.rejects fun n hout => Nat.lt_irrefl _ (h.inside hout).1
  case outside =>
    intro houtside
    exact h.rejects fun n hout => nomatch houtside.symm.trans (h.inside hout).2

/-- A client copies the header in front of its payload into the payload. The copy is intact, and the
pointer behind it is rejected all the same. The payload itself can be released, once. -/
theorem live_pointers_exact_of_forged_header :
    let arena : Arena := ⟨.nonPaged, 0x10000, 0x140⟩
    let p : Pool := ⟨.touched, trimmed arena⟩
    let m₀ := ((create arena .touched).run Memory.zeroed).state
    let m₁ := ((p.allocate 0x80 0 .byLayout).run m₀).state
    let m₂ := (Header.load m₁ 0x10030).store 0x10060 m₁
    (Header.load m₂ 0x10060).isIntact = true ∧ p.Rejects m₂ 0x10090 ∧
      ((p.free 0x10060).run m₂).verdict = .ok 0x80 ∧
      p.Rejects ((p.free 0x10060).run m₂).state 0x10060 := by
  intro arena p m₀ m₁ m₂
  let past : List Event := [⟨.allocate 0x80 0 .byLayout, .ok 0x10060⟩]
  have h₀ : Run arena p m₀ [] := .create .touched Memory.zeroed (by decide)
  have h₁ : Run arena p m₁ past :=
    h₀.call_of_verdict (.allocate 0x80 0 .byLayout) (by decide +kernel)
  have hlive : Outstanding past 0x10060 0x80 :=
    ⟨[], _, [], rfl, ⟨rfl, rfl⟩, by simp⟩
  have h₂ : Run arena p m₂ past := by
    refine .write h₁ fun x _ hfree => (Header.load m₁ 0x10030).get_store_of_not_mem m₁ ?_
    have hsize : Header.size = 0x30 := rfl
    have := hfree 0x10060 0x80 hlive
    omega
  have hintact : (Header.load m₂ 0x10060).isIntact = true := by decide +kernel
  obtain ⟨-, -, hfreed, -, hagain, -⟩ := live_pointers_exact h₂ 0x10060
  obtain ⟨-, -, -, -, -, hinside, -⟩ := live_pointers_exact h₂ 0x10090
  exact ⟨hintact, hinside 0x10060 0x80 hlive (by decide) (by decide), (hfreed 0x80).mpr hlive,
    hagain 0x80 hlive⟩

end Pool

end KernelMemory
