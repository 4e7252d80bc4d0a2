import KernelMemory.Proofs.Pool.Calls

/-!
# Accounting for a pool

Clients of a pool allocate and release in any order, with any arguments, and in between they
write what they like to the payloads they hold. The list of live allocations is read off the
answers alone: an allocation that succeeds adds what was asked for at the address it was
given, and a release that succeeds strikes what was at that address. The invariant is that,
put into the order of their addresses, the live allocations are the row that the arena
carries. So the headers in the arena can be trusted to say what the clients were told.
-/

namespace KernelMemory

namespace Pool

open Chain

inductive Call
  | allocate (size alignment : Nat) (tag : Tag)
  | allocateZeroed (size alignment : Nat) (tag : Tag)
  | free (payload : Nat)

namespace Call

def perform (p : Pool) : Call → PoolOperation Nat
  | allocate size alignment tag => p.allocate size alignment tag
  | allocateZeroed size alignment tag => p.allocateZeroed size alignment tag
  | free payload => p.free payload

/-- The live allocations after a call that ended with a verdict. -/
def record (verdict : Verdict PoolError Nat) (live : List Allocation) : Call → List Allocation
  | allocate size alignment tag | allocateZeroed size alignment tag =>
    match verdict with
    | .ok payload => ⟨payload, size, alignment, tag⟩ :: live
    | _ => live
  | free payload =>
    match verdict with
    | .ok _ => live.filter (·.payload ≠ payload)
    | _ => live

end Call

/-- The address is that of a byte that belongs to a client. -/
def Held (live : List Allocation) (x : Nat) : Prop :=
  ∃ a ∈ live, a.payload ≤ x ∧ x < a.payload + a.size

/-- The contents of memory that a run over an arena reaches, with what is then live. Between
calls clients write to what they hold, and anything may happen outside the arena. -/
inductive Reachable (arena : Arena) (p : Pool) : Memory → List Allocation → Prop
  | create (policy : Policy) (m : Memory) (h : ((create arena policy).run m).verdict = .ok p) :
      Reachable arena p ((Pool.create arena policy).run m).state []
  | call {m : Memory} {live : List Allocation} (hm : Reachable arena p m live) (c : Call)
      {reply : Reply Memory PoolError Nat} (hreply : (c.perform p).run m = reply) :
      Reachable arena p reply.state (c.record reply.verdict live)
  | write {m m' : Memory} {live : List Allocation} (hm : Reachable arena p m live)
      (h : ∀ x, p.contains x = true → ¬ Held live x → m'.get x = m.get x) :
      Reachable arena p m' live

/-! ## The invariant -/

variable {arena : Arena} {p : Pool} {m m' : Memory} {live : List Allocation} {a : Allocation}

/-- The live allocations, in the order of their addresses, are the row in the arena. -/
structure Accounts (arena : Arena) (p : Pool) (m : Memory) (live : List Allocation) :
    Prop where
  arena_eq : p.arena = trimmed arena
  aligned : ∀ a ∈ live, a.effective ∣ a.payload
  holds : ∃ order : List Allocation, order.Perm live ∧ p.Holds m (order.map Allocation.block)

namespace Accounts

/-- The header in front of a payload lies behind that of the permanent block. -/
theorem inside (h : Accounts arena p m live) (ha : a ∈ live) :
    p.start + Header.size ≤ a.payload - Header.size ∧ a.payload + a.padded ≤ p.stop := by
  obtain ⟨order, hperm, hp⟩ := h.holds
  have hmem : a.block ∈ order.map Allocation.block :=
    List.mem_map_of_mem (hperm.mem_iff.mpr ha)
  obtain ⟨hlo, -, hhi⟩ := hp.payload_bounds hmem
  have haddress : a.block.address = a.payload - Header.size := rfl
  have hsize : Header.size = 48 := rfl
  rw [Allocation.tail_block (by omega)] at hhi
  exact ⟨hlo, hhi⟩

theorem size_lt_payload (h : Accounts arena p m live) (ha : a ∈ live) :
    Header.size < a.payload := by
  have := (h.inside ha).1
  have hsize : Header.size = 48 := rfl
  omega

theorem contains_iff (hstop : p.stop < Word.bound) {x : Nat} :
    p.contains x = true ↔ p.start ≤ x ∧ x < p.stop := by
  have hstop? : p.arena.stop? = some p.stop := Word.add?_eq_some_iff.mpr ⟨rfl, hstop⟩
  rw [contains, Arena.contains, hstop?]
  simp [start]

/-- Writes to what clients hold do not reach a header. -/
theorem write (h : Accounts arena p m live)
    (hm : ∀ x, p.contains x = true → ¬ Held live x → m'.get x = m.get x) :
    Accounts arena p m' live := by
  obtain ⟨order, hperm, hp⟩ := h.holds
  refine ⟨h.arena_eq, h.aligned, order, hperm, hp.of_get_eq fun x hx => hm x ?_ ?_⟩
  · obtain ⟨b, hb, hlo, hhi⟩ := hx
    have hin := hp.row.inside b hb
    have hsize := b.address_add_size_le_tail
    unfold Block.payload at hhi
    exact (contains_iff hp.stop_lt).mpr ⟨by omega, by omega⟩
  · rintro ⟨a, ha, hlo, hhi⟩
    have hlt := Nat.le_of_lt (h.size_lt_payload ha)
    have hpadded := a.size_le_padded
    have hmem : a.block ∈ order.map Allocation.block :=
      List.mem_map_of_mem (hperm.mem_iff.mpr ha)
    refine hp.row.not_inHeader (List.mem_cons_of_mem _ hmem) ?_ ?_ hx
    · rwa [Allocation.payload_block hlt]
    · rw [Allocation.tail_block hlt]
      omega

/-- A new block makes a new live allocation. -/
theorem insert {left right : List Block} {order : List Allocation} (h : Accounts arena p m live)
    (hperm : order.Perm live) (hsplit : order.map Allocation.block = left ++ right)
    (ha : Fits (p.base :: left) a (first p.stop right))
    (hp : p.Holds m' (left ++ a.block :: right)) : Accounts arena p m' (a :: live) := by
  obtain ⟨front, back, rfl, rfl, rfl⟩ := List.map_eq_append_iff.mp hsplit
  refine ⟨h.arena_eq, List.forall_mem_cons.mpr ⟨ha.aligned, h.aligned⟩, front ++ a :: back,
    List.perm_middle.trans (hperm.cons a), ?_⟩
  rwa [List.map_append, List.map_cons]

/-- A release strikes the one allocation whose block is taken out. -/
theorem perm_filter {front back : List Allocation} (h : Accounts arena p m live)
    (hperm : (front ++ a :: back).Perm live)
    (hrow : Row p.start p.stop ((front ++ a :: back).map Allocation.block)) :
    (front ++ back).Perm (live.filter (·.payload ≠ a.block.payload)) := by
  have ha : Header.size < a.payload := h.size_lt_payload (hperm.mem_iff.mp (by simp))
  rw [List.map_append, List.map_cons] at hrow
  have hkept : ∀ c ∈ front ++ back, decide (c.payload ≠ a.block.payload) = true := by
    intro c hc
    rw [decide_eq_true_eq, Allocation.payload_block (Nat.le_of_lt ha)]
    intro heq
    refine hrow.address_ne c.block ?_ (congrArg (· - Header.size) heq)
    rw [← List.map_append]
    exact List.mem_map_of_mem hc
  have hfilter := hperm.filter (·.payload ≠ a.block.payload)
  rw [List.filter_append, List.filter_cons_of_neg
    (by simp [Allocation.payload_block (Nat.le_of_lt ha)]), ← List.filter_append,
    List.filter_eq_self.mpr hkept] at hfilter
  exact hfilter

theorem remove {left right : List Block} {b : Block} {order : List Allocation}
    (h : Accounts arena p m live) (hperm : order.Perm live)
    (hsplit : order.map Allocation.block = left ++ b :: right)
    (hold : p.Holds m (left ++ b :: right)) (hp : p.Holds m' (left ++ right)) :
    Accounts arena p m' (live.filter (·.payload ≠ b.payload)) := by
  have hrow := hold.row.tail
  rw [← hsplit] at hrow
  obtain ⟨front, rest, rfl, rfl, hrest⟩ := List.map_eq_append_iff.mp hsplit
  obtain ⟨a, back, rfl, rfl, rfl⟩ := List.map_eq_cons_iff.mp hrest
  refine ⟨h.arena_eq, fun c hc => h.aligned c (List.mem_filter.mp hc).1, front ++ back,
    h.perm_filter hperm hrow, ?_⟩
  rwa [List.map_append]

theorem pairwise (h : Accounts arena p m live) :
    live.Pairwise fun a b => a.payload + a.padded ≤ b.payload - Header.size ∨
      b.payload + b.padded ≤ a.payload - Header.size := by
  obtain ⟨order, hperm, hp⟩ := h.holds
  refine hperm.pairwise ?_ fun h => h.symm
  refine (List.pairwise_map.mp hp.row.tail.ordered).imp_of_mem fun ha _ hle => .inl ?_
  rwa [Allocation.tail_block (Nat.le_of_lt (h.size_lt_payload (hperm.mem_iff.mp ha)))] at hle

theorem call (h : Accounts arena p m live) (c : Call) :
    Accounts arena p ((c.perform p).outcome m).2 (c.record ((c.perform p).outcome m).1 live) := by
  obtain ⟨order, hperm, hp⟩ := h.holds
  cases c with
  | allocate size alignment tag =>
      unfold Call.perform
      rcases hp.allocate_cases size alignment tag with
        ⟨e, -, hout⟩ | ⟨payload, m', left, right, hsplit, -, hout, hfits, hp', -⟩
      · rw [hout]
        exact h
      · rw [hout]
        exact h.insert hperm hsplit hfits hp'
  | allocateZeroed size alignment tag =>
      unfold Call.perform
      rcases hp.allocateZeroed_cases size alignment tag with
        ⟨e, -, hout⟩ | ⟨payload, m', left, right, hsplit, -, hout, hfits, hp', -⟩
      · rw [hout]
        exact h
      · rw [hout]
        exact h.insert hperm hsplit hfits hp'
  | free payload =>
      unfold Call.perform
      rcases hp.free_cases payload with
        ⟨-, hout⟩ | ⟨left, b, right, m', lo, hsplit, rfl, hout, hp', -⟩
      · rw [hout]
        exact h
      · rw [hout]
        exact h.remove hperm hsplit (hsplit ▸ hp) hp'

end Accounts

/-! ## Every run -/

/-- A formatted arena carries the permanent block, which has all of it as its tail. -/
theorem holds_format {m : Memory} {a : Arena} (policy : Policy)
    (hlie : Block.canLieAt a.start = true) (hroom : Header.size + Header.alignment ≤ a.size)
    (hlt : a.start + a.size < Word.bound) : Holds ⟨policy, a⟩ (format a m) [] := by
  have hsize : Header.size = 48 := rfl
  have hrow : Row a.start (a.start + a.size) [base ⟨policy, a⟩] := by
    refine ⟨List.pairwise_singleton _ _, ?_, ?_⟩
    · simp only [List.mem_singleton, forall_eq, address_base, tail_base]
      exact ⟨Nat.le_refl _, Nat.add_le_add_left (by omega) a.start⟩
    · simp only [List.mem_singleton, forall_eq, address_base]
      exact hlie
  have hheader : ((base ⟨policy, a⟩).linked 0 0 (a.start + a.size)).header =
      (firstHeader a).stamped := by
    have hunused : a.start + a.size - (base ⟨policy, a⟩).tail = a.size - Header.size :=
      Nat.add_sub_add_left a.start a.size Header.size
    simp only [Block.linked, hunused]
    rfl
  refine ⟨hlt, hrow, by simp, ?_⟩
  rw [Carries.thread_cons_iff]
  have hfits := hrow.inRange hlt (linked_mem_thread 0 (a.start + a.size) 0 [] _ [])
  exact ⟨hheader ▸ Header.load_store (hheader ▸ hfits) a.start _, by simp [Carries]⟩

/-- Whether a pool is created depends on nothing but the arena, and the new pool holds
nothing, whatever is in memory. -/
theorem create_cases (arena : Arena) :
    (∃ e, ∀ policy m, (create arena policy).outcome m = (.error e, m)) ∨
      ∀ policy m, (create arena policy).outcome m =
          (.ok ⟨policy, trimmed arena⟩, format (trimmed arena) m) ∧
        Holds ⟨policy, trimmed arena⟩ (format (trimmed arena) m) [] := by
  unfold create
  split
  · exact .inl ⟨_, fun policy m => rfl⟩
  · simp only
    split
    · next husable =>
      refine .inr fun policy m => ⟨rfl, ?_⟩
      simp only [isUsable, Bool.and_eq_true, decide_eq_true_eq, Option.isSome_iff_exists] at husable
      obtain ⟨⟨hlie, hroom⟩, stop, hstop⟩ := husable
      obtain ⟨rfl, hlt⟩ := Word.add?_eq_some_iff.mp hstop
      exact holds_format policy hlie hroom hlt
    · exact .inl ⟨_, fun policy m => rfl⟩

theorem create_of_ok {policy : Policy} (h : ((create arena policy).run m).verdict = .ok p) :
    p = ⟨policy, trimmed arena⟩ ∧ ∀ policy m, (create arena policy).outcome m =
        (.ok ⟨policy, trimmed arena⟩, format (trimmed arena) m) ∧
      Holds ⟨policy, trimmed arena⟩ (format (trimmed arena) m) [] := by
  rw [Operation.verdict_run] at h
  rcases create_cases arena with ⟨e, hout⟩ | hcreate
  · rw [hout] at h
    cases h
  · rw [(hcreate policy m).1] at h
    exact ⟨(Verdict.ok.inj h).symm, hcreate⟩

theorem Reachable.accounts (h : Reachable arena p m live) : Accounts arena p m live := by
  induction h with
  | create policy m h =>
      obtain ⟨rfl, hcreate⟩ := create_of_ok h
      obtain ⟨hout, hp⟩ := hcreate policy m
      rw [Operation.state_run, hout]
      exact ⟨rfl, by simp, [], .nil, hp⟩
  | call _ c hreply ha =>
      subst hreply
      rw [Operation.verdict_run, Operation.state_run]
      exact ha.call c
  | write _ h ha => exact ha.write h

/-- A pool that is in use could be created over its arena at any time. -/
theorem Reachable.outcome_create (h : Reachable arena p m live) (policy : Policy) (m' : Memory) :
    (Pool.create arena policy).outcome m' =
      (.ok ⟨policy, trimmed arena⟩, format (trimmed arena) m') := by
  induction h with
  | create _ _ h => exact ((create_of_ok h).2 policy m').1
  | call _ _ _ ih => exact ih
  | write _ _ ih => exact ih

/-- The heap of a pool is sound after every run. The audit finds no defect, the tally
accounts for the whole arena and for what is live, and every live payload is aligned and
lies, with its header and its padding, inside the arena behind the permanent header and
apart from all others. -/
theorem heap_sound (h : Reachable arena p m live) :
    p.audit m = .ok () ∧
    (∃ t : Tally, ((p.tally : PoolOperation Tally).run m).verdict = .ok t ∧
      t.total = Word.roundDown Header.alignment arena.size ∧
      t.allocations = live.length ∧ t.used = (live.map Allocation.size).sum) ∧
    (∀ a ∈ live, max a.alignment Header.alignment ∣ a.payload) ∧
    (∀ a ∈ live, arena.start + Header.size ≤ a.payload - Header.size ∧
      a.payload + a.padded ≤ arena.start + Word.roundDown Header.alignment arena.size) ∧
    live.Pairwise fun a b => a.payload + a.padded ≤ b.payload - Header.size ∨
      b.payload + b.padded ≤ a.payload - Header.size := by
  have ha := h.accounts
  obtain ⟨order, hperm, hp⟩ := ha.holds
  obtain ⟨t, ht, htotal, hallocations, hused⟩ := hp.outcome_tally (ε := PoolError)
  refine ⟨hp.audit_eq, ⟨t, ?_, ?_, ?_, ?_⟩, ha.aligned, ?_, ha.pairwise⟩
  · rw [Operation.verdict_run, ht]
  · rw [htotal, ha.arena_eq, trimmed]
  · rw [hallocations, List.length_map, hperm.length_eq]
  · rw [hused, List.map_map]
    exact (hperm.map Allocation.size).sum_nat
  · intro a hmem
    have hin := ha.inside hmem
    unfold start stop at hin
    rwa [ha.arena_eq] at hin

theorem Reachable.call_of_verdict (hm : Reachable arena p m live) (c : Call)
    {v : Verdict PoolError Nat} (h : ((c.perform p).run m).verdict = v) :
    Reachable arena p ((c.perform p).run m).state (c.record v live) :=
  h ▸ hm.call c rfl

/-- Two payloads, the second on a boundary of its own, and the first released again. The
bytes at the end of the arena that are too few for a header are not part of it. -/
theorem heap_sound_after_release :
    let arena : Arena := ⟨.nonPaged, 0x10000, 0x108⟩
    let p : Pool := ⟨.full, trimmed arena⟩
    let m₀ := ((create arena .full).run Memory.zeroed).state
    let m₁ := ((p.allocate 20 0 .byLayout).run m₀).state
    let m₂ := ((p.allocateZeroed 8 64 .byLayout).run m₁).state
    let m₃ := ((p.free 0x10060).run m₂).state
    p.audit m₃ = .ok () ∧ ∃ t : Tally, ((p.tally : PoolOperation Tally).run m₃).verdict = .ok t ∧
      t.total = 0x100 ∧ t.allocations = 1 ∧ t.used = 8 := by
  intro arena p m₀ m₁ m₂ m₃
  have h₀ : Reachable arena p m₀ [] := .create .full Memory.zeroed (by decide)
  have h₁ : Reachable arena p m₁ [⟨0x10060, 20, 0, .byLayout⟩] :=
    h₀.call_of_verdict (.allocate 20 0 .byLayout) (v := .ok 0x10060) (by decide +kernel)
  have h₂ : Reachable arena p m₂ [⟨0x100c0, 8, 64, .byLayout⟩, ⟨0x10060, 20, 0, .byLayout⟩] :=
    h₁.call_of_verdict (.allocateZeroed 8 64 .byLayout) (v := .ok 0x100c0)
      (by decide +kernel)
  have h₃ : Reachable arena p m₃ [⟨0x100c0, 8, 64, .byLayout⟩] :=
    h₂.call_of_verdict (.free 0x10060) (v := .ok 20) (by decide +kernel)
  obtain ⟨haudit, ⟨t, ht, htotal, hallocations, hused⟩, -⟩ := heap_sound h₃
  exact ⟨haudit, t, ht, htotal.trans (by decide), hallocations, hused⟩

end Pool

end KernelMemory
