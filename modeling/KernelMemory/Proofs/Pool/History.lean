import KernelMemory.Proofs.Pool.Clean

/-!
# What a pool remembers

A pool remembers what is live and what was written there, and nothing about how it came to
that. The live allocations make up the row: each determines its block, and there is only one
order in which the blocks are a row. The row determines the headers down to their checksums,
and what is neither in a header nor in a payload is zero. So of two runs over one arena that
end with the same allocations and the same payloads, nobody can tell by the bytes which one
it was.

Nor by the answers. Whatever is asked of a pool is answered from the row, and the rows of two
runs stay the same from one request to the next.
-/

namespace KernelMemory

namespace Allocation

variable {a b : Allocation}

/-- What tells allocations apart. An alignment below the least one is as good as that. -/
def identity (a : Allocation) : Nat × Nat × Nat × Tag :=
  (a.payload, a.size, a.effective, a.tag)

theorem block_eq_of_identity_eq (h : a.identity = b.identity) : a.block = b.block := by
  simp only [identity, Prod.mk.injEq] at h
  obtain ⟨hpayload, hsize, halign, htag⟩ := h
  simp only [block, padded, hpayload, hsize, halign, htag]

end Allocation

namespace Pool

open Chain

variable {arena : Arena} {p p' : Pool} {m m' : Memory} {live live' : List Allocation}
  {bs : List Block} {policy : Policy}

/-- All pools over one arena are the same but for their policies. -/
theorem Reachable.exists_policy (hm : Reachable arena p m live)
    (hm' : Reachable arena p' m' live') : ∃ policy, p' = ⟨policy, p.arena⟩ := by
  rw [hm.accounts.arena_eq, ← hm'.accounts.arena_eq]
  exact ⟨p'.policy, rfl⟩

/-- The same allocations, in whatever order they were made. -/
def Alike (live live' : List Allocation) : Prop :=
  ∀ k, k ∈ live.map Allocation.identity ↔ k ∈ live'.map Allocation.identity

namespace Alike

theorem symm (h : Alike live live') : Alike live' live :=
  fun k => (h k).symm

theorem exists_of_mem (h : Alike live live') {a : Allocation} (ha : a ∈ live) :
    ∃ b ∈ live', b.identity = a.identity :=
  List.mem_map.mp ((h a.identity).mp (List.mem_map_of_mem ha))

theorem block_subset (h : Alike live live') :
    live.map Allocation.block ⊆ live'.map Allocation.block := by
  intro b hb
  obtain ⟨a, ha, rfl⟩ := List.mem_map.mp hb
  obtain ⟨c, hc, heq⟩ := h.exists_of_mem ha
  exact List.mem_map.mpr ⟨c, hc, Allocation.block_eq_of_identity_eq heq⟩

theorem held (h : Alike live live') {x : Nat} (hx : Held live x) : Held live' x := by
  obtain ⟨a, ha, hlo, hhi⟩ := hx
  obtain ⟨c, hc, heq⟩ := h.exists_of_mem ha
  simp only [Allocation.identity, Prod.mk.injEq] at heq
  exact ⟨c, hc, by omega, by omega⟩

theorem insert (h : Alike live live') (a : Allocation) : Alike (a :: live) (a :: live') := by
  intro k
  rw [List.map_cons, List.map_cons, List.mem_cons, List.mem_cons, h k]

theorem filter (h : Alike live live') (payload : Nat) :
    Alike (live.filter (·.payload ≠ payload)) (live'.filter (·.payload ≠ payload)) := by
  have hmem : ∀ live : List Allocation, ∀ k,
      k ∈ (live.filter (·.payload ≠ payload)).map Allocation.identity ↔
        k ∈ live.map Allocation.identity ∧ k.1 ≠ payload := by
    intro live k
    simp only [List.mem_map, List.mem_filter, decide_eq_true_eq]
    constructor
    · rintro ⟨a, ⟨ha, hne⟩, rfl⟩
      exact ⟨⟨a, ha, rfl⟩, hne⟩
    · rintro ⟨⟨a, ha, rfl⟩, hne⟩
      exact ⟨a, ⟨ha, hne⟩, rfl⟩
  intro k
  rw [hmem, hmem, h k]

theorem record (h : Alike live live') (v : Verdict PoolError Nat) (c : Call) :
    Alike (c.record v live) (c.record v live') := by
  cases v with
  | ok payload =>
      cases c with
      | allocate size alignment tag => exact h.insert _
      | allocateZeroed size alignment tag => exact h.insert _
      | free payload => exact h.filter payload
  | error e => cases c <;> exact h
  | fault f => cases c <;> exact h

/-- The same allocations make up the same row. -/
theorem exists_row (h : Alike live live') (ha : Accounts arena p m live)
    (ha' : Accounts arena p' m' live') :
    ∃ bs, live.map Allocation.block ⊆ bs ∧ p.Holds m bs ∧ p'.Holds m' bs := by
  obtain ⟨order, hperm, hp⟩ := ha.holds
  obtain ⟨order', hperm', hp'⟩ := ha'.holds
  have hblocks := fun b => (hperm.map Allocation.block).mem_iff (a := b)
  have hblocks' := fun b => (hperm'.map Allocation.block).mem_iff (a := b)
  have hrow : order.map Allocation.block = order'.map Allocation.block := by
    refine hp.row.tail.ext hp'.row.tail fun b => ?_
    rw [hblocks, hblocks']
    exact ⟨fun hb => h.block_subset hb, fun hb => h.symm.block_subset hb⟩
  rw [← hrow] at hp'
  exact ⟨_, fun b hb => (hblocks b).mpr hb, hp, hp'⟩

/-! ## The bytes -/

theorem get_eq (h : Alike live live') (hm : Reachable arena p m live)
    (hm' : Reachable arena p' m' live') (hheld : ∀ x, Held live x → m.get x = m'.get x) {x : Nat}
    (hx : p.contains x = true) : m.get x = m'.get x := by
  obtain ⟨policy, rfl⟩ := hm.exists_policy hm'
  by_cases hown : Held live x
  · exact hheld x hown
  by_cases hin : InHeader (p.base :: live.map Allocation.block) x
  · obtain ⟨bs, hsub, hp, hp'⟩ := h.exists_row hm.accounts hm'.accounts
    obtain ⟨b, hb, hlo, hhi⟩ := hin.mono (List.cons_subset_cons _ hsub)
    exact Header.get_eq_of_load_eq (hp.carries.load_eq hp'.carries hb) hlo hhi
  · have hown' : ¬ Held live' x := fun hown' => hown (h.symm.held hown')
    have hin' : ¬ InHeader (p.base :: live'.map Allocation.block) x := fun hin' =>
      hin (hin'.mono (List.cons_subset_cons _ h.symm.block_subset))
    rw [hm.clean x hx hown hin, hm'.clean x hx hown' hin']

end Alike

/-! ## The answers -/

/-- What a pool can be asked for, changing it or not. -/
inductive Request
  | call (c : Call)
  | owns (payload : Nat)
  | sizeOf (payload : Nat)
  | tally
  | audit

inductive Answer
  | number (n : Nat)
  | owned (yes : Bool)
  | size (n : Option Nat)
  | tally (t : Tally)
  | audit (v : Verdict PoolViolation Unit)

def Request.perform (p : Pool) : Request → PoolOperation Answer
  | call c => .number <$> c.perform p
  | owns payload => .owned <$> p.owns payload
  | sizeOf payload => .size <$> p.sizeOf? payload
  | tally => .tally <$> p.tally
  | audit => (fun m => .audit (p.audit m)) <$> Operation.get

/-- The verdicts on one request after another. -/
def answers (p : Pool) : List Request → Memory → List (Verdict PoolError Answer)
  | [], _ => []
  | r :: rest, m =>
    ((r.perform p).run m).verdict :: p.answers rest ((r.perform p).run m).state

/-! A pool with another policy over the same arena has the same room for the same row, so two
pools that hold one row answer alike, whatever else is in memory. -/

namespace Holds

theorem verdict_allocate (hp : p.Holds m bs) (size alignment : Nat) (tag : Tag) :
    ((p.allocate size alignment tag).outcome m).1 = p.grantIn bs size alignment := by
  rcases hp.allocate_cases size alignment tag with
    ⟨e, hgrant, hout⟩ | ⟨payload, m', left, right, rfl, hgrant, hout, -⟩
  · rw [hout, hgrant]
  · rw [hout, hgrant]

theorem verdict_allocateZeroed (hp : p.Holds m bs) (size alignment : Nat) (tag : Tag) :
    ((p.allocateZeroed size alignment tag).outcome m).1 = p.grantIn bs size alignment := by
  rcases hp.allocateZeroed_cases size alignment tag with
    ⟨e, hgrant, hout⟩ | ⟨payload, m', left, right, rfl, hgrant, hout, -⟩
  · rw [hout, hgrant]
  · rw [hout, hgrant]

theorem verdict_free (hp : p.Holds m bs) (hp' : p'.Holds m' bs) (payload : Nat) :
    ((p.free payload).outcome m).1 = ((p'.free payload).outcome m').1 := by
  rcases hp.free_cases payload with
    ⟨hnone, hout⟩ | ⟨left, b, right, _, _, hsplit, hb, hout, -⟩ <;>
  rcases hp'.free_cases payload with
    ⟨hnone', hout'⟩ | ⟨left', b', right', _, _, hsplit', hb', hout', -⟩
  · rw [hout, hout']
  · exact absurd hb' (hnone b' (by simp [hsplit']))
  · exact absurd hb (hnone' b (by simp [hsplit]))
  · have heq : b = b' := hp.row.tail.eq_of_address_eq (by simp [hsplit']) (by simp [hsplit])
      (Nat.add_right_cancel (hb.trans hb'.symm))
    rw [hout, hout', heq]

theorem verdict_call (hp : p.Holds m bs) (hp' : Holds ⟨policy, p.arena⟩ m' bs) (c : Call) :
    ((c.perform p).outcome m).1 = ((c.perform ⟨policy, p.arena⟩).outcome m').1 := by
  cases c with
  | allocate size alignment tag =>
      exact (hp.verdict_allocate size alignment tag).trans
        (hp'.verdict_allocate size alignment tag).symm
  | allocateZeroed size alignment tag =>
      exact (hp.verdict_allocateZeroed size alignment tag).trans
        (hp'.verdict_allocateZeroed size alignment tag).symm
  | free payload => exact hp.verdict_free hp' payload

theorem exists_find? (hp : p.Holds m bs) (hp' : Holds ⟨policy, p.arena⟩ m' bs) (payload : Nat) :
    ∃ found : Option Block,
      (p.find? payload : PoolOperation (Option Block)).outcome m = (.ok found, m) ∧
      (find? ⟨policy, p.arena⟩ payload : PoolOperation (Option Block)).outcome m' =
        (.ok found, m') := by
  by_cases hmem : ∃ b ∈ bs, b.payload = payload
  · obtain ⟨b, hb, rfl⟩ := hmem
    obtain ⟨left, right, rfl⟩ := List.append_of_mem hb
    exact ⟨_, hp.outcome_find?_of_mem, hp'.outcome_find?_of_mem⟩
  · have hnone : ∀ b ∈ bs, b.payload ≠ payload := fun b hb heq => hmem ⟨b, hb, heq⟩
    exact ⟨none, hp.outcome_find?_of_not_mem hnone, hp'.outcome_find?_of_not_mem hnone⟩

theorem exists_tally (hp : p.Holds m bs) (hp' : Holds ⟨policy, p.arena⟩ m' bs) :
    ∃ t : Tally, (p.tally : PoolOperation Tally).outcome m = (.ok t, m) ∧
      (tally ⟨policy, p.arena⟩ : PoolOperation Tally).outcome m' = (.ok t, m') :=
  ⟨_, Pool.outcome_tally hp.row hp.stop_lt rfl hp.carries,
    Pool.outcome_tally hp'.row hp'.stop_lt rfl hp'.carries⟩

/-- Besides a call, a request changes nothing and is answered from the row. -/
theorem request_cases (hp : p.Holds m bs) (hp' : Holds ⟨policy, p.arena⟩ m' bs) (r : Request) :
    (∃ c, r = .call c) ∨
      ∃ a, (r.perform p).outcome m = (.ok a, m) ∧
        (r.perform ⟨policy, p.arena⟩).outcome m' = (.ok a, m') := by
  cases r with
  | call c => exact .inl ⟨c, rfl⟩
  | owns payload =>
      obtain ⟨found, hout, hout'⟩ := hp.exists_find? hp' payload
      refine .inr ⟨.owned found.isSome, ?_, ?_⟩
      · exact Operation.outcome_map_ok (Operation.outcome_bind_ok hout _) _
      · exact Operation.outcome_map_ok (Operation.outcome_bind_ok hout' _) _
  | sizeOf payload =>
      obtain ⟨found, hout, hout'⟩ := hp.exists_find? hp' payload
      refine .inr ⟨.size (found.map fun b => b.header.used), ?_, ?_⟩
      · exact Operation.outcome_map_ok (Operation.outcome_bind_ok hout _) _
      · exact Operation.outcome_map_ok (Operation.outcome_bind_ok hout' _) _
  | tally =>
      obtain ⟨t, hout, hout'⟩ := hp.exists_tally hp'
      exact .inr ⟨.tally t, Operation.outcome_map_ok hout _, Operation.outcome_map_ok hout' _⟩
  | audit =>
      refine .inr ⟨.audit (.ok ()), ?_, ?_⟩
      · exact hp.audit_eq ▸ Operation.outcome_map_ok (Operation.outcome_get m) _
      · exact hp'.audit_eq ▸ Operation.outcome_map_ok (Operation.outcome_get m') _

end Holds

namespace Alike

/-- Runs that are alike give the same answer to a request, and are alike after it. -/
theorem step (h : Alike live live') (hm : Reachable arena p m live)
    (hm' : Reachable arena p' m' live') (r : Request) :
    ((r.perform p).run m).verdict = ((r.perform p').run m').verdict ∧
      ∃ next next', Alike next next' ∧ Reachable arena p ((r.perform p).run m).state next ∧
        Reachable arena p' ((r.perform p').run m').state next' := by
  obtain ⟨policy, rfl⟩ := hm.exists_policy hm'
  obtain ⟨bs, -, hp, hp'⟩ := h.exists_row hm.accounts hm'.accounts
  simp only [Operation.verdict_run, Operation.state_run]
  rcases hp.request_cases hp' r with ⟨c, rfl⟩ | ⟨a, hout, hout'⟩
  · have hverdict := hp.verdict_call hp' c
    have hnext := hm.call_of_verdict c rfl
    have hnext' := hm'.call_of_verdict c hverdict.symm
    rw [Operation.state_run, ← Operation.state_map Answer.number] at hnext hnext'
    exact ⟨Operation.verdict_map_congr hverdict _, _, _, h.record _ c, hnext, hnext'⟩
  · rw [hout, hout']
    exact ⟨rfl, live, live', h, hm, hm'⟩

theorem answers_eq (h : Alike live live') (hm : Reachable arena p m live)
    (hm' : Reachable arena p' m' live') (requests : List Request) :
    p.answers requests m = p'.answers requests m' := by
  induction requests generalizing m m' live live' with
  | nil => rfl
  | cons r rest ih =>
      obtain ⟨hverdict, next, next', hnext, hm, hm'⟩ := h.step hm hm' r
      rw [answers, answers, hverdict, ih hnext hm hm']

end Alike

/-! ## Histories -/

/-- The history of a pool leaves no trace. Of two runs over one arena that end with the same
live allocations and the same payloads, both have made the same bytes of the arena, and
every list of requests that follows is answered in the same way. A run that has released
everything leaves the arena as it is when a pool is created over it. -/
theorem history_independent (hm : Reachable arena p m live) :
    (∀ p' m' live', Reachable arena p' m' live' → Alike live live' →
      (∀ x, Held live x → m.get x = m'.get x) →
      (∀ x, p.contains x = true → m.get x = m'.get x) ∧
        ∀ requests, p.answers requests m = p'.answers requests m') ∧
    (live = [] → ∀ policy m₀,
      ((create arena policy).run m₀).verdict = .ok ⟨policy, p.arena⟩ ∧
        ∀ x, p.contains x = true → m.get x = ((create arena policy).run m₀).state.get x) := by
  refine ⟨fun p' m' live' hm' halike hheld => ?_, ?_⟩
  · exact ⟨fun x hx => halike.get_eq hm hm' hheld hx, halike.answers_eq hm hm'⟩
  · rintro rfl policy m₀
    have hcreate := hm.outcome_create policy m₀
    have hverdict : ((create arena policy).run m₀).verdict = .ok ⟨policy, trimmed arena⟩ := by
      rw [Operation.verdict_run, hcreate]
    refine ⟨hm.accounts.arena_eq ▸ hverdict, fun x hx => ?_⟩
    have hfresh : Alike [] [] := fun k => Iff.rfl
    exact hfresh.get_eq hm (.create policy m₀ hverdict) (fun x ⟨a, ha, _⟩ => nomatch ha) hx

/-- Two ways to one payload on a boundary of its own. What was in front of it was smaller in
one run than in the other, had another tag, and was written to in one of them only. -/
theorem history_independent_of_released :
    let arena : Arena := ⟨.nonPaged, 0x10000, 0x108⟩
    let p : Pool := ⟨.full, trimmed arena⟩
    let m₁ := ((create arena .full).run Memory.zeroed).state
    let m₂ := ((p.allocate 20 0 .byLayout).run m₁).state
    let m₃ := ((p.allocateZeroed 8 64 .byLayout).run m₂).state
    let m := ((p.free 0x10060).run m₃).state
    let p' : Pool := ⟨.touched, trimmed arena⟩
    let m₁' := ((create arena .touched).run Memory.zeroed).state
    let m₂' := ((p'.allocate 40 16 .head).run m₁').state
    let m₃' := ((p'.allocate 8 64 .byLayout).run (m₂'.set 0x10070 0xff)).state
    let m' := ((p'.free 0x10060).run m₃').state
    (∀ x, p.contains x = true → m.get x = m'.get x) ∧
      ∀ requests, p.answers requests m = p'.answers requests m' := by
  intro arena p m₁ m₂ m₃ m p' m₁' m₂' m₃' m'
  have h₁ : Reachable arena p m₁ [] := .create .full Memory.zeroed (by decide)
  have h₂ : Reachable arena p m₂ [⟨0x10060, 20, 0, .byLayout⟩] :=
    h₁.call_of_verdict (.allocate 20 0 .byLayout) (v := .ok 0x10060) (by decide +kernel)
  have h₃ : Reachable arena p m₃ [⟨0x100c0, 8, 64, .byLayout⟩, ⟨0x10060, 20, 0, .byLayout⟩] :=
    h₂.call_of_verdict (.allocateZeroed 8 64 .byLayout) (v := .ok 0x100c0) (by decide +kernel)
  have h : Reachable arena p m [⟨0x100c0, 8, 64, .byLayout⟩] :=
    h₃.call_of_verdict (.free 0x10060) (v := .ok 20) (by decide +kernel)
  have h₁' : Reachable arena p' m₁' [] := .create .touched Memory.zeroed (by decide)
  have h₂' : Reachable arena p' m₂' [⟨0x10060, 40, 16, .head⟩] :=
    h₁'.call_of_verdict (.allocate 40 16 .head) (v := .ok 0x10060) (by decide +kernel)
  have hwritten : Reachable arena p' (m₂'.set 0x10070 0xff) [⟨0x10060, 40, 16, .head⟩] := by
    refine h₂'.write fun x _ hx => ?_
    rw [Memory.get_set, if_neg]
    rintro rfl
    exact hx ⟨_, List.mem_cons_self, by decide, by decide⟩
  have h₃' : Reachable arena p' m₃' [⟨0x100c0, 8, 64, .byLayout⟩, ⟨0x10060, 40, 16, .head⟩] :=
    hwritten.call_of_verdict (.allocate 8 64 .byLayout) (v := .ok 0x100c0) (by decide +kernel)
  have h' : Reachable arena p' m' [⟨0x100c0, 8, 64, .byLayout⟩] :=
    h₃'.call_of_verdict (.free 0x10060) (v := .ok 40) (by decide +kernel)
  have hbytes : ∀ i < 8, m.get (0x100c0 + i) = m'.get (0x100c0 + i) := by decide +kernel
  refine (history_independent h).1 p' m' _ h' (fun k => Iff.rfl) ?_
  rintro x ⟨a, ha, hlo, hhi⟩
  obtain rfl := List.mem_singleton.mp ha
  obtain ⟨i, rfl⟩ := Nat.exists_eq_add_of_le hlo
  exact hbytes i (Nat.lt_of_add_lt_add_left hhi)

end Pool

end KernelMemory
