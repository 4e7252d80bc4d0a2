import KernelMemory.Proofs.Pool.Ledger

/-!
# What a call leaves alone

Whatever a call to a pool writes lies in one of two places: in the header of a block that is
in the row when the call is over, or in a stretch of the arena that the call clears. No
header reaches into a payload, so the stretch is the only danger to what clients hold. A
release clears the room between two neighbours in the row, and an allocation at most its own
payload. Neither meets a block that is there before and after.
-/

namespace KernelMemory

namespace Pool

open Chain

variable {arena : Arena} {p : Pool} {m m' : Memory} {live : List Allocation} {a : Allocation}
  {bs kept left right : List Block} {b : Block}

/-- A call has spared what lies outside the arena and the payloads, with their padding, of
these blocks. -/
structure Spares (p : Pool) (m m' : Memory) (kept : List Block) : Prop where
  outside : ∀ x, p.contains x = false → m'.get x = m.get x
  payloads : ∀ b ∈ kept, ∀ x, b.payload ≤ x → x < b.tail → m'.get x = m.get x

namespace Spares

theorem refl (p : Pool) (m : Memory) (kept : List Block) : Spares p m m kept :=
  ⟨fun _ _ => rfl, fun _ _ _ _ _ => rfl⟩

/-- What is not in a header is cleared or stays, and no kept payload meets what is cleared. -/
theorem of_clear (lo hi : Nat) (hp : p.Holds m' bs) (hlo : p.start ≤ lo) (hhi : hi ≤ p.stop)
    (hkept : ∀ b ∈ kept, b ∈ bs ∧ (b.tail ≤ lo ∨ hi ≤ b.payload))
    (h : ∀ x, ¬ InHeader (p.base :: bs) x → m'.get x = (m.clear lo hi).get x) :
    Spares p m m' kept := by
  refine ⟨fun x hx => ?_, fun b hb x hx hx' => ?_⟩
  · have hout : ¬ (p.start ≤ x ∧ x < p.stop) := fun hin => by
      rw [(Accounts.contains_iff hp.stop_lt).mpr hin] at hx
      cases hx
    rw [h x fun hin => hout (hp.row.bounds_of_inHeader hin)]
    exact m.get_clear_of_not_mem (by omega)
  · obtain ⟨hmem, hap⟩ := hkept b hb
    rw [h x (hp.row.not_inHeader (List.mem_cons_of_mem _ hmem) hx hx')]
    exact m.get_clear_of_not_mem (by omega)

theorem of_get_eq (hp : p.Holds m' bs) (hkept : kept ⊆ bs)
    (h : ∀ x, ¬ InHeader (p.base :: bs) x → m'.get x = m.get x) : Spares p m m' kept := by
  have hlt := hp.row.inside p.base List.mem_cons_self
  refine of_clear p.start p.start hp (Nat.le_refl _) ?_ (fun b hb => ?_) ?_
  · exact Nat.le_trans (p.base.address_add_size_le_tail.trans' (Nat.le_add_right _ _)) hlt.2
  · refine ⟨hkept hb, .inr ?_⟩
    have hin := hp.row.inside b (List.mem_cons_of_mem _ (hkept hb))
    exact Nat.le_trans hin.1 (Nat.le_add_right _ _)
  · intro x hx
    rw [h x hx, m.get_clear_of_not_mem (by omega)]

end Spares

namespace Holds

theorem allocate_spares (hp : p.Holds m bs) (size alignment : Nat) (tag : Tag) :
    Spares p m ((p.allocate size alignment tag).outcome m).2 bs := by
  rcases hp.allocate_cases size alignment tag with
    ⟨e, -, hout⟩ | ⟨payload, m', left, right, rfl, -, hout, -, hp', hframe⟩
  · rw [hout]
    exact .refl p m bs
  · rw [hout]
    exact .of_get_eq hp' (by simp) hframe

theorem allocateZeroed_spares (hp : p.Holds m bs) (size alignment : Nat) (tag : Tag) :
    Spares p m ((p.allocateZeroed size alignment tag).outcome m).2 bs := by
  rcases hp.allocateZeroed_cases size alignment tag with
    ⟨e, -, hout⟩ | ⟨payload, m', left, right, rfl, -, hout, hfits, hp', hframe⟩
  · rw [hout]
    exact .refl p m bs
  · rw [hout]
    have hhead := Nat.le_of_lt hfits.size_lt_payload
    have hpayload := Allocation.payload_block hhead
    have htail := Allocation.tail_block hhead
    have hpadded := Allocation.size_le_padded ⟨payload, size, alignment, tag⟩
    obtain ⟨hlo, -, hhi⟩ := hp'.payload_bounds (List.mem_append_right left List.mem_cons_self)
    simp only at hpayload htail hpadded
    refine .of_clear _ _ hp' (by unfold Block.payload at hpayload; omega) (by omega)
      (fun c hc => ⟨by simp at hc ⊢; tauto, ?_⟩) hframe
    have hap := hp'.row.tail.apart c hc
    unfold Block.payload at hpayload ⊢
    omega

theorem free_spares (hp : p.Holds m bs) (payload : Nat) :
    Spares p m ((p.free payload).outcome m).2 (bs.filter (·.payload ≠ payload)) := by
  rcases hp.free_cases payload with
    ⟨-, hout⟩ | ⟨left, b, right, m', lo, rfl, rfl, hout, hp', hlo, hle, hframe⟩
  · rw [hout]
    exact .refl p m _
  · rw [hout]
    have hrow := hp.row.tail.sublist (List.sublist_append_right left _)
    have hbase := hlo p.base List.mem_cons_self
    refine .of_clear _ _ hp' (Nat.le_trans (Nat.le_add_right _ _) hbase) hrow.tail.first_le
      (fun c hc => ?_) hframe
    obtain ⟨hc, hne⟩ := List.mem_filter.mp hc
    rw [List.mem_append, List.mem_cons] at hc
    rcases hc with hc | rfl | hc
    · exact ⟨List.mem_append_left right hc, .inl (hlo c (List.mem_cons_of_mem _ hc))⟩
    · simp at hne
    · refine ⟨List.mem_append_right left hc, .inr ?_⟩
      exact Nat.le_trans (hrow.tail.first_le_address hc _) (Nat.le_add_right _ _)

end Holds

/-! ## Every call of every run -/

/-- What a call spares takes in every allocation that is live before the call and after it. -/
theorem Accounts.call_spares (h : Accounts arena p m live) (c : Call) :
    ∃ kept, Spares p m ((c.perform p).outcome m).2 kept ∧
      ∀ a ∈ live, a ∈ c.record ((c.perform p).outcome m).1 live → a.block ∈ kept := by
  obtain ⟨order, hperm, hp⟩ := h.holds
  have hmem : ∀ a ∈ live, a.block ∈ order.map Allocation.block := fun a ha =>
    List.mem_map_of_mem (hperm.mem_iff.mpr ha)
  cases c with
  | allocate size alignment tag =>
      exact ⟨_, hp.allocate_spares size alignment tag, fun a ha _ => hmem a ha⟩
  | allocateZeroed size alignment tag =>
      exact ⟨_, hp.allocateZeroed_spares size alignment tag, fun a ha _ => hmem a ha⟩
  | free payload =>
      refine ⟨_, hp.free_spares payload, fun a ha hkept => ?_⟩
      refine List.mem_filter.mpr ⟨hmem a ha, decide_eq_true ?_⟩
      unfold Call.perform at hkept
      rcases hp.free_cases payload with ⟨hnone, hout⟩ | ⟨_, _, _, _, _, _, _, hout, -⟩
      · exact hnone a.block (hmem a ha)
      · rw [hout] at hkept
        rw [Allocation.payload_block (Nat.le_of_lt (h.size_lt_payload ha))]
        exact of_decide_eq_true (List.mem_filter.mp hkept).2

/-- Calls to a pool never touch what clients hold. Whatever a run has led to and whatever is
asked for, granted or not, the bytes of each payload that is live before the call and after
it stay as they are, and so does every byte outside the arena. -/
theorem live_payloads_untouched (hm : Reachable arena p m live) (c : Call) :
    (∀ a ∈ live, a ∈ c.record ((c.perform p).run m).verdict live →
      ∀ x, a.payload ≤ x → x < a.payload + a.size →
        ((c.perform p).run m).state.get x = m.get x) ∧
    ∀ x, p.contains x = false → ((c.perform p).run m).state.get x = m.get x := by
  have ha := hm.accounts
  obtain ⟨kept, hspares, hkept⟩ := ha.call_spares c
  refine ⟨fun a hlive hrecord x hlo hhi => ?_, hspares.outside⟩
  have hhead := Nat.le_of_lt (ha.size_lt_payload hlive)
  have hpadded := a.size_le_padded
  refine hspares.payloads a.block (hkept a hlive hrecord) x ?_ ?_
  · rwa [Allocation.payload_block hhead]
  · rw [Allocation.tail_block hhead]
    omega

/-- Two neighbours, the second on a boundary of its own. What its holder has written to it is
there when the first, and with it the gap in between, has been released and cleared. -/
theorem live_payloads_untouched_behind_gap :
    let arena : Arena := ⟨.nonPaged, 0x10000, 0x140⟩
    let p : Pool := ⟨.full, trimmed arena⟩
    let m₀ := ((create arena .full).run Memory.zeroed).state
    let m₁ := ((p.allocate 20 0 .byLayout).run m₀).state
    let m₂ := ((p.allocate 8 128 .byLayout).run m₁).state
    let m₃ := ((m₂.set 0x10060 7).set 0x10100 8).set 0x10107 9
    let m₄ := ((p.free 0x10060).run m₃).state
    m₄.get 0x10100 = 8 ∧ m₄.get 0x10107 = 9 := by
  intro arena p m₀ m₁ m₂ m₃ m₄
  have h₀ : Reachable arena p m₀ [] := .create .full Memory.zeroed (by decide)
  have h₁ : Reachable arena p m₁ [⟨0x10060, 20, 0, .byLayout⟩] :=
    h₀.call_of_verdict (.allocate 20 0 .byLayout) (v := .ok 0x10060) (by decide +kernel)
  have h₂ : Reachable arena p m₂ [⟨0x10100, 8, 128, .byLayout⟩, ⟨0x10060, 20, 0, .byLayout⟩] :=
    h₁.call_of_verdict (.allocate 8 128 .byLayout) (v := .ok 0x10100) (by decide +kernel)
  have h₃ : Reachable arena p m₃ [⟨0x10100, 8, 128, .byLayout⟩, ⟨0x10060, 20, 0, .byLayout⟩] := by
    refine h₂.write fun x _ hx => ?_
    simp only [Held, List.mem_cons, List.not_mem_nil, or_false, exists_eq_or_imp,
      exists_eq_left] at hx
    rw [Memory.get_set, if_neg (by omega), Memory.get_set, if_neg (by omega), Memory.get_set,
      if_neg (by omega)]
  have hok : ((p.free 0x10060).run m₃).verdict = .ok 20 := by decide +kernel
  obtain ⟨hpayloads, -⟩ := live_payloads_untouched h₃ (.free 0x10060)
  unfold Call.record Call.perform at hpayloads
  rw [hok] at hpayloads
  have hkept := hpayloads ⟨0x10100, 8, 128, .byLayout⟩ (by decide) (by decide)
  refine ⟨(hkept 0x10100 (by decide) (by decide)).trans ?_,
    (hkept 0x10107 (by decide) (by decide)).trans ?_⟩
  · simp [m₃, Memory.get_set]
  · simp [m₃, Memory.get_set]

end Pool

end KernelMemory
