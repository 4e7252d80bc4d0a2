import KernelMemory.Proofs.Pool.Clean
import KernelMemory.Proofs.Pool.Damage

/-!
# Nothing is left behind

A client gets to see nothing of what the payloads that lay at the same place before were used
for, even if it does not ask for cleared memory. Between what one block takes, its header and
as much of its payload as was asked for, and the next header there is the padding of the
payload and the unused tail. Nobody holds these bytes and no header reaches into them, so
they are zero. An allocation is made in such a tail and writes nothing there but the header in
front of the payload.
-/

namespace KernelMemory

open Chain

variable {arena : Arena} {p : Pool} {m : Memory} {live order : List Allocation}
  {bs front back : List Block} {b c : Block} {start stop a x : Nat}

namespace Chain

/-- Between what a block takes and the next header no other block takes anything. -/
theorem Row.not_taken (h : Row start stop (front ++ b :: back))
    (hlo : b.payload + b.header.used ≤ x) (hhi : x < first stop back)
    (hc : c ∈ front ++ b :: back) : x < c.address ∨ c.payload + c.header.used ≤ x := by
  have htail : c.payload + c.header.used ≤ c.tail := Nat.le_add_right _ _
  have haddress : b.address ≤ b.payload := Nat.le_add_right _ _
  rcases List.mem_append.mp hc with hfront | hrest
  · have hle := h.tail_le_of_append c hfront b List.mem_cons_self
    exact .inr (by omega)
  · rcases List.mem_cons.mp hrest with rfl | hback
    · exact .inr hlo
    · have hrow := h.sublist (List.sublist_append_right front _)
      have hle := hrow.tail.first_le_address hback stop
      exact .inl (by omega)

end Chain

namespace Pool

/-- The padding and the tail of a block are zero. -/
theorem Clean.get_eq_zero (h : Clean p m live) (ha : Accounts arena p m live) (hperm : order.Perm live)
    (hp : p.Holds m (order.map Allocation.block))
    (hsplit : p.base :: order.map Allocation.block = front ++ b :: back)
    (hlo : b.payload + b.header.used ≤ x) (hhi : x < first p.stop back) : m.get x = 0 := by
  have hrow := hp.row
  rw [hsplit] at hrow
  have htaken : ∀ c ∈ p.base :: order.map Allocation.block,
      x < c.address ∨ c.payload + c.header.used ≤ x := fun c hc =>
    hrow.not_taken hlo hhi (hsplit ▸ hc)
  have hin := hrow.inside b (by simp)
  have hend := (hrow.sublist (List.sublist_append_right front _)).tail.first_le
  have haddress : b.address ≤ b.payload := Nat.le_add_right _ _
  refine h x ((Accounts.contains_iff hp.stop_lt).mpr ⟨by omega, by omega⟩) ?_ ?_
  · rintro ⟨c, hc, hlo, hhi⟩
    have hpayload := Allocation.payload_block (Nat.le_of_lt (ha.size_lt_payload hc))
    have hused : c.block.header.used = c.size := rfl
    have hle : c.block.address ≤ c.block.payload := Nat.le_add_right _ _
    have htaken := htaken c.block
      (List.mem_cons_of_mem _ (List.mem_map_of_mem (hperm.mem_iff.mpr hc)))
    omega
  · rintro ⟨c, hc, hlo, hhi⟩
    have hrow := List.cons_subset_cons p.base (hperm.symm.map Allocation.block).subset
    have htaken := htaken c (hrow hc)
    omega

/-- What the headers of the list say of the blocks is what the row says. -/
theorem Holds.exists_split_of_inList (hp : p.Holds m bs) (ha : InList p m a) :
    ∃ front b back, p.base :: bs = front ++ b :: back ∧ (⟨a, Header.load m a⟩ : Block) =
      b.linked (last 0 front) (first 0 back) (first p.stop back) := by
  obtain ⟨b, hb, rfl⟩ := hp.exists_of_inList ha
  obtain ⟨front, back, hsplit⟩ := List.append_of_mem hb
  have hcarries := hp.carries
  rw [hsplit] at hcarries
  simp only [thread_append, Carries.append_iff, Carries.thread_cons_iff] at hcarries
  refine ⟨front, b, back, hsplit, ?_⟩
  rw [hcarries.2.1]
  simp only [Block.linked]

namespace Reachable

/-- A payload is made where a tail was. -/
theorem get_of_allocate (hm : Reachable arena p m live) {size alignment payload : Nat} {tag : Tag}
    (hverdict : ((p.allocate size alignment tag).run m).verdict = .ok payload)
    (hlo : payload ≤ x) (hhi : x < payload + size) :
    ((p.allocate size alignment tag).run m).state.get x = 0 := by
  obtain ⟨order, hperm, hp⟩ := hm.accounts.holds
  rw [Operation.verdict_run] at hverdict
  rw [Operation.state_run]
  rcases hp.allocate_cases size alignment tag with
    ⟨e, -, hout⟩ | ⟨payload', m', left, right, hsplit, -, hout, hfits, hp', hframe⟩
  · rw [hout] at hverdict
    cases hverdict
  · rw [hout] at hverdict ⊢
    obtain rfl := Verdict.ok.inj hverdict
    have hhead := Nat.le_of_lt hfits.size_lt_payload
    have hpadded := Allocation.size_le_padded ⟨payload', size, alignment, tag⟩
    have hpayload := Allocation.payload_block hhead
    have htail := Allocation.tail_block hhead
    have hbelow := hfits.below
    obtain ⟨front, d, hdonor⟩ : ∃ front d, p.base :: left = front ++ [d] :=
      ⟨_, _, (List.dropLast_append_getLast (List.cons_ne_nil p.base left)).symm⟩
    have habove := hfits.above d (by rw [hdonor]; simp)
    have hused : d.payload + d.header.used ≤ d.tail := Nat.le_add_right _ _
    simp only at hpadded hpayload htail hbelow habove
    rw [hframe x (hp'.row.not_inHeader
      (b := Allocation.block ⟨payload', size, alignment, tag⟩) (by simp) (by omega) (by omega))]
    have hrow : p.base :: order.map Allocation.block = front ++ d :: right := by
      rw [hsplit, cons_append_of_split hdonor]
    exact hm.clean.get_eq_zero hm.accounts hperm hp hrow (by omega) (by omega)

theorem get_of_inList (hm : Reachable arena p m live) (ha : InList p m a) {b : Block}
    (hb : b = ⟨a, Header.load m a⟩) (hlo : b.payload + b.header.used ≤ x) (hhi : x < b.stop) :
    m.get x = 0 := by
  obtain ⟨order, hperm, hp⟩ := hm.accounts.holds
  obtain ⟨front, c, back, hsplit, heq⟩ := hp.exists_split_of_inList ha
  have hrow := hp.row
  rw [hsplit] at hrow
  have hend := (hrow.sublist (List.sublist_append_right front _)).tail_le_first
  rw [hb, heq] at hlo hhi
  rw [Block.payload_linked, Block.used_linked] at hlo
  rw [Block.stop_linked hend] at hhi
  exact hm.clean.get_eq_zero hm.accounts hperm hp hsplit hlo hhi

end Reachable

/-- No data gets from an allocation that was released to one that is made later. Whatever
clients have written to what they held, the bytes of a payload that is handed out are zero,
and so are, in the list of a pool after every run, the padding of every payload and every
unused tail. -/
theorem fresh_payload_blank (hm : Reachable arena p m live) :
    (∀ size alignment tag payload,
      ((p.allocate size alignment tag).run m).verdict = .ok payload →
      ∀ x, payload ≤ x → x < payload + size →
        ((p.allocate size alignment tag).run m).state.get x = 0) ∧
    ∀ a, InList p m a →
      let b : Block := ⟨a, Header.load m a⟩
      (∀ x, b.payload + b.header.used ≤ x → x < b.tail → m.get x = 0) ∧
        ∀ x, b.tail ≤ x → x < b.stop → m.get x = 0 := by
  refine ⟨fun _ _ _ _ hverdict _ => hm.get_of_allocate hverdict, ?_⟩
  intro a ha b
  have hused : b.payload + b.header.used ≤ b.tail := Nat.le_add_right _ _
  refine ⟨fun x hlo hhi => ?_, fun x hlo hhi => ?_⟩
  · exact hm.get_of_inList ha rfl hlo (Nat.lt_of_lt_of_le hhi b.tail_le_stop)
  · exact hm.get_of_inList ha rfl (Nat.le_trans hused hlo) hhi

/-- A payload is written to, released, and handed out again, for a smaller request: none of what
was written shows in the new payload, nor in the padding behind it. -/
theorem fresh_payload_blank_after_write :
    let arena : Arena := ⟨.nonPaged, 0x10000, 0x100⟩
    let p : Pool := ⟨.touched, trimmed arena⟩
    let m₀ := ((create arena .touched).run Memory.zeroed).state
    let m₁ := ((p.allocate 20 0 .byLayout).run m₀).state
    let m₂ := m₁.set 0x10062 0xff
    let m₃ := ((p.free 0x10060).run m₂).state
    let m₄ := ((p.allocate 1 0 .byLayout).run m₃).state
    m₂.get 0x10062 = 0xff ∧ m₄.get 0x10060 = 0 ∧ m₄.get 0x10062 = 0 ∧ m₄.get 0x10070 = 0 := by
  intro arena p m₀ m₁ m₂ m₃ m₄
  have h₀ : Reachable arena p m₀ [] := .create .touched Memory.zeroed (by decide)
  have h₁ : Reachable arena p m₁ [⟨0x10060, 20, 0, .byLayout⟩] :=
    h₀.call_of_verdict (.allocate 20 0 .byLayout) (v := .ok 0x10060) (by decide +kernel)
  have h₂ : Reachable arena p m₂ [⟨0x10060, 20, 0, .byLayout⟩] := by
    refine h₁.write fun x _ hx => ?_
    rw [Memory.get_set, if_neg]
    rintro rfl
    exact hx ⟨_, List.mem_cons_self, by decide, by decide⟩
  have h₃ : Reachable arena p m₃ [] :=
    h₂.call_of_verdict (.free 0x10060) (v := .ok 20) (by decide +kernel)
  have hverdict : ((p.allocate 1 0 .byLayout).run m₃).verdict = .ok 0x10060 := by decide +kernel
  have h₄ : Reachable arena p m₄ [⟨0x10060, 1, 0, .byLayout⟩] :=
    h₃.call_of_verdict (.allocate 1 0 .byLayout) hverdict
  have hblock : (⟨0x10030, Header.load m₄ 0x10030⟩ : Block).payload = 0x10060 ∧
      (Header.load m₄ 0x10030).used = 1 ∧
      (⟨0x10030, Header.load m₄ 0x10030⟩ : Block).tail = 0x10070 ∧
      (⟨0x10030, Header.load m₄ 0x10030⟩ : Block).stop = 0x10100 := by decide +kernel
  have hnext : (Header.load m₄ p.start).next = 0x10030 := by decide +kernel
  have hin : InList p m₄ 0x10030 := by
    rw [← hnext]
    exact .next .first (by rw [hnext]; decide)
  obtain ⟨hpayload, hused, htail, hstop⟩ := hblock
  obtain ⟨hpadding, hunused⟩ := (fresh_payload_blank h₄).2 0x10030 hin
  simp only [hpayload, hused, htail, hstop] at hpadding hunused
  have hwritten : m₂.get 0x10062 = 0xff := by rw [Memory.get_set, if_pos rfl]
  have hfresh := (fresh_payload_blank h₃).1 1 0 .byLayout _ hverdict
  exact ⟨hwritten, hfresh _ (by decide) (by decide), hpadding _ (by decide) (by decide),
    hunused _ (by decide) (by decide)⟩

end Pool

end KernelMemory
