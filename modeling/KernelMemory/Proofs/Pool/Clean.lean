import KernelMemory.Proofs.Pool.Ledger

/-!
# Bytes that nobody owns

Besides the headers and the payloads that clients hold, everything in the arena of a pool is
zero. A fresh arena is, an allocation writes headers only, and a client writes to what it
holds. The case with an argument is the release. What the block leaves behind is its header,
its payload with whatever a client wrote there, and the gap in front of it; all of this lies
between the two neighbours, which is the room that is cleared.
-/

namespace KernelMemory

namespace Pool

open Chain

variable {arena : Arena} {p : Pool} {m m' : Memory} {live : List Allocation} {a : Allocation}
  {order : List Allocation} {left right : List Block} {lo : Nat}

/-- A byte of the arena that no client holds and that is in no header is zero. -/
def Clean (p : Pool) (m : Memory) (live : List Allocation) : Prop :=
  ∀ x, p.contains x = true → ¬ Held live x →
    ¬ InHeader (p.base :: live.map Allocation.block) x → m.get x = 0

namespace Clean

theorem format {m : Memory} {a : Arena} (policy : Policy) (hlt : a.start + a.size < Word.bound) :
    Clean ⟨policy, a⟩ (format a m) [] := by
  intro x hx _ hin
  obtain ⟨hlo, hhi⟩ := (Accounts.contains_iff (p := ⟨policy, a⟩) hlt).mp hx
  have hout : x < a.start ∨ a.start + Header.size ≤ x :=
    .inr (Nat.le_of_not_lt fun hlt => hin ⟨_, List.mem_cons_self, hlo, hlt⟩)
  rw [Pool.format, Header.get_store_of_not_mem _ _ hout, Memory.get_clear, if_pos ⟨hlo, hhi⟩]

theorem insert (h : Clean p m live) (hperm : order.Perm live)
    (hsplit : order.map Allocation.block = left ++ right)
    (hframe : ∀ x, ¬ InHeader (p.base :: (left ++ a.block :: right)) x →
      m'.get x = 0 ∨ m'.get x = m.get x) : Clean p m' (a :: live) := by
  intro x hx hheld hin
  have hrow : left ++ a.block :: right ⊆ (a :: live).map Allocation.block := by
    intro b hb
    have hmem : b ∈ left ++ right → b ∈ live.map Allocation.block := fun hb =>
      (hperm.map Allocation.block).subset (hsplit ▸ hb)
    simp only [List.mem_append, List.map_cons, List.mem_cons] at hb hmem ⊢
    tauto
  rcases hframe x fun h => hin (h.mono (List.cons_subset_cons _ hrow)) with h0 | h0
  · exact h0
  · rw [h0]
    refine h x hx ?_ fun h => hin (h.mono (List.cons_subset_cons _ (List.subset_cons_self _ _)))
    rintro ⟨c, hc, hbounds⟩
    exact hheld ⟨c, List.mem_cons_of_mem a hc, hbounds⟩

theorem remove {live' front back : List Allocation} {hi : Nat} (h : Clean p m live)
    (hperm : (front ++ a :: back).Perm live) (hperm' : (front ++ back).Perm live')
    (hhead : Header.size ≤ a.payload) (hlo : lo ≤ a.block.address) (hhi : a.block.tail ≤ hi)
    (hframe : ∀ x, ¬ InHeader (p.base :: (front ++ back).map Allocation.block) x →
      m'.get x = (m.clear lo hi).get x) : Clean p m' live' := by
  intro x hx hheld hin
  have hcases : ∀ c ∈ live, c ∈ live' ∨ c = a := by
    intro c hc
    rw [← hperm'.mem_iff]
    rw [← hperm.mem_iff] at hc
    simp only [List.mem_append, List.mem_cons] at hc ⊢
    tauto
  have hrow := List.cons_subset_cons p.base (hperm'.map Allocation.block).subset
  rw [hframe x fun h => hin (h.mono hrow), Memory.get_clear]
  split
  · rfl
  · next hout =>
    -- neither the header of the block nor its payload is left
    have hnot : ¬ (a.block.address ≤ x ∧ x < a.block.tail) := by omega
    refine h x hx ?_ ?_
    · rintro ⟨c, hc, hbounds⟩
      rcases hcases c hc with hc | rfl
      · exact hheld ⟨c, hc, hbounds⟩
      · have hsize := c.size_le_padded
        have haddress : c.block.address = c.payload - Header.size := rfl
        rw [Allocation.tail_block hhead] at hnot
        omega
    · rintro ⟨d, hd, hbounds⟩
      rcases List.mem_cons.mp hd with rfl | hd
      · exact hin ⟨p.base, List.mem_cons_self, hbounds⟩
      · obtain ⟨c, hc, rfl⟩ := List.mem_map.mp hd
        rcases hcases c hc with hc | rfl
        · exact hin ⟨c.block, List.mem_cons_of_mem _ (List.mem_map_of_mem hc), hbounds⟩
        · unfold Block.tail at hnot
          omega

theorem call (ha : Accounts arena p m live) (h : Clean p m live) (c : Call) :
    Clean p ((c.perform p).outcome m).2 (c.record ((c.perform p).outcome m).1 live) := by
  obtain ⟨order, hperm, hp⟩ := ha.holds
  cases c with
  | allocate size alignment tag =>
      unfold Call.perform
      rcases hp.allocate_cases size alignment tag with
        ⟨e, -, hout⟩ | ⟨payload, m', left, right, hsplit, -, hout, -, -, hframe⟩
      · rw [hout]
        exact h
      · rw [hout]
        exact h.insert hperm hsplit fun x hx => .inr (hframe x hx)
  | allocateZeroed size alignment tag =>
      unfold Call.perform
      rcases hp.allocateZeroed_cases size alignment tag with
        ⟨e, -, hout⟩ | ⟨payload, m', left, right, hsplit, -, hout, -, -, hframe⟩
      · rw [hout]
        exact h
      · rw [hout]
        refine h.insert hperm hsplit fun x hx => ?_
        rw [hframe x hx, Memory.get_clear]
        split
        · exact .inl rfl
        · exact .inr rfl
  | free payload =>
      unfold Call.perform
      rcases hp.free_cases payload with
        ⟨-, hout⟩ | ⟨left, b, right, m', lo, hsplit, rfl, hout, -, -, hlo, hframe⟩
      · rw [hout]
        exact h
      · rw [hout]
        have hrow := hp.row.tail
        have htail := (hsplit ▸ hrow).sublist (List.sublist_append_right left _) |>.tail_le_first
        obtain ⟨front, rest, rfl, rfl, hrest⟩ := List.map_eq_append_iff.mp hsplit
        obtain ⟨a, back, rfl, rfl, rfl⟩ := List.map_eq_cons_iff.mp hrest
        have hhead := ha.size_lt_payload (hperm.mem_iff.mp (by simp : a ∈ front ++ a :: back))
        rw [← List.map_append] at hframe
        exact h.remove hperm (ha.perm_filter hperm hrow) (Nat.le_of_lt hhead) hlo htail hframe

end Clean

/-- Every byte that nobody owns is zero after every run. -/
theorem Reachable.clean (h : Reachable arena p m live) : Clean p m live := by
  induction h with
  | create policy m h =>
      obtain ⟨rfl, hcreate⟩ := create_of_ok h
      obtain ⟨hout, hp⟩ := hcreate policy m
      rw [Operation.state_run, hout]
      exact .format policy hp.stop_lt
  | call hm c hreply h =>
      subst hreply
      rw [Operation.verdict_run, Operation.state_run]
      exact h.call hm.accounts c
  | write _ h' h =>
      intro x hx hheld hin
      rw [h' x hx hheld]
      exact h x hx hheld hin

end Pool

end KernelMemory
