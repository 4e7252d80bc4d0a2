import KernelMemory.Proofs.Pool.Guard
import KernelMemory.Proofs.Pool.Ledger

/-!
# Damage to a header is detected

Somebody who writes past the end of a payload writes into the header behind it. Whatever the
run was that led to it, a single byte that is changed in one of the headers of a pool cannot
stay unnoticed. The checks of the whole pool get as far as the damaged header, since those in
front of it are what they were, and stop there. A call checks what it reads. It could still
hide the damage, by sealing the header anew, or act on a link that leads astray. Neither
happens, since no header is written that was not checked before, and no link is followed out
of one that was not.
-/

namespace KernelMemory

namespace Pool

open Chain Header

variable {ε : Type} {arena : Arena} {p : Pool} {m m' : Memory} {live : List Allocation}
  {bs left right front back : List Block} {b d : Block} {a : Nat}

/-! ## Checks of the whole pool -/

theorem first_of_split {d : Nat} (hsplit : p.base :: bs = front ++ b :: back) :
    first b.address front = p.start := by
  have hfirst := congrArg (first d) hsplit
  rw [first_append, first_cons] at hfirst
  exact hfirst.symm

/-- An audit gets as far as the damaged header. -/
theorem Holds.audit_of_damaged (hp : p.Holds m bs) (hb : b ∈ p.base :: bs)
    (hsame : SameBut b.address m m') (hdamaged : (load m' b.address).isIntact = false) :
    p.audit m' = .error (.checksumMismatch b.address (load m' b.address).checksum
      (load m' b.address).computed) := by
  have hin := hp.row.inside b hb
  have hlie := hp.row.canLie b hb
  have hsize := b.address_add_size_le_tail
  have hstop := hp.stop_lt
  obtain ⟨front, back, hsplit⟩ := List.append_of_mem hb
  have hrow := hp.row
  have hcarries := hp.carries
  rw [hsplit] at hrow hcarries
  have hwalk := auditFrom_thread hstop hrow.front (by omega) (carries_front hrow hcarries hsame)
  rw [first_of_split (d := 0) hsplit] at hwalk
  rw [audit, hwalk, auditFrom, if_neg (ne_zero_of_canLieAt hlie), if_neg (by omega),
    if_neg (by omega), if_neg (by omega), if_neg (by rw [hlie]; decide)]
  simp only [hdamaged]
  rfl

theorem Holds.outcome_tally_of_damaged (hp : p.Holds m bs) (hb : b ∈ p.base :: bs)
    (hsame : SameBut b.address m m') (hdamaged : (load m' b.address).isIntact = false) :
    (p.tally : Operation Memory ε Tally).outcome m' = (.fault (.damagedBlock b.address), m') := by
  have hin := hp.row.inside b hb
  have hlie := hp.row.canLie b hb
  have hsize := b.address_add_size_le_tail
  have hstop := hp.stop_lt
  have hlength := hp.row.length_le_longest hstop
  obtain ⟨front, back, hsplit⟩ := List.append_of_mem hb
  have hrow := hp.row
  have hcarries := hp.carries
  rw [hsplit] at hrow hcarries hlength
  obtain ⟨steps, hsteps⟩ : ∃ n, longest = front.length + (n + 1) :=
    ⟨longest - (front.length + 1), by simp at hlength; omega⟩
  have htally : (p.tally : Operation Memory ε Tally) =
      tallyFrom (front.length + (steps + 1)) (first b.address front) .empty := by
    rw [← hsteps, first_of_split (d := 0) hsplit]
    rfl
  rw [htally, outcome_tallyFrom hrow.front (by omega) (carries_front hrow hcarries hsame),
    tallyFrom, fold, if_neg (ne_zero_of_canLieAt hlie),
    Operation.outcome_bind_fault (outcome_verified_of_damaged hlie hdamaged)]

theorem Holds.alarms_selfCheck (hp : p.Holds m bs) (hb : b ∈ p.base :: bs)
    (hfull : p.policy = .full) :
    Alarms b.address m (p.selfCheck : Operation Memory ε Unit) := by
  intro m' hsame hdamaged
  refine ⟨_, ?_, .pool p.kind (load m' b.address).checksum (load m' b.address).computed⟩
  unfold selfCheck
  rw [hfull]
  dsimp only
  rw [Operation.outcome_get_bind, hp.audit_of_damaged hb hsame hdamaged]
  rfl

theorem Holds.guards_selfCheck (hp : p.Holds m bs) (hb : b ∈ p.base :: bs) :
    Guards b.address m (p.selfCheck : Operation Memory ε Unit) fun _ _ => True := by
  cases hpolicy : p.policy with
  | touched =>
      unfold selfCheck
      rw [hpolicy]
      exact .trivial_of_ignores (.pure ())
  | full => exact .alarms (hp.alarms_selfCheck hb hpolicy)

/-! ## Allocating -/

theorem guards_carve {donor : Block} {start size padded alignment : Nat} {tag : Tag}
    (hlie : Block.canLieAt a = true) (hnew : Apart a (start - Header.size))
    (hdonor : Apart a donor.address)
    (hnext : donor.header.next ≠ 0 → donor.header.next = a ∨ Apart a donor.header.next) :
    Guards a m (carve donor start size padded alignment tag : Operation Memory ε Unit)
      fun _ _ => True := by
  unfold carve
  refine (Guards.trivial_of_ignores (.store _ hnew)).bind fun _ _ _ _ => ?_
  refine (Guards.trivial_of_ignores (.reseal hdonor _)).bind fun _ _ _ _ => ?_
  split
  · next h =>
    refine (guards_verified hlie (hnext h)).bind fun c _ _ hc => ?_
    exact .trivial_of_ignores (.reseal (hc.1 ▸ hc.2) _)
  · exact .trivial_of_ignores (.pure ())

theorem Holds.guards_place (hp : p.Holds m bs) (hb : b ∈ p.base :: bs) {size alignment : Nat}
    (hsize : 0 < size) (halign : Header.alignment ∣ max alignment Header.alignment) (tag : Tag) :
    Guards b.address m (p.place size (max alignment Header.alignment) tag :
      Operation Memory ε (Option Nat)) fun _ _ => True := by
  have hlie := hp.row.canLie b hb
  unfold place
  cases hround : Word.roundUp? Header.alignment size with
  | none => exact .trivial_of_ignores (.pure none)
  | some padded =>
      obtain ⟨rfl, -⟩ := Word.roundUp?_eq_some_iff.mp hround
      refine (guards_search hp.row hb hp.carries (fun _ hc => hp.outcome_room _ _ hc)
        (hp.row.length_le_longest hp.stop_lt)).bind fun found m₁ hfound hpost => ?_
      obtain ⟨hroom, rfl⟩ := Prod.mk.inj ((hp.outcome_searchRoom _ _).symm.trans hfound)
      cases found with
      | none => exact .trivial_of_ignores (.pure none)
      | some found =>
          obtain ⟨donor, payload⟩ := found
          obtain ⟨c, -, hc, hne⟩ := hpost _ rfl
          obtain ⟨left, right, front, d, rfl, hleft, rfl, hfits⟩ :=
            hp.donorIn?_spec hsize halign tag (Verdict.ok.inj hroom)
          obtain ⟨_, -, heq⟩ := Option.map_eq_some_iff.mp hc
          obtain ⟨rfl, -⟩ := Prod.mk.inj heq
          rw [Block.address_linked] at hne
          have hd : d ∈ p.base :: (left ++ right) := by
            rw [cons_append_of_split hleft]
            simp
          have hdonor : Apart b.address d.address :=
            (apart_of_row hp.row hb hd).resolve_left fun h => hne (congrArg Block.address h)
          have hnew := (hp.insertBehind hleft hfits).row
          have hcarved : Apart b.address (payload - Header.size) := by
            refine (apart_of_row hnew (b := b)
              (c := Allocation.block ⟨payload, size, alignment, tag⟩) ?_ (by simp)).resolve_left
              fun h => ?_
            · simp only [List.mem_cons, List.mem_append] at hb ⊢
              tauto
            · have hothers : ∀ c ∈ (p.base :: left) ++ right, c.address ≠ _ := Row.address_ne hnew
              exact hothers b hb (by rw [h])
          refine (guards_carve hlie hcarved ?_ ?_).bind fun _ _ _ _ => ?_
          · rwa [Block.address_linked]
          · rw [Block.next_linked]
            cases right with
            | nil => exact fun h => absurd rfl h
            | cons e rest =>
                intro _
                rw [first_cons]
                exact (apart_of_row hp.row hb (by simp)).imp_left fun h => congrArg _ h
          · exact .trivial_of_ignores ((Ignores.note _ _).bind fun _ _ _ => .pure _)

theorem Holds.guards_find? (hp : p.Holds m bs) (hb : b ∈ p.base :: bs) (payload : Nat) :
    Guards b.address m (p.find? payload : Operation Memory ε (Option Block))
      fun found _ => ∀ c, found = some c → c.address ≠ b.address := by
  unfold find?
  split
  · refine .ignores (.pure none) fun found _ hfound c hc => ?_
    rw [hc] at hfound
    cases hfound
  · refine (guards_search hp.row hb hp.carries (fun _ _ _ => rfl)
      (hp.row.length_le_longest hp.stop_lt)).bind fun met m₁ _ hmet => ?_
    refine .ignores (.pure _) fun found _ hfound c hc => ?_
    obtain rfl := Verdict.ok.inj (Prod.mk.inj hfound).1
    obtain ⟨d, -, hd, hne⟩ := hmet c (Option.filter_eq_some_iff.mp hc).1
    split at hd
    · obtain rfl := Option.some.inj hd
      exact hne
    · cases hd

/-! ## Releasing -/

theorem guards_survivorBefore {prev next stop : Nat} (hlie : Block.canLieAt d.address = true)
    (hd : d.address = a ∨ Apart a d.address)
    (hload : Header.load m d.address = (d.linked prev next stop).header)
    (hkept : (d.header.isHead || !d.header.isFree) = true) (hprev : b.header.prev = d.address) :
    Guards a m (survivorBefore b : Operation Memory ε Block)
      fun first m₁ => first = d.linked prev next stop ∧ m₁ = m ∧ Apart a d.address := by
  rw [survivorBefore, hprev]
  refine (guards_find hlie hd hload ?_).bind fun found m₁ _ hfound => ?_
  · rwa [Block.isHead_linked, Block.isFree_linked]
  · obtain ⟨rfl, rfl, hap⟩ := hfound
    refine .ignores (.pure _) fun first m₂ hfirst => ?_
    obtain ⟨hverdict, rfl⟩ := Prod.mk.inj hfirst
    exact ⟨(Verdict.ok.inj hverdict).symm, rfl, hap⟩

theorem guards_survivorAfter {prev stop : Nat}
    (hlie : ∀ c ∈ back, Block.canLieAt c.address = true)
    (hback : ∀ c ∈ back, c.address = a ∨ Apart a c.address)
    (hlive : ∀ c ∈ back, c.header.isLive = true)
    (hcarries : Carries m (thread 0 stop prev back)) (hnext : b.header.next = first 0 back) :
    Guards a m (survivorAfter b : Operation Memory ε (Option Block))
      fun after _ => (after.map Block.address).getD stop = first stop back ∧
        ∀ c, after = some c → Apart a c.address := by
  rw [survivorAfter, hnext]
  cases back with
  | nil =>
      have hout : ∀ m, (find Header.next (fun h => !h.isFree) (first 0 []) :
          Operation Memory ε (Option Block)).outcome m = (.ok none, m) := by
        intro m
        rw [find, search.eq_def]
        rfl
      refine .ignores (.of_outcome fun m' _ => hout m') fun after _ hafter => ?_
      obtain rfl := Verdict.ok.inj (Prod.mk.inj ((hout m).symm.trans hafter)).1
      exact ⟨rfl, by simp⟩
  | cons c rest =>
      rw [Carries.thread_cons_iff] at hcarries
      have hused := (isLive_iff.mp (hlive c List.mem_cons_self)).2
      refine (guards_find (hlie c List.mem_cons_self) (hback c List.mem_cons_self) hcarries.1
        ?_).mono fun after _ hafter => ?_
      · rw [Block.isFree_linked]
        simpa [Header.isFree] using hused
      · obtain ⟨rfl, -, hap⟩ := hafter
        refine ⟨Block.address_linked, fun d hd => ?_⟩
        obtain rfl := Option.some.inj hd
        rwa [Block.address_linked]

/-- Between the two neighbours of a block that is taken out lies no other header. -/
theorem apart_of_room {e : Block} {start stop : Nat}
    (hrow : Row start stop (front ++ e :: d :: right)) (hb : b ∈ front ++ e :: right) :
    b.address + Header.size ≤ e.tail ∨ first stop right ≤ b.address := by
  have hsize := b.address_add_size_le_tail
  rw [List.mem_append, List.mem_cons] at hb
  rcases hb with hb | rfl | hb
  · have hle := hrow.tail_le_of_append b hb e List.mem_cons_self
    exact .inl (Nat.le_trans (Nat.le_trans hsize hle)
      (Nat.le_trans (Nat.le_add_right _ _) e.address_add_size_le_tail))
  · exact .inl hsize
  · exact .inr ((hrow.sublist (List.sublist_append_right front _)).tail.tail.first_le_address hb _)

/-- Taking out a block other than the damaged one. -/
theorem Holds.guards_unlink (hp : p.Holds m (left ++ d :: right))
    (hb : b ∈ p.base :: (left ++ right)) :
    Guards b.address m
      (p.unlink (d.linked (last p.start left) (first 0 right) (first p.stop right)) :
        Operation Memory ε Nat) fun _ _ => True := by
  obtain ⟨front, e, hsplit⟩ : ∃ front e, p.base :: left = front ++ [e] :=
    ⟨_, _, (List.dropLast_append_getLast (List.cons_ne_nil p.base left)).symm⟩
  have hrow := hp.row
  have hcarries := hp.carries
  have hb' : b ∈ p.base :: (left ++ d :: right) := by
    simp only [List.mem_cons, List.mem_append] at hb ⊢
    tauto
  have hlie := hrow.canLie b hb'
  have hor : ∀ c ∈ p.base :: (left ++ d :: right),
      c.address = b.address ∨ Apart b.address c.address := fun c hc =>
    (apart_of_row hrow hb' hc).imp_left (congrArg Block.address)
  have hkept := hp.survives (d := e) (by rw [cons_append_of_split hsplit]; simp)
  rw [cons_append_of_split hsplit] at hrow hcarries hor
  rw [cons_append_of_split hsplit] at hb
  have hrow' := hrow.sublist (List.sublist_append_right front _)
  simp only [thread_append, Carries.append_iff, Carries.thread_cons_iff, first_cons] at hcarries
  obtain ⟨-, hfront, -, hbehind⟩ := hcarries
  rw [unlink]
  refine (guards_survivorBefore (hrow'.canLie e (by simp)) (hor e (by simp)) hfront hkept
    ?_).bind fun before m₁ _ hbefore => ?_
  · rw [Block.prev_linked]
    exact last_of_split hsplit
  obtain ⟨rfl, rfl, he⟩ := hbefore
  refine (guards_survivorAfter (fun c hc => hrow'.canLie c (by simp [hc]))
    (fun c hc => hor c (by simp [hc])) (fun c hc => hp.live c (by simp [hc])) hbehind
    Block.next_linked).bind fun after m₂ _ hafter => ?_
  obtain ⟨hstop, hap⟩ := hafter
  refine (Guards.sum _).bind fun tail _ _ htail => ?_
  refine (Guards.trivial_of_ignores (.difference _ _)).bind fun unused _ _ _ => ?_
  refine (Guards.trivial_of_ignores (.clear ?_)).bind fun _ _ _ _ => ?_
  · rw [hstop, htail, Block.tail_linked]
    exact apart_of_room hrow hb
  refine (Guards.trivial_of_ignores (.reseal ?_ _)).bind fun _ _ _ _ => ?_
  · rwa [Block.address_linked]
  cases after with
  | none => exact .trivial_of_ignores ((Ignores.note _ _).bind fun _ _ _ => .pure _)
  | some after =>
      refine (Guards.trivial_of_ignores (.reseal (hap after rfl) _)).bind fun _ _ _ _ => ?_
      exact .trivial_of_ignores ((Ignores.note _ _).bind fun _ _ _ => .pure _)

/-! ## The calls -/

/-- A call that has done its work, or found nothing to do, checks the pool and answers. -/
theorem Holds.guards_settle {op : PoolOperation (Option Nat)} {last : Option Nat → PoolOperation Nat}
    {answer : Option Nat} {m₁ : Memory} (hop : Guards b.address m op fun _ _ => True)
    (hout : op.outcome m = (.ok answer, m₁)) (hp : p.Holds m₁ bs) (hb : b ∈ p.base :: bs)
    (hlast : ∀ m, Ignores b.address m (last answer)) :
    Guards b.address m (do let answer ← op; p.selfCheck; last answer) (fun _ _ => True) ∧
      (p.policy = .full → Alarms b.address m (do let answer ← op; p.selfCheck; last answer)) := by
  refine hop.bind_of_outcome hout fun _ => ⟨?_, fun hfull => ?_⟩
  · exact (hp.guards_selfCheck hb).bind fun _ _ _ _ => .trivial_of_ignores (hlast _)
  · exact (hp.alarms_selfCheck hb hfull).bind _

/-- Arguments that a pool does not refuse at once. -/
def Call.IsValid : Call → Prop
  | .allocate size alignment _ | .allocateZeroed size alignment _ =>
    0 < size ∧ (alignment = 0 ∨ Word.isPowerOfTwo alignment = true)
  | .free _ => True

theorem effectiveAlignment_eq_error {alignment : Nat} {e : PoolError}
    (h : effectiveAlignment alignment = .error e) :
    ¬ (alignment = 0 ∨ Word.isPowerOfTwo alignment = true) := by
  unfold effectiveAlignment at h
  split at h
  · cases h
  · split at h
    · cases h
    · tauto

theorem Holds.guards_allocate (hp : p.Holds m bs) (hb : b ∈ p.base :: bs)
    (size alignment : Nat) (tag : Tag) :
    Guards b.address m (p.allocate size alignment tag) (fun _ _ => True) ∧
      (p.policy = .full → (Call.allocate size alignment tag).IsValid →
        Alarms b.address m (p.allocate size alignment tag)) := by
  unfold allocate
  split
  · next hzero =>
    refine ⟨.trivial_of_ignores (.refuse _), fun _ hvalid => ?_⟩
    exact absurd hzero (Nat.ne_of_gt hvalid.1)
  · next hsize =>
    rcases effectiveAlignment_cases alignment with ⟨e, halign⟩ | ⟨halign, hdvd⟩
    · rw [halign]
      refine ⟨.trivial_of_ignores ((Ignores.ofExcept _).bind fun _ _ h => nomatch h), ?_⟩
      exact fun _ hvalid => absurd hvalid.2 (effectiveAlignment_eq_error halign)
    · rw [halign]
      have hplace := hp.guards_place (ε := PoolError) hb (Nat.pos_of_ne_zero hsize) hdvd tag
      rw [show (Operation.ofExcept (.ok (max alignment Header.alignment)) :
        PoolOperation Nat) = pure (max alignment Header.alignment) from rfl, pure_bind]
      rcases hp.outcome_place (ε := PoolError) (Nat.pos_of_ne_zero hsize) hdvd tag with
        ⟨-, hout⟩ | ⟨payload, left, right, front, d, -, rfl, hsplit, hfits, hout⟩
      · exact (hp.guards_settle hplace hout hb fun _ =>
          (Ignores.note _ _).bind fun _ _ _ => .refuse _).imp_right fun h hfull _ => h hfull
      · have hp' := hp.insertBehind hsplit hfits
        have hb' : b ∈ p.base :: (left ++ (Allocation.block ⟨payload, size, alignment, tag⟩) ::
            right) := by
          simp only [List.mem_cons, List.mem_append] at hb ⊢
          tauto
        exact (hp'.guards_settle hplace hout hb' fun _ => .pure _).imp_right
          fun h hfull _ => h hfull

theorem Holds.guards_allocateZeroed (hp : p.Holds m bs) (hb : b ∈ p.base :: bs)
    (size alignment : Nat) (tag : Tag) :
    Guards b.address m (p.allocateZeroed size alignment tag) (fun _ _ => True) ∧
      (p.policy = .full → (Call.allocateZeroed size alignment tag).IsValid →
        Alarms b.address m (p.allocateZeroed size alignment tag)) := by
  obtain ⟨hguards, halarms⟩ := hp.guards_allocate hb size alignment tag
  unfold allocateZeroed
  refine ⟨hguards.bind fun start m₁ hstart _ => ?_, fun hfull hvalid => ?_⟩
  · refine (Guards.trivial_of_ignores (.clear ?_)).bind fun _ _ _ _ => ?_
    · rcases hp.allocate_cases size alignment tag with
        ⟨e, -, hout⟩ | ⟨payload, m', left, right, rfl, -, hout, hfits, hp', -⟩
      · cases hout.symm.trans hstart
      · obtain ⟨hverdict, rfl⟩ := Prod.mk.inj (hout.symm.trans hstart)
        obtain rfl := Verdict.ok.inj hverdict
        have hhead := Nat.le_of_lt hfits.size_lt_payload
        have hpayload := Allocation.payload_block hhead
        have htail := Allocation.tail_block hhead
        have hpadded := Allocation.size_le_padded ⟨payload, size, alignment, tag⟩
        have hap : ∀ c ∈ (p.base :: left) ++ right, c.tail ≤ _ ∨ _ ≤ c.address :=
          Row.apart hp'.row
        replace hap := hap b hb
        have hsize := b.address_add_size_le_tail
        unfold Block.payload at hpayload
        simp only at hpayload htail hpadded
        omega
    · exact .trivial_of_ignores (.pure _)
  · exact (halarms hfull hvalid).bind _

theorem Holds.guards_free (hp : p.Holds m bs) (hb : b ∈ p.base :: bs) (payload : Nat) :
    Guards b.address m (p.free payload) (fun _ _ => True) ∧
      (p.policy = .full → Alarms b.address m (p.free payload)) := by
  have hfind := hp.guards_find? (ε := PoolError) hb payload
  unfold free
  by_cases hmem : ∃ d ∈ bs, d.payload = payload
  · obtain ⟨d, hd, rfl⟩ := hmem
    obtain ⟨left, right, rfl⟩ := List.append_of_mem hd
    refine hfind.bind_of_outcome hp.outcome_find?_of_mem fun hne => ?_
    have hbd : b ≠ d := fun h => hne _ rfl (by rw [Block.address_linked, h])
    have hb' : b ∈ p.base :: (left ++ right) := by
      simp only [List.mem_cons, List.mem_append] at hb ⊢
      tauto
    obtain ⟨front, e, hsplit, hout⟩ := outcome_unlink (ε := PoolError) hp
    exact (hp.removeBehind hsplit).guards_settle
      ((hp.guards_unlink hb').bind fun _ _ _ _ => .trivial_of_ignores (.pure _))
      (Operation.outcome_map_ok hout some) hb' fun _ => .pure _
  · have hnone : ∀ d ∈ bs, d.payload ≠ payload := fun d hd h => hmem ⟨d, hd, h⟩
    refine hfind.bind_of_outcome (hp.outcome_find?_of_not_mem hnone) fun _ => ?_
    exact hp.guards_settle (.trivial_of_ignores (.pure none)) rfl hb fun _ =>
      (Ignores.note _ _).bind fun _ _ _ => .refuse _

/-- Every call raises the alarm at a damaged header or does not come near it, and under full
verification every call that gets to its checks raises it. -/
theorem Holds.guards_call (hp : p.Holds m bs) (hb : b ∈ p.base :: bs) (c : Call) :
    Guards b.address m (c.perform p) (fun _ _ => True) ∧
      (p.policy = .full → c.IsValid → Alarms b.address m (c.perform p)) := by
  cases c with
  | allocate size alignment tag => exact hp.guards_allocate hb size alignment tag
  | allocateZeroed size alignment tag => exact hp.guards_allocateZeroed hb size alignment tag
  | free payload => exact (hp.guards_free hb payload).imp_right fun h hfull _ => h hfull

/-! ## Every header of every run -/

/-- The addresses of the headers in the list of a pool: the first one, and those that the
links of the others lead to. -/
inductive InList (p : Pool) (m : Memory) : Nat → Prop
  | first : InList p m p.start
  | next {a : Nat} (h : InList p m a) (hnext : (Header.load m a).next ≠ 0) :
      InList p m (Header.load m a).next

theorem Holds.exists_of_inList (hp : p.Holds m bs) (ha : InList p m a) :
    ∃ b ∈ p.base :: bs, b.address = a := by
  induction ha with
  | first => exact ⟨p.base, List.mem_cons_self, rfl⟩
  | next _ hnext ih =>
      obtain ⟨b, hb, rfl⟩ := ih
      obtain ⟨front, back, hsplit⟩ := List.append_of_mem hb
      have hcarries := hp.carries
      rw [hsplit] at hcarries ⊢
      simp only [thread_append, Carries.append_iff, Carries.thread_cons_iff] at hcarries
      rw [hcarries.2.1, Block.next_linked] at hnext ⊢
      cases back with
      | nil => exact absurd rfl hnext
      | cons c rest => exact ⟨c, by simp, rfl⟩

theorem Holds.isIntact_load (hp : p.Holds m bs) (hb : b ∈ p.base :: bs) :
    (load m b.address).isIntact = true := by
  obtain ⟨front, back, hsplit⟩ := List.append_of_mem hb
  have hcarries := hp.carries
  rw [hsplit] at hcarries
  simp only [thread_append, Carries.append_iff, Carries.thread_cons_iff] at hcarries
  rw [hcarries.2.1]
  exact Block.isIntact_linked

theorem sameBut_set (m : Memory) {i : Nat} (hi : i < Header.size) (v : UInt8) :
    SameBut a m (m.set (a + i) v) := fun x hx => by
  rw [Memory.get_set, if_neg (by omega)]

/-- Every damage to a single byte of a header is detected. Whichever header of a pool it is
and whichever of its bytes is another one, the audit reports that header, adding up the blocks
faults at it, and a call that does not pass it by, whatever is in it, faults and names it.
Under full verification every release does so and every allocation that is not refused for its
arguments. -/
theorem header_damage_detected (hm : Reachable arena p m live) (ha : InList p m a) {i : Nat}
    (hi : i < Header.size) {v : UInt8} (hv : v ≠ m.get (a + i)) :
    (∃ stored computed,
      p.audit (m.set (a + i) v) = .error (.checksumMismatch a stored computed)) ∧
    ((p.tally : PoolOperation Tally).run (m.set (a + i) v)).verdict =
      .fault (.damagedBlock a) ∧
    (∀ c : Call, ¬ Ignores a m (c.perform p) →
      ∃ f, ((c.perform p).run (m.set (a + i) v)).verdict = .fault f ∧ f.Blames a) ∧
    (p.policy = .full → ∀ c : Call, c.IsValid →
      ∃ f, ((c.perform p).run (m.set (a + i) v)).verdict = .fault f ∧ f.Blames a) := by
  obtain ⟨order, -, hp⟩ := hm.accounts.holds
  obtain ⟨b, hb, rfl⟩ := hp.exists_of_inList ha
  have hsame : SameBut b.address m (m.set (b.address + i) v) := sameBut_set m hi v
  have hdamaged := isIntact_set (hp.isIntact_load hb) hi hv
  refine ⟨⟨_, _, hp.audit_of_damaged hb hsame hdamaged⟩, ?_, fun c hreads => ?_,
    fun hfull c hvalid => ?_⟩
  · rw [Operation.verdict_run, hp.outcome_tally_of_damaged hb hsame hdamaged]
  · rcases (hp.guards_call hb c).1 with halarms | ⟨hignores, -⟩
    · exact halarms _ hsame hdamaged
    · exact absurd hignores hreads
  · exact (hp.guards_call hb c).2 hfull hvalid _ hsame hdamaged

/-- The low byte of the checksum of an allocation's header is overwritten. A pool that only
verifies what it reads faults when the allocation is released. -/
theorem header_damage_detected_in_checksum :
    let arena : Arena := ⟨.nonPaged, 0x10000, 0x100⟩
    let p : Pool := ⟨.touched, trimmed arena⟩
    let m₀ := ((create arena .touched).run Memory.zeroed).state
    let m₁ := ((p.allocate 20 0 .byLayout).run m₀).state
    let m₂ := m₁.set (0x10030 + 4) 0xff
    (∃ stored computed, p.audit m₂ = .error (.checksumMismatch 0x10030 stored computed)) ∧
    ((p.tally : PoolOperation Tally).run m₂).verdict = .fault (.damagedBlock 0x10030) ∧
    ∃ f, ((p.free 0x10060).run m₂).verdict = .fault f ∧ f.Blames 0x10030 := by
  intro arena p m₀ m₁ m₂
  have h₀ : Reachable arena p m₀ [] := .create .touched Memory.zeroed (by decide)
  have h₁ : Reachable arena p m₁ [⟨0x10060, 20, 0, .byLayout⟩] :=
    h₀.call_of_verdict (.allocate 20 0 .byLayout) (v := .ok 0x10060) (by decide +kernel)
  have hnext : (Header.load m₁ p.start).next = 0x10030 := by decide +kernel
  have hin : InList p m₁ 0x10030 := by
    rw [← hnext]
    exact .next .first (by rw [hnext]; decide)
  obtain ⟨haudit, htally, hcall, -⟩ :=
    header_damage_detected h₁ hin (show 4 < Header.size by decide) (v := 0xff) (by decide +kernel)
  have hfree := hcall (.free 0x10060)
  unfold Call.perform at hfree
  refine ⟨haudit, htally, hfree fun hignores => ?_⟩
  -- with a zero in its tag the same header is damaged too, and then the release does not succeed
  have hverdict := (hignores _ (sameBut_set m₁ (show 0 < Header.size by decide) 0)).1
  have hok : ((p.free 0x10060).run m₁).verdict = .ok 20 := by decide +kernel
  have hfault : ((p.free 0x10060).run (m₁.set (0x10030 + 0) 0)).verdict =
      .fault (.damagedBlock 0x10030) := by decide +kernel
  rw [← Operation.verdict_run, ← Operation.verdict_run, hok, hfault] at hverdict
  cases hverdict

end Pool

end KernelMemory
