import KernelMemory.Proofs.Extent.Mutation

/-!
# A reclaim retypes exactly its range

Seen from an address, merging changes nothing: the extents of a stretch have the usage that
the one extent has that takes their place. And a cut changes nothing but the usage of its
range, because the flanks keep the usage of the extent that is cut. So a reclaim gives its
usage to the addresses of its range and leaves every other address as it is, tracked or not.
That needs no partition, so it also holds where single extents have been inserted or
deleted before.
-/

namespace KernelMemory

namespace ExtentMap

section Steps

variable {m m' : ExtentMap} {id : Handle} {range : Range} {usage : Usage}

/-! ## Addresses -/

theorem usageIn_stretch {pre left right post : List (Handle × Extent)} {e : Extent}
    {joined : Range} (hs : Stretch pre left id e right post joined) (address : Nat) :
    usageIn (left ++ (id, e) :: right) address = usageIn [(id, spread e joined)] address := by
  rw [hs.tiles.usageIn_eq hs.uniform, usageIn_cons]
  rfl

theorem Coalesced.usageAt?_eq (hc : Coalesced m id m') (h : m.Sound) (address : Nat) :
    m'.usageAt? address = m.usageAt? address := by
  obtain ⟨pre, left, e, right, post, joined, hl, hs, hm'⟩ := hc
  rw [h.usageAt?_eq, hm'.sound.usageAt?_eq, hl, hm'.toList_eq]
  calc usageIn (pre ++ (id, spread e joined) :: post) address
      = usageIn (pre ++ ([(id, spread e joined)] ++ post)) address := rfl
    _ = usageIn (pre ++ ((left ++ (id, e) :: right) ++ post)) address := by
        simp only [usageIn_append, usageIn_stretch hs]
    _ = usageIn ((pre ++ left) ++ (id, e) :: (right ++ post)) address := by
        simp only [List.append_assoc, List.cons_append]

theorem Flank.usageIn_eq {whole : Extent} {start stop : Nat} {l : List (Handle × Extent)}
    (h : Flank whole start stop l) (address : Nat) :
    usageIn l address = if start ≤ address ∧ address < stop then some whole.usage else none :=
  h.tiles.usageIn_eq h.usage_eq address

theorem usageIn_pieces {whole : Extent} (id target : Handle) (piece : Extent)
    {before after : List (Handle × Extent)} (hbefore : Flank whole whole.start piece.start before)
    (hafter : Flank whole piece.stop whole.stop after)
    (inside : whole.range.encloses piece.range = true) (address : Nat) :
    usageIn (before ++ (id, piece) :: after) address =
      if piece.range.contains address then some piece.usage
      else usageIn [(target, whole)] address := by
  have hstart : whole.start ≤ piece.start := (Range.encloses_iff.mp inside).1
  have hstop : piece.stop ≤ whole.stop := (Range.encloses_iff.mp inside).2
  have hlt := piece.start_lt_stop
  rw [usageIn_append, usageIn_cons, hbefore.usageIn_eq, hafter.usageIn_eq, usageIn_cons,
    usageIn_nil]
  simp only [Extent.contains_iff]
  by_cases hin : piece.start ≤ address ∧ address < piece.stop
  · rw [if_neg (by omega), if_pos hin, if_pos hin, Option.none_or]
  · rw [if_neg hin, if_neg hin]
    by_cases hleft : address < piece.start
    · rw [if_neg (by omega : ¬ (piece.stop ≤ address ∧ address < whole.stop)), Option.or_none]
      exact if_congr (by omega) rfl rfl
    · rw [if_neg (by omega : ¬ (whole.start ≤ address ∧ address < piece.start)), Option.none_or]
      exact if_congr (by omega) rfl rfl

theorem Carved.usageAt?_eq {pre post : List (Handle × Extent)} {target : Handle} {whole : Extent}
    (hc : Carved m pre whole post range usage id m') (h : m.Sound)
    (hl : m.toList = pre ++ (target, whole) :: post)
    (inside : whole.range.encloses range = true) (address : Nat) :
    m'.usageAt? address =
      if range.contains address then some usage else m.usageAt? address := by
  obtain ⟨before, after, m₁, hbefore, hafter, hm₁, hcoalesced⟩ := hc
  obtain ⟨-, hpre, -⟩ := h.ordered_of_split hl
  have hpieces := usageIn_pieces id target (Extent.unlisted range usage whole.usage).listed
    hbefore hafter inside address
  rw [hcoalesced.usageAt?_eq hm₁.sound, hm₁.sound.usageAt?_eq, h.usageAt?_eq, hm₁.toList_eq, hl]
  calc usageIn (pre ++ before ++ (id, (Extent.unlisted range usage whole.usage).listed) ::
        (after ++ post)) address
      = usageIn (pre ++ ((before ++ (id, (Extent.unlisted range usage whole.usage).listed) ::
          after) ++ post)) address := by
        simp only [List.append_assoc, List.cons_append]
    _ = (usageIn pre address).or ((if range.contains address then some usage
          else usageIn [(target, whole)] address).or (usageIn post address)) := by
        rw [usageIn_append, usageIn_append _ post, hpieces]
        rfl
    _ = if range.contains address then some usage
          else usageIn (pre ++ ([(target, whole)] ++ post)) address := by
        split
        · next hin =>
          have hnone : usageIn pre address = none := usageIn_eq_none fun p hp => by
            have := hpre p hp
            have := (Range.encloses_iff.mp inside).1
            have := Range.contains_iff.mp hin
            simp only [Extent.start] at *
            omega
          rw [hnone]
          rfl
        · rw [usageIn_append, usageIn_append]

theorem Retyped.usageAt?_eq (hr : Retyped m range usage id m') (h : m.Sound) (address : Nat) :
    m'.usageAt? address =
      if range.contains address then some usage else m.usageAt? address := by
  obtain ⟨pre, target, whole, post, hl, inside, ⟨rfl, rfl, rfl⟩ | ⟨-, hcarved⟩⟩ := hr
  · split
    · next hin =>
      have hmem : (id, whole) ∈ m'.toList := by simp [hl]
      exact h.usageAt?_of_mem hmem (Range.contains_of_encloses inside hin)
    · rfl
  · exact hcarved.usageAt?_eq h hl inside address

/-! ## The extent that is answered -/

theorem Stretch.encloses {pre left right post : List (Handle × Extent)} {e : Extent}
    {joined : Range} (hs : Stretch pre left id e right post joined) :
    joined.encloses e.range = true := by
  obtain ⟨cut, hleft, hstart, hright⟩ := tiles_append.mp hs.tiles
  have := hleft.start_le_stop
  have := hright.start_le_stop
  simp only [Extent.start, Extent.stop] at *
  exact Range.encloses_iff.mpr (by omega)

theorem Coalesced.get?_eq (hc : Coalesced m id m') (h : m.Sound) {e : Extent}
    (hget : m.get? id = some e) :
    ∃ joined, m'.get? id = some (spread e joined) ∧ joined.encloses e.range = true := by
  obtain ⟨pre, left, e', right, post, joined, hl, hs, hm'⟩ := hc
  obtain rfl : e' = e := Option.some.inj ((h.get?_of_split hl).symm.trans hget)
  exact ⟨joined, hm'.sound.get?_of_split hm'.toList_eq, hs.encloses⟩

theorem Retyped.get?_eq (hr : Retyped m range usage id m') (h : m.Sound) :
    ∃ e, m'.get? id = some e ∧ e.usage = usage ∧ e.range.encloses range = true := by
  obtain ⟨pre, target, whole, post, hl, inside, ⟨rfl, rfl, rfl⟩ | ⟨-, hcarved⟩⟩ := hr
  · exact ⟨whole, h.get?_of_split hl, rfl, inside⟩
  · obtain ⟨before, after, m₁, -, -, hm₁, hcoalesced⟩ := hcarved
    obtain ⟨joined, hget, hin⟩ :=
      hcoalesced.get?_eq hm₁.sound (hm₁.sound.get?_of_split hm₁.toList_eq)
    exact ⟨_, hget, rfl, hin⟩

/-! ## Boundaries and remembered usages -/

theorem Coalesced.boundary {D : Nat → Prop} (hc : Coalesced m id m')
    (hm : ∀ p ∈ m.toList, D p.2.start ∧ D p.2.stop) :
    ∀ p ∈ m'.toList, D p.2.start ∧ D p.2.stop := by
  obtain ⟨pre, left, e, right, post, joined, hl, hs, hm'⟩ := hc
  have hmem : ∀ p ∈ left ++ (id, e) :: right, p ∈ m.toList := by
    intro p hp
    rw [hl]
    simp only [List.mem_append, List.mem_cons] at hp ⊢
    tauto
  intro p hp
  rw [hm'.toList_eq, List.mem_append, List.mem_cons] at hp
  rcases hp with hp | rfl | hp
  · exact hm p (by rw [hl]; simp [hp])
  · constructor
    · obtain ⟨q, hq⟩ : ∃ q, (left ++ (id, e) :: right).head? = some q := by
        cases left <;> simp
      rw [show (spread e joined).start = joined.start from rfl, ← hs.tiles.start_of_head? hq]
      exact (hm q (hmem q (List.mem_of_head? hq))).1
    · obtain ⟨q, hq⟩ : ∃ q, (left ++ (id, e) :: right).getLast? = some q :=
        ⟨_, List.getLast?_eq_some_getLast (by simp)⟩
      rw [show (spread e joined).stop = joined.stop from rfl, ← hs.tiles.stop_of_getLast? hq]
      exact (hm q (hmem q (List.mem_of_getLast? hq))).2
  · exact hm p (by rw [hl]; simp [hp])

theorem Flank.ends {whole : Extent} {start stop : Nat} {l : List (Handle × Extent)}
    (h : Flank whole start stop l) : ∀ p ∈ l, p.2.start = start ∧ p.2.stop = stop := by
  match l, h with
  | [], _ => simp
  | [p], h => simpa using tiles_singleton.mp h.tiles
  | _ :: _ :: _, h => exact absurd h.length_le (by simp)

/-- A reclaim makes no boundaries but those of its range. -/
theorem Retyped.boundary {D : Nat → Prop} (hr : Retyped m range usage id m')
    (hm : ∀ p ∈ m.toList, D p.2.start ∧ D p.2.stop) (hrange : D range.start ∧ D range.stop) :
    ∀ p ∈ m'.toList, D p.2.start ∧ D p.2.stop := by
  obtain ⟨pre, target, whole, post, hl, -, ⟨-, -, rfl⟩ | ⟨-, hcarved⟩⟩ := hr
  · exact hm
  · obtain ⟨before, after, m₁, hbefore, hafter, hm₁, hcoalesced⟩ := hcarved
    have hwhole := hm (target, whole) (by rw [hl]; simp)
    refine hcoalesced.boundary ?_
    intro p hp
    rw [hm₁.toList_eq] at hp
    simp only [List.mem_append, List.mem_cons] at hp
    rcases hp with (hp | hp) | rfl | hp | hp
    · exact hm p (by rw [hl]; simp [hp])
    · obtain ⟨hstart, hstop⟩ := hbefore.ends p hp
      exact ⟨hstart ▸ hwhole.1, hstop ▸ hrange.1⟩
    · exact hrange
    · obtain ⟨hstart, hstop⟩ := hafter.ends p hp
      exact ⟨hstart ▸ hrange.2, hstop ▸ hwhole.2⟩
    · exact hm p (by rw [hl]; simp [hp])

theorem Coalesced.remembers {Q : Usage → Usage → Prop} (hc : Coalesced m id m')
    (hm : ∀ p ∈ m.toList, Q p.2.usage p.2.previous) :
    ∀ p ∈ m'.toList, Q p.2.usage p.2.previous := by
  obtain ⟨pre, left, e, right, post, joined, hl, -, hm'⟩ := hc
  intro p hp
  rw [hm'.toList_eq, List.mem_append, List.mem_cons] at hp
  rcases hp with hp | rfl | hp
  · exact hm p (by rw [hl]; simp [hp])
  · exact hm (id, e) (by rw [hl]; simp)
  · exact hm p (by rw [hl]; simp [hp])

/-- Every extent remembers a usage as before, or the usage that the range had. -/
theorem Retyped.remembers {Q : Usage → Usage → Prop} (hr : Retyped m range usage id m')
    (h : m.Sound) (hm : ∀ p ∈ m.toList, Q p.2.usage p.2.previous)
    (hrange : ∀ was, m.usageAt? range.start = some was → Q usage was) :
    ∀ p ∈ m'.toList, Q p.2.usage p.2.previous := by
  obtain ⟨pre, target, whole, post, hl, inside, ⟨-, -, rfl⟩ | ⟨-, hcarved⟩⟩ := hr
  · exact hm
  · obtain ⟨before, after, m₁, hbefore, hafter, hm₁, hcoalesced⟩ := hcarved
    have hmem : (target, whole) ∈ m.toList := by rw [hl]; simp
    have hflank : ∀ {start stop l}, Flank whole start stop l →
        ∀ p ∈ l, Q p.2.usage p.2.previous := by
      intro start stop l hf p hp
      rw [hf.usage_eq p hp, hf.previous_eq p hp]
      exact hm _ hmem
    refine hcoalesced.remembers ?_
    intro p hp
    rw [hm₁.toList_eq] at hp
    simp only [List.mem_append, List.mem_cons] at hp
    rcases hp with (hp | hp) | rfl | hp | hp
    · exact hm p (by rw [hl]; simp [hp])
    · exact hflank hbefore p hp
    · exact hrange whole.usage
        (h.usageAt?_of_mem hmem (Range.contains_of_encloses inside range.contains_start))
    · exact hflank hafter p hp
    · exact hm p (by rw [hl]; simp [hp])

end Steps

/-! ## Every reclaim -/

/-- A reclaim is refused for exactly three reasons, looked for in this order: the target is
not live, it does not enclose the range, it does not have the expected usage. Otherwise it
answers a live extent of the new usage around the range, and the addresses of the range are
the only ones whose usage changes. -/
theorem reclaim_retypes_range {allowed : Mutation → Prop} {region : Range} {m : ExtentMap}
    (hm : Reachable allowed region m) (target : Handle) (range : Range) (usage : Usage)
    (expected : Option Usage) {reply : Reply ExtentMap ExtentError Handle}
    (hreply : (reclaim target range usage expected).run m = reply)
    (hslots : ¬ reply.verdict.IsExhaustion) :
    (∀ id, reply.verdict = .error (.stale id) ↔ id = target ∧ m.get? target = none) ∧
    ∀ whole, m.get? target = some whole →
      (∀ start stop, reply.verdict = .error (.invalidRange start stop) ↔
        start = range.start ∧ stop = range.stop ∧ whole.range.encloses range = false) ∧
      (whole.range.encloses range = true →
        (∀ wanted found, reply.verdict = .error (.usageMismatch wanted found) ↔
          expected = some wanted ∧ found = whole.usage ∧ wanted ≠ whole.usage) ∧
        ((∀ wanted, expected = some wanted → wanted = whole.usage) →
          ∃ id e, reply.verdict = .ok id ∧ reply.state.get? id = some e ∧ e.usage = usage ∧
            e.range.encloses range = true ∧
            ∀ address, reply.state.usageAt? address =
              if range.contains address then some usage else m.usageAt? address)) := by
  have h := hm.sound
  have hverdict : reply.verdict = ((reclaim target range usage expected).outcome m).1 := by
    rw [← hreply]
    rfl
  have hstate : reply.state = ((reclaim target range usage expected).outcome m).2 := by
    rw [← hreply]
    rfl
  cases hget : m.get? target with
  | none =>
      rw [outcome_reclaim_of_stale expected hget] at hverdict
      refine ⟨?_, fun whole hwhole => by simp at hwhole⟩
      intro id
      rw [hverdict]
      simp [eq_comm]
  | some whole =>
      cases inside : whole.range.encloses range with
      | false =>
          rw [outcome_reclaim_of_outside expected hget inside] at hverdict
          rw [hverdict]
          refine ⟨by simp, ?_⟩
          intro whole' hwhole
          obtain rfl := Option.some.inj hwhole
          refine ⟨fun start stop => by simp [inside, eq_comm], ?_⟩
          intro hin
          rw [inside] at hin
          simp at hin
      | true =>
          by_cases hexpected : ∀ wanted, expected = some wanted → wanted = whole.usage
          · obtain ⟨pre, post, hl⟩ := exists_split hget
            rcases h.outcome_reclaim hl inside hexpected usage with
              ⟨slots, m', hout, -⟩ | ⟨id, m', hout, hr⟩
            · rw [hout] at hverdict
              exact absurd ⟨slots, hverdict⟩ hslots
            · rw [hout] at hverdict hstate
              rw [hverdict, hstate]
              refine ⟨by simp, ?_⟩
              intro whole' hwhole
              obtain rfl := Option.some.inj hwhole
              refine ⟨by simp [inside], fun _ => ⟨?_, ?_⟩⟩
              · intro wanted found
                refine ⟨fun hv => by simp at hv, fun ⟨hwanted, _, hne⟩ => ?_⟩
                exact absurd (hexpected wanted hwanted) hne
              · intro _
                obtain ⟨e, hlive, husage, hin⟩ := hr.get?_eq h
                exact ⟨id, e, rfl, hlive, husage, hin, hr.usageAt?_eq h⟩
          · simp only [not_forall] at hexpected
            obtain ⟨other, rfl, hother⟩ := hexpected
            rw [outcome_reclaim_of_mismatch hget inside hother] at hverdict
            rw [hverdict]
            refine ⟨by simp, ?_⟩
            intro whole' hwhole
            obtain rfl := Option.some.inj hwhole
            refine ⟨by simp [inside], fun _ => ⟨?_, ?_⟩⟩
            · intro wanted found
              simp only [Verdict.error.injEq, ExtentError.usageMismatch.injEq, Option.some.injEq]
              refine ⟨fun ⟨hw, hf⟩ => ⟨hw, hf.symm, hw ▸ hother⟩, fun ⟨hw, hf, _⟩ => ⟨hw, hf.symm⟩⟩
            · intro hall
              exact absurd (hall other rfl) hother

/-- The middle of a region of eight pages is taken into use. -/
theorem reclaim_retypes_middle :
    let region : Range := ⟨0x1000, 0x9000, by decide, by decide⟩
    let range : Range := ⟨0x3000, 0x5000, by decide, by decide⟩
    let reply := (reclaim ⟨0, 0, 0⟩ range .inUse (some .free)).run (created region)
    reply.verdict = .ok ⟨0, 1, 0⟩ ∧ reply.state.usageAt? 0x2fff = some .free ∧
      reply.state.usageAt? 0x3000 = some .inUse ∧ reply.state.usageAt? 0x5000 = some .free := by
  intro region range reply
  have hverdict : reply.verdict = .ok ⟨0, 1, 0⟩ := by decide
  have hslots : ¬ reply.verdict.IsExhaustion := fun ⟨_, h⟩ => nomatch hverdict.symm.trans h
  have hfree : (created region).get? ⟨0, 0, 0⟩ = some (seed region) := by decide
  obtain ⟨-, hlive⟩ := reclaim_retypes_range (created_reachable (fun _ => True) region)
    ⟨0, 0, 0⟩ range .inUse (some .free) (show _ = reply from rfl) hslots
  obtain ⟨-, hinside⟩ := hlive (seed region) hfree
  obtain ⟨-, hanswer⟩ := hinside (by decide)
  obtain ⟨_, _, -, -, -, -, husage⟩ := hanswer fun _ h => (Option.some.inj h).symm
  exact ⟨hverdict, by rw [husage]; decide, by rw [husage]; decide, by rw [husage]; decide⟩

end ExtentMap

end KernelMemory
