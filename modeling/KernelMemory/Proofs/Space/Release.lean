import KernelMemory.Proofs.Space.Run

/-!
# Releasing pieces together

The pieces of a release are checked against the map as it is before the first of them is
given back, but each is looked up again when its turn comes, in a map that the pieces before
it have cut and merged. What the check found out stays true all the same: the pieces are
apart, so an earlier one changes no address of a later one, and in a partition a range of one
usage lies in one extent wherever the boundaries have moved to. So the release of a piece
that has passed the check cannot be refused any more, and the pieces are given back together
or not at all.
-/

namespace KernelMemory

namespace Space

variable {s : Space} {pieces : List Range}

/-- The pieces are apart, and each of them lies in one extent that is not free. -/
structure Releasable (s : Space) (pieces : List Range) : Prop where
  apart : pieces.Pairwise Range.Apart
  inside : ∀ r ∈ pieces, ∃ p ∈ s.map.toList, p.2.usage ≠ .free ∧ p.2.range.encloses r = true

theorem held_iff_exists_encloses {D : Nat → Prop} (hm : s.map.Managed D) {r : Range} :
    s.Held r ↔ ∃ p ∈ s.map.toList, p.2.usage ≠ .free ∧ p.2.range.encloses r = true := by
  constructor
  · rintro ⟨usage, hused, hall⟩
    obtain ⟨p, hmem, -, rfl, inside⟩ := hm.partition.exists_encloses hm.sound hall
    exact ⟨p, hmem, hused, inside⟩
  · rintro ⟨p, hmem, hused, inside⟩
    exact ⟨p.2.usage, hused, fun a hin =>
      hm.sound.usageAt?_of_mem hmem (Range.contains_of_encloses inside hin)⟩

theorem releasable_iff {D : Nat → Prop} (hm : s.map.Managed D) :
    s.Releasable pieces ↔ pieces.Pairwise Range.Apart ∧ ∀ r ∈ pieces, s.Held r := by
  simp only [held_iff_exists_encloses hm]
  exact ⟨fun h => ⟨h.apart, h.inside⟩, fun h => ⟨h.1, h.2⟩⟩

/-- The checks of a release pass exactly for pieces that can be released. -/
theorem checks_eq_ok_iff {D : Nat → Prop} (hm : s.map.Managed D) :
    firstOverlap? pieces = none ∧ pieces.forM s.checkPiece = .ok () ↔ s.Releasable pieces := by
  simp only [releasable_iff hm, firstOverlap?_eq_none_iff, forM_eq_ok_iff,
    checkPiece_eq_ok_iff hm]

/-- A piece whose turn comes is in use as it was when it was checked. -/
theorem Releasable.outcome_next (h : s.Releasable pieces) (hm : s.Managed)
    {front back : List Range} {piece : Range} (hsplit : pieces = front ++ piece :: back)
    {s' : Space} (hfront : (front.forM releasePiece).outcome s = (.ok (), s')) :
    (∃ slots s'', (releasePiece piece).outcome s' = (.fault (.slotsExhausted slots), s'')) ∨
      ∃ s'', (releasePiece piece).outcome s' = (.ok (), s'') := by
  obtain ⟨hapart, hheld⟩ := (releasable_iff hm).mp h
  rw [hsplit, List.pairwise_append] at hapart
  obtain ⟨hfrontApart, -, hcross⟩ := hapart
  have hfrontHeld : ∀ r ∈ front, s.Held r := fun r hr => hheld r (by simp [hsplit, hr])
  have hs' : s.map.Converts (fun _ => True) front .free s'.map := by
    rcases outcome_releasePieces hm hfrontApart (fun _ _ => ⟨trivial, trivial⟩) hfrontHeld with
      ⟨slots, s₁, hfull⟩ | ⟨s₁, hdone, hs₁⟩
    · exact nomatch hfull.symm.trans hfront
    · obtain rfl : s₁ = s' := (Prod.mk.inj (hdone.symm.trans hfront)).2
      exact hs₁
  obtain ⟨usage, hused, hall⟩ := hheld piece (by simp [hsplit])
  have hstill : s'.Held piece := by
    refine ⟨usage, hused, fun a hin => ?_⟩
    rw [hs'.usageAt?_of_apart, hall a hin]
    exact fun r hr => (hcross r hr piece (by simp)).not_contains hin
  rcases outcome_releasePiece hs'.managed ⟨trivial, trivial⟩ hstill with hfull | ⟨s'', hout, -⟩
  · exact .inl hfull
  · exact .inr ⟨s'', hout⟩

/-- What is released was in use, so it changes its usage, and nothing else does. -/
theorem Releasable.changes_iff (h : s.Releasable pieces) {D : Nat → Prop}
    (hm : s.map.Managed D) {m' : ExtentMap} (hm' : s.map.Converts D pieces .free m')
    (address : Nat) : m'.usageAt? address ≠ s.map.usageAt? address ↔
      ∃ r ∈ pieces, r.contains address = true := by
  rw [hm'.usageAt?_eq, ← List.any_eq_true]
  split
  · next hin =>
    obtain ⟨r, hr, hcontains⟩ := List.any_eq_true.mp hin
    obtain ⟨p, hmem, hused, inside⟩ := h.inside r hr
    rw [hm.sound.usageAt?_of_mem hmem (Range.contains_of_encloses inside hcontains)]
    exact iff_of_true (fun hsame => hused (Option.some.inj hsame).symm) hin
  · next hout => exact iff_of_false (fun hne => hne rfl) hout

/-- Pieces that cannot all be released are refused without a change. The others are released,
if the slots do not run out. -/
theorem release_cases {D : Nat → Prop} (hm : s.map.Managed D)
    (hD : ∀ r ∈ pieces, D r.start ∧ D r.stop) :
    (¬ s.Releasable pieces ∧ ∃ e, (freeGather pieces).outcome s = (.error e, s)) ∨
      s.Releasable pieces ∧
        ((∃ slots s', (freeGather pieces).outcome s = (.fault (.slotsExhausted slots), s')) ∨
          ∃ s', (freeGather pieces).outcome s = (.ok (), s') ∧
            s.map.Converts D pieces .free s'.map) := by
  by_cases h : s.Releasable pieces
  · obtain ⟨hapart, hheld⟩ := (releasable_iff hm).mp h
    exact .inr ⟨h, outcome_freeGather hm hapart hD hheld⟩
  · rcases freeGather_cases pieces hm with hrefused | hboth
    · exact .inl ⟨h, hrefused⟩
    · exact absurd ((releasable_iff hm).mpr hboth) h

/-- Unless slots run out, a release of pieces succeeds exactly if the pieces are apart and
each of them lies in one extent that is not free. Then exactly the addresses of the pieces
change their usage, to free. Otherwise it is refused and nothing has changed. No piece that
has passed the checks is refused when its turn comes. -/
theorem release_all_or_none {arena : Arena} {s : Space} (hs : Reached arena s)
    (pieces : List Range) {reply : Reply Space RequestError Unit}
    (hreply : (freeGather pieces).run s = reply) :
    (¬ reply.verdict.IsExhaustion →
      (reply.verdict = .ok () ↔ s.Releasable pieces) ∧
      (reply.verdict = .ok () → ∀ address,
        (reply.state.map.usageAt? address ≠ s.map.usageAt? address ↔
          ∃ r ∈ pieces, r.contains address = true) ∧
        ((∃ r ∈ pieces, r.contains address = true) →
          reply.state.map.usageAt? address = some .free)) ∧
      (reply.verdict ≠ .ok () → (∃ e, reply.verdict = .error e) ∧ reply.state = s)) ∧
    (firstOverlap? pieces = none → pieces.forM s.checkPiece = .ok () →
      ∀ front piece back s', pieces = front ++ piece :: back →
        (front.forM releasePiece).outcome s = (.ok (), s') →
        ∀ e, ((releasePiece piece).outcome s').1 ≠ .error e) := by
  have hm := hs.managed
  constructor
  · intro hslots
    have hverdict : reply.verdict = ((freeGather pieces).outcome s).1 := by rw [← hreply]; rfl
    have hstate : reply.state = ((freeGather pieces).outcome s).2 := by rw [← hreply]; rfl
    rw [hverdict] at hslots
    rw [hverdict, hstate]
    rcases release_cases hm (fun _ _ => ⟨trivial, trivial⟩) with
      ⟨hnot, e, hout⟩ | ⟨h, ⟨slots, s', hout⟩ | ⟨s', hout, hs'⟩⟩
    · rw [hout]
      exact ⟨iff_of_false (by simp) hnot, by simp, fun _ => ⟨⟨e, rfl⟩, rfl⟩⟩
    · exact absurd ⟨slots, by rw [hout]⟩ hslots
    · rw [hout]
      refine ⟨iff_of_true rfl h, fun _ address => ⟨h.changes_iff hm hs' address, ?_⟩, by simp⟩
      intro hin
      rw [hs'.usageAt?_eq, if_pos (List.any_eq_true.mpr hin)]
  · intro hoverlap hchecks front piece back s' hsplit hfront e
    have h : s.Releasable pieces := (checks_eq_ok_iff hm).mp ⟨hoverlap, hchecks⟩
    rcases h.outcome_next hm hsplit hfront with ⟨slots, s'', hout⟩ | ⟨s'', hout⟩
    · rw [hout]
      exact fun hverdict => nomatch hverdict
    · rw [hout]
      exact fun hverdict => nomatch hverdict

/-- Two pieces of a few bytes are cut out of one extent, the later one first. -/
theorem release_all_or_none_of_bytes :
    let arena : Arena := ⟨.physical, 0x1000, 0x8000⟩
    let s := ((Call.reserve 0x3000 0x2000 .inUse).perform.run ⟨created arena, []⟩).state.space
    let pieces : List Range :=
      [⟨0x4000, 0x4010, by decide, by decide⟩, ⟨0x3008, 0x3010, by decide, by decide⟩]
    let reply := (freeGather pieces).run s
    reply.verdict = .ok () ∧ reply.state.map.usageAt? 0x3007 = some .inUse ∧
      reply.state.map.usageAt? 0x3008 = some .free := by
  intro arena s pieces reply
  obtain ⟨_, hregion, -⟩ := Range.ofLength_eq_ok (show 0 < 0x8000 by decide)
    (show 0x1000 + 0x8000 < Word.bound by decide)
  have hreserve : ((Call.reserve 0x3000 0x2000 .inUse).perform.run
    ⟨created arena, []⟩).verdict = .ok () := by decide
  have hs : Reached arena s :=
    (Reached.create 0 (verdict_create hregion)).step (.reserve 0x3000 0x2000 .inUse) []
      (Verdict.not_isExhaustion_of_ok hreserve)
  have hok : reply.verdict = .ok () := by decide +kernel
  obtain ⟨hall, -⟩ := release_all_or_none hs pieces (show _ = reply from rfl)
  obtain ⟨-, hchanged, -⟩ := hall (Verdict.not_isExhaustion_of_ok hok)
  obtain ⟨hkept, -⟩ := hchanged hok 0x3007
  obtain ⟨-, hfreed⟩ := hchanged hok 0x3008
  refine ⟨hok, ?_, hfreed (by decide)⟩
  rw [not_ne_iff.mp (mt hkept.mp (by decide))]
  decide +kernel

end Space

end KernelMemory
