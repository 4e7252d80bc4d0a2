import KernelMemory.Proofs.Extent.Audit
import KernelMemory.Proofs.Extent.Mutation
import Mathlib.Data.List.Chain

/-!
# The partition of a region

Reclaiming, merging and starting over keep a partition of the region. In the middle of a
reclaim the extents tile the region all along, but the piece that has got its new usage may
have twins on both sides. Those are the only ones: a flank has the usage of the extent it
is cut from, so it differs from what lies next to it as that extent did. Merging around
the piece therefore leaves no twins at all.
-/

namespace KernelMemory

namespace ExtentMap

/-! ## Neighbours of different usage -/

theorem unmerged_append {l l' : List (Handle × Extent)} :
    Unmerged (l ++ l') ↔ Unmerged l ∧ Unmerged l' ∧
      ∀ p, l.getLast? = some p → ∀ q, l'.head? = some q → p.2.usage ≠ q.2.usage :=
  List.isChain_append

theorem unmerged_cons {p : Handle × Extent} {l : List (Handle × Extent)} :
    Unmerged (p :: l) ↔ (∀ q, l.head? = some q → p.2.usage ≠ q.2.usage) ∧ Unmerged l :=
  List.isChain_cons

/-- A flank differs from its neighbours as the extent did that it is cut from. -/
theorem Unmerged.flanks {pre post before after : List (Handle × Extent)} {target : Handle}
    {whole : Extent} (h : Unmerged (pre ++ (target, whole) :: post)) {start stop cut cut' : Nat}
    (hbefore : Flank whole start cut before) (hafter : Flank whole cut' stop after) :
    Unmerged (pre ++ before) ∧ Unmerged (after ++ post) := by
  obtain ⟨hpre, hrest, hleft⟩ := unmerged_append.mp h
  obtain ⟨hright, hpost⟩ := unmerged_cons.mp hrest
  constructor
  · match before, hbefore with
    | [], _ => rwa [List.append_nil]
    | [p], hflank =>
      refine unmerged_append.mpr ⟨hpre, .singleton p, ?_⟩
      intro q hq r hr
      obtain rfl := Option.some.inj hr
      rw [hflank.usage_eq p (by simp)]
      exact hleft q hq _ rfl
    | _ :: _ :: _, hflank => exact absurd hflank.length_le (by simp)
  · match after, hafter with
    | [], _ => exact hpost
    | [p], hflank =>
      refine unmerged_cons.mpr ⟨?_, hpost⟩
      intro q hq
      rw [hflank.usage_eq p (by simp)]
      exact hright q hq
    | _ :: _ :: _, hflank => exact absurd hflank.length_le (by simp)

section Steps

variable {m m' : ExtentMap} {id : Handle} {range : Range} {usage : Usage}

/-- Merging around the only extent that may have twins makes a tiling a partition. -/
theorem Coalesced.partition (hc : Coalesced m id m') (h : m.Sound)
    (htiles : Tiles m.region.start m.toList m.region.stop) {e : Extent}
    {before after : List (Handle × Extent)} (hl : m.toList = before ++ (id, e) :: after)
    (hbefore : Unmerged before) (hafter : Unmerged after) : m'.Partition := by
  obtain ⟨pre, left, e', right, post, joined, hl', hs, hm'⟩ := hc
  have hnodup := h.index.nodup
  obtain ⟨rfl, rfl, rfl⟩ := Tree.split_unique
    (by rw [← hl]; exact hnodup) (hl.symm.trans hl')
  obtain ⟨hpre, -, -⟩ := unmerged_append.mp hbefore
  obtain ⟨-, hpost, -⟩ := unmerged_append.mp hafter
  rw [hl, List.append_assoc, ← List.cons_append, ← List.append_assoc left, tiles_append] at htiles
  obtain ⟨cut, hfront, hrest⟩ := htiles
  obtain ⟨cut', hmiddle, hback⟩ := tiles_append.mp hrest
  obtain ⟨rfl, rfl⟩ := hmiddle.unique hs.tiles (by simp)
  constructor
  · rw [hm'.toList_eq, hm'.region_eq]
    exact tiles_append.mpr ⟨joined.start, hfront, rfl, hback⟩
  · rw [hm'.toList_eq]
    refine unmerged_append.mpr ⟨hpre, unmerged_cons.mpr ⟨?_, hpost⟩, ?_⟩
    · intro q hq hsame
      exact hs.right_end q hq ⟨(hback.start_of_head? hq).symm, hsame⟩
    · intro p hp q hq hsame
      obtain rfl := Option.some.inj hq
      exact hs.left_end p hp ⟨hfront.stop_of_getLast? hp, hsame⟩

theorem Carved.partition {pre post : List (Handle × Extent)} {target : Handle} {whole : Extent}
    (hc : Carved m pre whole post range usage id m') (hp : m.Partition)
    (hl : m.toList = pre ++ (target, whole) :: post) : m'.Partition := by
  obtain ⟨before, after, m₁, hbefore, hafter, hm₁, hcoalesced⟩ := hc
  have hunmerged := hp.unmerged
  rw [hl] at hunmerged
  obtain ⟨hleft, hright⟩ := hunmerged.flanks hbefore hafter
  have htiles := hp.tiles
  rw [hl, tiles_append] at htiles
  obtain ⟨_, hfront, rfl, hback⟩ := htiles
  refine hcoalesced.partition hm₁.sound ?_ hm₁.toList_eq hleft hright
  rw [hm₁.toList_eq, hm₁.region_eq]
  exact tiles_append.mpr ⟨range.start, tiles_append.mpr ⟨_, hfront, hbefore.tiles⟩, rfl,
    tiles_append.mpr ⟨_, hafter.tiles, hback⟩⟩

theorem Retyped.partition (hr : Retyped m range usage id m') (hp : m.Partition) :
    m'.Partition := by
  obtain ⟨pre, target, whole, post, hl, -, ⟨-, -, rfl⟩ | ⟨-, hcarved⟩⟩ := hr
  · exact hp
  · exact hcarved.partition hp hl

theorem Partition.coalesced (hp : m.Partition) (h : m.Sound) (hc : Coalesced m id m') :
    m'.Partition := by
  have ⟨pre, left, e, right, post, joined, hl, _, _⟩ := hc
  have hunmerged := hp.unmerged
  rw [hl] at hunmerged
  obtain ⟨hbefore, hrest, -⟩ := unmerged_append.mp hunmerged
  exact Coalesced.partition hc h hp.tiles hl hbefore (unmerged_cons.mp hrest).2

theorem partition_seed {region : Range} (hregion : m.region = region)
    (hl : m.toList = [(id, seed region)]) : m.Partition := by
  constructor
  · rw [hl, hregion]
    exact ⟨rfl, rfl⟩
  · rw [hl]
    exact .singleton _

theorem Mutation.Effect.partition {c : Mutation} (he : c.Effect m m') (h : m.Sound)
    (hp : m.Partition) (hc : c.KeepsPartition) : m'.Partition := by
  cases c with
  | insert => exact hc.elim
  | delete => exact hc.elim
  | reclaim => obtain ⟨_, hr⟩ := he; exact hr.partition hp
  | reclaimAt => obtain ⟨_, hr⟩ := he; exact hr.partition hp
  | merge => obtain ⟨_, hm'⟩ := he; exact hp.coalesced h hm'
  | reset => obtain ⟨_, hm'⟩ := he; exact partition_seed hm'.region_eq hm'.toList_eq

end Steps

/-! ## What a partition says of ranges -/

section Ranges

variable {m : ExtentMap}

theorem Partition.tracked (hp : m.Partition) (h : m.Sound) {address : Nat}
    (hin : m.region.contains address = true) : ∃ usage, m.usageAt? address = some usage := by
  obtain ⟨hstart, hstop⟩ := Range.contains_iff.mp hin
  obtain ⟨p, hmem, hcontains⟩ := hp.tiles.exists_contains hstart hstop
  exact ⟨p.2.usage, h.usageAt?_of_mem hmem hcontains⟩

theorem Sound.contains_of_usageAt? (h : m.Sound) {address : Nat} {usage : Usage}
    (hu : m.usageAt? address = some usage) :
    ∃ p ∈ m.toList, p.2.usage = usage ∧ p.2.range.contains address = true := by
  obtain ⟨p, hfind, rfl⟩ := Option.map_eq_some_iff.mp hu
  obtain ⟨hmem, hcontains⟩ := h.find?_eq_some_iff.mp hfind
  exact ⟨p, hmem, rfl, hcontains⟩

/-- In a partition a range of one usage lies in one extent: where that extent ends, another
one of another usage starts. -/
theorem Partition.exists_encloses (hp : m.Partition) (h : m.Sound) {r : Range} {usage : Usage}
    (hr : ∀ address, r.contains address = true → m.usageAt? address = some usage) :
    ∃ p ∈ m.toList, m.find? r.start = some p ∧ p.2.usage = usage ∧
      p.2.range.encloses r = true := by
  obtain ⟨⟨id, e⟩, hmem, rfl, hcontains⟩ := h.contains_of_usageAt? (hr r.start r.contains_start)
  refine ⟨(id, e), hmem, h.find?_eq_some_iff.mpr ⟨hmem, hcontains⟩, rfl, ?_⟩
  obtain ⟨hstart, hlt⟩ : e.start ≤ r.start ∧ r.start < e.stop := Extent.contains_iff.mp hcontains
  refine Range.encloses_iff.mpr ⟨hstart, Nat.le_of_not_lt fun (hstop : e.stop < r.stop) => ?_⟩
  -- the first address behind the extent is still in the range
  obtain ⟨q, hq, husage, hqin⟩ := h.contains_of_usageAt?
    (hr e.stop (Range.contains_iff.mpr ⟨Nat.le_of_lt hlt, hstop⟩))
  obtain ⟨hqstart, hqstop⟩ := Extent.contains_iff.mp hqin
  obtain ⟨pre, post, hl⟩ := List.append_of_mem hmem
  obtain ⟨-, hpre, -⟩ := h.ordered_of_split hl
  have hlt' := e.start_lt_stop
  have hunmerged := hp.unmerged
  have htiles := hp.tiles
  rw [hl] at hq hunmerged htiles
  obtain ⟨-, hrest, -⟩ := unmerged_append.mp hunmerged
  obtain ⟨_, -, -, htail⟩ := tiles_append.mp htiles
  rcases List.mem_append.mp hq with hq | hq
  · have := hpre q hq
    omega
  · rcases List.mem_cons.mp hq with rfl | hq
    · exact absurd hqstop (Nat.lt_irrefl _)
    · cases post with
      | nil => simp at hq
      | cons next post =>
          have hnext : next.2.start = e.stop := htail.1
          have hnextlt := next.2.start_lt_stop
          have hmem' : ∀ x ∈ next :: post, x ∈ m.toList := by
            intro x hx
            rw [hl]
            exact List.mem_append_right pre (List.mem_cons_of_mem _ hx)
          obtain rfl := h.ordered.eq_of_contains (hmem' q hq) (hmem' next (by simp)) hqin
            (Extent.contains_iff.mpr ⟨by omega, by omega⟩)
          exact (unmerged_cons.mp hrest).1 q rfl husage.symm

theorem Partition.eq_singleton (hp : m.Partition) (h : m.Sound) {usage : Usage}
    (hu : ∀ address, m.region.contains address = true → m.usageAt? address = some usage) :
    ∃ p, m.toList = [p] ∧ p.2.range = m.region ∧ p.2.usage = usage := by
  obtain ⟨p, hmem, -, husage, hin⟩ := hp.exists_encloses h hu
  obtain ⟨pre, post, hl⟩ := List.append_of_mem hmem
  obtain ⟨hstart, hstop⟩ := Range.encloses_iff.mp hin
  obtain ⟨hlo, hhi⟩ := h.inside_of_split hl
  obtain ⟨-, hpre, hpost⟩ := h.ordered_of_split hl
  -- Every other extent lies in the region as well, so there is no room for it.
  have honly : ∀ q ∈ m.toList, ¬ (q.2.stop ≤ p.2.start ∨ p.2.stop ≤ q.2.start) := by
    intro q hq hap
    obtain ⟨hqlo, hqhi⟩ := Range.encloses_iff.mp (h.inside q hq)
    have := q.2.start_lt_stop
    simp only [Extent.start, Extent.stop] at *
    omega
  have hfirst : pre = [] := by
    refine List.eq_nil_iff_forall_not_mem.mpr ?_
    intro q hq
    exact honly q (by simp [hl, hq]) (.inl (hpre q hq))
  have hlast : post = [] := by
    refine List.eq_nil_iff_forall_not_mem.mpr ?_
    intro q hq
    exact honly q (by simp [hl, hq]) (.inr (hpost q hq))
  subst hfirst hlast
  refine ⟨p, hl, ?_, husage⟩
  exact Range.ext (Nat.le_antisymm hstart hlo) (Nat.le_antisymm hhi hstop)

end Ranges

/-! ## Every run -/

/-- Whatever is called, refused or not, the extents tile the region in the order of their
addresses without equal neighbours, the tree is balanced, and an audit finds nothing. -/
theorem reachable_partition {region : Range} {m : ExtentMap}
    (hm : Reachable Mutation.KeepsPartition region m) :
    m.region = region ∧ Tiles region.start m.toList region.stop ∧
      (m.toList.IsChain fun p q => p.2.usage ≠ q.2.usage) ∧
      (m.toList.Pairwise fun p q => p.2.range.compare q.2.range = .lt) ∧
      m.index.tree.Balanced ∧ m.audit = .ok () := by
  obtain ⟨h, rfl, hp⟩ := hm.invariant (P := Partition)
    (fun _ _ _ hregion hl => partition_seed hregion hl)
    fun _ _ _ h _ hp hc he => he.partition h hp hc
  have hordered : m.toList.Pairwise fun p q => p.2.range.compare q.2.range = .lt :=
    h.ordered.imp fun hpq => if_pos hpq
  exact ⟨rfl, hp.tiles, hp.unmerged, hordered, h.index.balanced, h.audit_eq_ok_iff.mpr hp⟩

/-- A page in the middle is taken into use, and a handle of another map is refused. -/
theorem reachable_partition_three :
    let region : Range := ⟨0x1000, 0x9000, by decide, by decide⟩
    let page : Range := ⟨0x3000, 0x4000, by decide, by decide⟩
    let m₁ := ((Mutation.reclaimAt page .inUse none).perform.run (created region)).state
    let m₂ := ((Mutation.reclaim ⟨7, 0, 0⟩ page .stack none).perform.run m₁).state
    m₂.extents.map Extent.usage = [.free, .inUse, .free] ∧ m₂.audit = .ok () := by
  intro region page m₁ m₂
  have h₁ : Reachable Mutation.KeepsPartition region m₁ :=
    .step (created_reachable _ region) _ trivial fun ⟨_, h⟩ => by
      have hok : ((Mutation.reclaimAt page .inUse none).perform.run
        (created region)).verdict = .ok () := by decide
      exact nomatch hok.symm.trans h
  have h₂ : Reachable Mutation.KeepsPartition region m₂ :=
    .step h₁ _ trivial fun ⟨_, h⟩ => by
      have hstale : ((Mutation.reclaim ⟨7, 0, 0⟩ page .stack none).perform.run m₁).verdict =
        .error (.stale ⟨7, 0, 0⟩) := by decide
      exact nomatch hstale.symm.trans h
  exact ⟨by decide, (reachable_partition h₂).2.2.2.2.2⟩

end ExtentMap

end KernelMemory
