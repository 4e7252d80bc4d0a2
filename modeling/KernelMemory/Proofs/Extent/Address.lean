import KernelMemory.Proofs.Extent.Sound

/-!
# Extents seen from an address

A map answers for an address by descending its tree. For a sound map this finds what a
walk along the sequence of extents finds, and a walk is easy to cut: the usage of an
address in a sequence is the usage in its front part, or else in its back part. So what an
operation does to the address space is read off from what it does to the sequence.

`Tiles` says that a sequence covers a stretch without a gap. Where all of it has one usage,
nothing but the two ends of the stretch matters for the usage of an address.
-/

namespace KernelMemory

theorem Extent.contains_iff {e : Extent} {address : Nat} :
    e.range.contains address = true ↔ e.start ≤ address ∧ address < e.stop :=
  Range.contains_iff

namespace ExtentMap

/-! ## The extent that contains an address -/

theorem Ordered.eq_of_contains {l : List (Handle × Extent)} (h : Ordered l) {address : Nat}
    {p q : Handle × Extent} (hp : p ∈ l) (hq : q ∈ l) (hpa : p.2.range.contains address = true)
    (hqa : q.2.range.contains address = true) : p = q := by
  rw [Extent.contains_iff] at hpa hqa
  obtain ⟨pre, post, rfl⟩ := List.append_of_mem hp
  obtain ⟨-, hpre, hpost⟩ := ordered_middle.mp h
  rw [List.mem_append, List.mem_cons] at hq
  rcases hq with hq | rfl | hq
  · have := hpre q hq
    omega
  · rfl
  · have := hpost q hq
    omega

theorem Ordered.eq_of_overlaps {l : List (Handle × Extent)} (h : Ordered l)
    {p q : Handle × Extent} (hp : p ∈ l) (hq : q ∈ l)
    (hover : p.2.range.overlaps q.2.range = true) : p = q := by
  have hps := p.2.range.start_lt_stop
  have hqs := q.2.range.start_lt_stop
  rw [Range.overlaps_iff] at hover
  -- the higher of the two starts is in both
  have hpa : p.2.range.contains (max p.2.range.start q.2.range.start) = true :=
    Range.contains_iff.mpr ⟨by omega, by omega⟩
  have hqa : q.2.range.contains (max p.2.range.start q.2.range.start) = true :=
    Range.contains_iff.mpr ⟨by omega, by omega⟩
  exact h.eq_of_contains hp hq hpa hqa

theorem Sound.find?_eq_none_iff {m : ExtentMap} (h : m.Sound) {address : Nat} :
    m.find? address = none ↔ ∀ p ∈ m.toList, p.2.range.contains address = false := by
  rw [find?, Tree.search_exact_eq_none_iff (h.ordered.sorts_locate address)]
  refine forall₂_congr ?_
  intro p _
  rw [ne_eq, Range.locate_eq_eq_iff, Bool.not_eq_true]

theorem contains_of_find? {m : ExtentMap} {address : Nat} {p : Handle × Extent}
    (h : m.find? address = some p) : p ∈ m.toList ∧ p.2.range.contains address = true :=
  ⟨Tree.mem_of_search h, (Range.locate_eq_eq_iff _ _).mp (Tree.eq_of_search_exact h)⟩

theorem Sound.find?_eq_some_iff {m : ExtentMap} (h : m.Sound) {address : Nat}
    {p : Handle × Extent} :
    m.find? address = some p ↔ p ∈ m.toList ∧ p.2.range.contains address = true := by
  refine ⟨contains_of_find?, fun ⟨hp, hpa⟩ => ?_⟩
  cases hf : m.find? address with
  | none =>
      have := h.find?_eq_none_iff.mp hf p hp
      rw [hpa] at this
      simp at this
  | some q =>
      obtain ⟨hq, hqa⟩ := contains_of_find? hf
      rw [h.ordered.eq_of_contains hp hq hpa hqa]

/-! ## The usage of an address -/

/-- The usage that a sequence of extents gives to an address. -/
def usageIn (l : List (Handle × Extent)) (address : Nat) : Option Usage :=
  (l.find? fun p => p.2.range.contains address).map fun p => p.2.usage

theorem Sound.usageAt?_eq {m : ExtentMap} (h : m.Sound) (address : Nat) :
    m.usageAt? address = usageIn m.toList address := by
  unfold usageAt? usageIn
  congr 1
  cases hf : m.toList.find? fun p => p.2.range.contains address with
  | none =>
      rw [List.find?_eq_none] at hf
      exact h.find?_eq_none_iff.mpr fun p hp => Bool.eq_false_iff.mpr (hf p hp)
  | some p =>
      have hpa := List.find?_some hf
      exact h.find?_eq_some_iff.mpr ⟨List.mem_of_find?_eq_some hf, hpa⟩

theorem Sound.usageAt?_of_mem {m : ExtentMap} (h : m.Sound) {p : Handle × Extent}
    (hp : p ∈ m.toList) {address : Nat} (hpa : p.2.range.contains address = true) :
    m.usageAt? address = some p.2.usage := by
  rw [usageAt?, h.find?_eq_some_iff.mpr ⟨hp, hpa⟩]
  rfl

@[simp] theorem usageIn_nil (address : Nat) : usageIn [] address = none := rfl

theorem usageIn_append (l l' : List (Handle × Extent)) (address : Nat) :
    usageIn (l ++ l') address = (usageIn l address).or (usageIn l' address) := by
  unfold usageIn
  rw [List.find?_append]
  cases l.find? fun p => p.2.range.contains address <;> rfl

theorem usageIn_cons (p : Handle × Extent) (l : List (Handle × Extent)) (address : Nat) :
    usageIn (p :: l) address =
      if p.2.start ≤ address ∧ address < p.2.stop then some p.2.usage
      else usageIn l address := by
  unfold usageIn
  rw [List.find?_cons]
  by_cases h : p.2.range.contains address
  · rw [h, if_pos (Extent.contains_iff.mp h)]
    rfl
  · rw [Bool.eq_false_iff.mpr h, if_neg fun hc => h (Extent.contains_iff.mpr hc)]

theorem usageIn_eq_none {l : List (Handle × Extent)} {address : Nat}
    (h : ∀ p ∈ l, ¬ (p.2.start ≤ address ∧ address < p.2.stop)) : usageIn l address = none := by
  unfold usageIn
  rw [Option.map_eq_none_iff, List.find?_eq_none]
  exact fun p hp hc => h p hp (Extent.contains_iff.mp hc)

/-! ## Stretches without a gap -/

/-- The sequence covers the addresses from `start` to `stop`, each extent starting where
the one in front of it stops. -/
def Tiles : Nat → List (Handle × Extent) → Nat → Prop
  | start, [], stop => start = stop
  | start, p :: l, stop => p.2.start = start ∧ Tiles p.2.stop l stop

theorem tiles_append {l l' : List (Handle × Extent)} {start stop : Nat} :
    Tiles start (l ++ l') stop ↔ ∃ cut, Tiles start l cut ∧ Tiles cut l' stop := by
  induction l generalizing start with
  | nil => simp [Tiles]
  | cons p l ih => simp only [List.cons_append, Tiles, ih, and_assoc, exists_and_left]

theorem tiles_singleton {p : Handle × Extent} {start stop : Nat} :
    Tiles start [p] stop ↔ p.2.start = start ∧ p.2.stop = stop :=
  Iff.rfl

theorem Tiles.start_le_stop {l : List (Handle × Extent)} {start stop : Nat}
    (h : Tiles start l stop) : start ≤ stop := by
  induction l generalizing start with
  | nil => exact Nat.le_of_eq h
  | cons p l ih =>
      have hrest := ih h.2
      have hlt := p.2.start_lt_stop
      have hstart := h.1
      omega

theorem Tiles.unique {l : List (Handle × Extent)} {start stop start' stop' : Nat}
    (h : Tiles start l stop) (h' : Tiles start' l stop') (hl : l ≠ []) :
    start = start' ∧ stop = stop' := by
  induction l generalizing start start' with
  | nil => exact absurd rfl hl
  | cons p l ih =>
      refine ⟨h.1.symm.trans h'.1, ?_⟩
      cases l with
      | nil => exact (Eq.symm h.2).trans h'.2
      | cons q l => exact (ih h.2 h'.2 (by simp)).2

theorem Tiles.start_of_head? {l : List (Handle × Extent)} {start stop : Nat}
    (h : Tiles start l stop) {p : Handle × Extent} (hp : l.head? = some p) :
    p.2.start = start := by
  cases l with
  | nil => simp at hp
  | cons q l =>
      obtain rfl := Option.some.inj hp
      exact h.1

theorem Tiles.stop_of_getLast? {l : List (Handle × Extent)} {start stop : Nat}
    (h : Tiles start l stop) {p : Handle × Extent} (hp : l.getLast? = some p) :
    p.2.stop = stop := by
  obtain ⟨front, rfl⟩ := List.getLast?_eq_some_iff.mp hp
  obtain ⟨cut, -, hlast⟩ := tiles_append.mp h
  exact hlast.2

theorem Tiles.bounds_of_mem {l : List (Handle × Extent)} {start stop : Nat}
    (h : Tiles start l stop) {p : Handle × Extent} (hp : p ∈ l) :
    start ≤ p.2.start ∧ p.2.stop ≤ stop := by
  obtain ⟨front, back, rfl⟩ := List.append_of_mem hp
  obtain ⟨_, hfront, rfl, hback⟩ := tiles_append.mp h
  exact ⟨hfront.start_le_stop, hback.start_le_stop⟩

theorem Tiles.exists_contains {l : List (Handle × Extent)} {start stop address : Nat}
    (h : Tiles start l stop) (hstart : start ≤ address) (hstop : address < stop) :
    ∃ p ∈ l, p.2.range.contains address = true := by
  induction l generalizing start with
  | nil => exact absurd (show start = stop from h) (by omega)
  | cons p l ih =>
      have hp := h.1
      by_cases hin : address < p.2.stop
      · exact ⟨p, by simp, Extent.contains_iff.mpr ⟨by omega, hin⟩⟩
      · obtain ⟨q, hq, hcontains⟩ := ih h.2 (by omega)
        exact ⟨q, List.mem_cons_of_mem p hq, hcontains⟩

theorem Tiles.usageIn_eq {l : List (Handle × Extent)} {start stop : Nat}
    (h : Tiles start l stop) {usage : Usage} (hu : ∀ p ∈ l, p.2.usage = usage) (address : Nat) :
    usageIn l address = if start ≤ address ∧ address < stop then some usage else none := by
  induction l generalizing start with
  | nil =>
      have heq : start = stop := h
      rw [usageIn_nil, if_neg (by omega)]
  | cons p l ih =>
      have hle := h.2.start_le_stop
      have hlt := p.2.start_lt_stop
      have hstart := h.1
      rw [usageIn_cons, ih h.2 fun q hq => hu q (List.mem_cons_of_mem p hq),
        hu p List.mem_cons_self]
      by_cases hp : p.2.start ≤ address ∧ address < p.2.stop
      · rw [if_pos hp, if_pos (by omega)]
      · rw [if_neg hp]
        refine if_congr ?_ rfl rfl
        omega

end ExtentMap

end KernelMemory
