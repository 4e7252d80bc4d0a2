import KernelMemory.Proofs.Linked.Layout

/-!
# Searching by probe

A search goes down one way and remembers the last value that it left behind on the side of its
mode. All it sees of the index is that way, so it has to be said why no value off the way comes
nearer to the probe. The probe cuts the sequence of the index into three parts: values that it
lies above, values that it equals, values that it lies below. At a node in the upper part all
of the right side is in the upper part too, so the cut is in the left side, and the node is the
first of the upper values unless the left side has one. Nothing is asked of the values that
the probe equals but that they stand together; there may be many of them, and the search ends
at the one that it meets first.
-/

namespace KernelMemory

namespace SearchMode

variable {β : Type}

/-- The value next to a gap that a search in this mode ends at, by the values in front of the
gap and behind it. -/
def beside (mode : SearchMode) (lower upper : List β) : Option β :=
  match mode with
  | exact => none
  | above => upper.head?
  | below => lower.getLast?

/-- A value further behind the gap is the neighbour only if nothing is between. -/
theorem beside_append_cons (mode : SearchMode) (lower upper right : List β) (p : β) :
    mode.beside lower (upper ++ p :: right) =
      (mode.beside lower upper).or (if mode = .above then some p else none) := by
  cases mode with
  | exact => rfl
  | above => simp [beside]
  | below => simp [beside]

theorem beside_append_cons_left (mode : SearchMode) (left lower upper : List β) (p : β) :
    mode.beside (left ++ p :: lower) upper =
      (mode.beside lower upper).or (if mode = .below then some p else none) := by
  cases mode with
  | exact => rfl
  | above => simp [beside]
  | below => simp [beside, List.getLast?_append, List.getLast?_cons]

end SearchMode

namespace Tree

variable {α : Type} {probe : α → Ordering} {l lower equal upper : List (Handle × α)}
variable {left right : List (Handle × α)} {p : Handle × α} {t : Tree α}

/-- The parts that a probe cuts a sequence into: what it lies above, what it equals, what it
lies below. Each of them may be empty. -/
structure Cut (probe : α → Ordering) (l lower equal upper : List (Handle × α)) : Prop where
  whole : l = lower ++ equal ++ upper
  lower : ∀ p ∈ lower, probe p.2 = .gt
  equal : ∀ p ∈ equal, probe p.2 = .eq
  upper : ∀ p ∈ upper, probe p.2 = .lt

namespace Cut

theorem mem_equal (h : Cut probe l lower equal upper) (hp : p ∈ l) (heq : probe p.2 = .eq) :
    p ∈ equal := by
  rw [h.whole, List.mem_append, List.mem_append] at hp
  rcases hp with (hp | hp) | hp
  · exact absurd ((h.lower p hp).symm.trans heq) (by decide)
  · exact hp
  · exact absurd ((h.upper p hp).symm.trans heq) (by decide)

/-- Where the probe lies below a value, the cut is in front of it. -/
theorem of_lt (h : Cut probe (left ++ p :: right) lower equal upper) (hlt : probe p.2 = .lt) :
    ∃ upper', upper = upper' ++ p :: right ∧ Cut probe left lower equal upper' := by
  rcases append_cons_cases h.whole with ⟨mid, hfront, -⟩ | ⟨mid, hupper, hleft⟩
  · have hp : p ∈ lower ++ equal := by simp [hfront]
    rcases List.mem_append.mp hp with hp | hp
    · exact absurd ((h.lower p hp).symm.trans hlt) (by decide)
    · exact absurd ((h.equal p hp).symm.trans hlt) (by decide)
  · refine ⟨mid, hupper, hleft, h.lower, h.equal, fun q hq => h.upper q ?_⟩
    simp [hupper, hq]

/-- Where the probe lies above a value, the cut is behind it. -/
theorem of_gt (h : Cut probe (left ++ p :: right) lower equal upper) (hgt : probe p.2 = .gt) :
    ∃ lower', lower = left ++ p :: lower' ∧ Cut probe right lower' equal upper := by
  have hwhole : left ++ p :: right = lower ++ (equal ++ upper) :=
    h.whole.trans (List.append_assoc lower equal upper)
  rcases append_cons_cases hwhole with ⟨mid, hlower, hright⟩ | ⟨mid, hback, -⟩
  · refine ⟨mid, hlower, hright.trans (List.append_assoc mid equal upper).symm,
      fun q hq => h.lower q ?_, h.equal, h.upper⟩
    simp [hlower, hq]
  · have hp : p ∈ equal ++ upper := by simp [hback]
    rcases List.mem_append.mp hp with hp | hp
    · exact absurd ((h.equal p hp).symm.trans hgt) (by decide)
    · exact absurd ((h.upper p hp).symm.trans hgt) (by decide)

end Cut

/-- A search ends at a value that the probe equals, or, if there is none, at the value beside
the gap that its mode names. -/
theorem search_of_cut (mode : SearchMode) (h : Cut probe t.toList lower equal upper) :
    (equal ≠ [] → ∃ p ∈ equal, t.search probe mode = some p) ∧
      (equal = [] → t.search probe mode = mode.beside lower upper) := by
  induction t generalizing lower upper with
  | nil =>
      have hnil : lower = [] ∧ equal = [] ∧ upper = [] := by simpa using h.whole.symm
      obtain ⟨rfl, rfl, rfl⟩ := hnil
      exact ⟨fun hne => absurd rfl hne, fun _ => by cases mode <;> rfl⟩
  | node left id v height right ihl ihr =>
      rw [toList_node] at h
      rw [search]
      cases hp : probe v with
      | eq =>
          have hmem : (id, v) ∈ equal := h.mem_equal (by simp) hp
          exact ⟨fun _ => ⟨(id, v), hmem, rfl⟩, fun hnil => by rw [hnil] at hmem; cases hmem⟩
      | lt =>
          obtain ⟨upper', rfl, hleft⟩ := h.of_lt hp
          obtain ⟨hfound, hgap⟩ := ihl hleft
          refine ⟨fun hne => ?_, fun hnil => ?_⟩
          · obtain ⟨p, hmem, hsearch⟩ := hfound hne
            exact ⟨p, hmem, by simp [hsearch]⟩
          · rw [mode.beside_append_cons, ← hgap hnil]
      | gt =>
          obtain ⟨lower', rfl, hright⟩ := h.of_gt hp
          obtain ⟨hfound, hgap⟩ := ihr hright
          refine ⟨fun hne => ?_, fun hnil => ?_⟩
          · obtain ⟨p, hmem, hsearch⟩ := hfound hne
            exact ⟨p, hmem, by simp [hsearch]⟩
          · rw [mode.beside_append_cons_left, ← hgap hnil]

end Tree

namespace Linked

variable {α κ : Type} {x : Linked α} {keying : Keying α κ}
variable {lower equal upper : List (Handle × α)}

/-- After any run, a search by a probe that cuts the sequence in parts ends at a node of the
middle part, whatever its mode. If that part is empty, an exact search finds nothing, and a
search in one of the other modes ends at the neighbour of the gap on that side, if there is
one. -/
theorem search_of_every_run (h : Reachable keying x) (probe : κ) (mode : SearchMode)
    (hcut : Tree.Cut (keying.locate probe) x.toList lower equal upper) :
    ∃ answer, (search? (keying.locate probe) mode : LinkedOperation IndexError α _).outcome x =
        (.ok answer, x) ∧
      (equal ≠ [] → ∃ p ∈ equal, answer = some p.1) ∧
      (equal = [] → answer = (mode.beside lower upper).map Prod.fst) := by
  obtain ⟨ix, hix, hmirrors⟩ := h.exists_mirrors
  rw [hmirrors.toList_eq hix] at hcut
  obtain ⟨hfound, hgap⟩ := Tree.search_of_cut mode hcut
  refine ⟨_, hmirrors.outcome_search? hix _ _, fun hne => ?_, fun hnil => ?_⟩
  · obtain ⟨p, hmem, hsearch⟩ := hfound hne
    exact ⟨p, hmem, by rw [hsearch]; rfl⟩
  · rw [hgap hnil]

/-- One probe that meets three spans of four, and one that falls between two of them. -/
theorem search_of_spans_run :
    let x := (empty 7 : Linked (Int × Int)).afterCalls Keying.spans
      [.insert (0, 10), .insert (10, 20), .insert (20, 30), .insert (40, 50)]
    (∃ p ∈ [((⟨7, 1, 0⟩ : Handle), ((10 : Int), (20 : Int))), (⟨7, 2, 0⟩, (20, 30)),
        (⟨7, 3, 0⟩, (40, 50))],
      (search? (Keying.spans.locate (12, 45)) .below : LinkedOperation IndexError _ _).outcome x =
        (.ok (some p.1), x)) ∧
    (search? (Keying.spans.locate (30, 40)) .exact : LinkedOperation IndexError _ _).outcome x =
      (.ok none, x) ∧
    (search? (Keying.spans.locate (30, 40)) .above : LinkedOperation IndexError _ _).outcome x =
      (.ok (some ⟨7, 3, 0⟩), x) ∧
    (search? (Keying.spans.locate (30, 40)) .below : LinkedOperation IndexError _ _).outcome x =
      (.ok (some ⟨7, 2, 0⟩), x) := by
  intro x
  have hx : Reachable Keying.spans x := (Reachable.empty 7).afterCalls _
  have hmeets : Tree.Cut (Keying.spans.locate (12, 45)) x.toList [(⟨7, 0, 0⟩, (0, 10))]
      [(⟨7, 1, 0⟩, (10, 20)), (⟨7, 2, 0⟩, (20, 30)), (⟨7, 3, 0⟩, (40, 50))] [] :=
    ⟨by decide +kernel, by decide, by decide, by decide⟩
  have hgap : Tree.Cut (Keying.spans.locate (30, 40)) x.toList
      [(⟨7, 0, 0⟩, (0, 10)), (⟨7, 1, 0⟩, (10, 20)), (⟨7, 2, 0⟩, (20, 30))] []
      [(⟨7, 3, 0⟩, (40, 50))] :=
    ⟨by decide +kernel, by decide, by decide, by decide⟩
  have hbetween : ∀ mode, (search? (Keying.spans.locate (30, 40)) mode :
      LinkedOperation IndexError _ _).outcome x =
        (.ok ((mode.beside [((⟨7, 0, 0⟩ : Handle), ((0 : Int), (10 : Int))),
          (⟨7, 1, 0⟩, (10, 20)), (⟨7, 2, 0⟩, (20, 30))] [(⟨7, 3, 0⟩, (40, 50))]).map Prod.fst),
          x) := fun mode => by
    obtain ⟨answer, hout, -, hbeside⟩ := search_of_every_run hx (30, 40) mode hgap
    rw [hout, hbeside rfl]
  obtain ⟨answer, hout, hfound, -⟩ := search_of_every_run hx (12, 45) .below hmeets
  obtain ⟨p, hp, rfl⟩ := hfound (by decide)
  exact ⟨⟨p, hp, hout⟩, hbetween .exact, hbetween .above, hbetween .below⟩

end Linked

end KernelMemory
