import KernelMemory.Index.Tree

/-!
# A tree as a sequence

Every function on trees is said here in terms of `toList`, the handles and values in order.
Rotations do not change the sequence, so an update changes it at one place only: an insert
opens a gap, a removal closes one, and overwriting leaves the handles alone.

Two conditions carry the reading side. Handles are found where they are if no two nodes
share one. A search descends by a probe, and its answer means something for the sequence if
the probe `Sorts` it: first the values below the probe, then those it equals, then those
above. That is all that is asked of a keying; an order on keys is not needed.
-/

namespace KernelMemory

namespace Tree

variable {α : Type}

/-- The probe meets the values of a sequence in this order: those it lies above, those it
equals, those it lies below. -/
def Sorts (probe : α → Ordering) (l : List (Handle × α)) : Prop :=
  l.Pairwise fun a b =>
    (probe a.2 = .lt → probe b.2 = .lt) ∧ (probe b.2 = .gt → probe a.2 = .gt)

theorem mem_handles {t : Tree α} {id : Handle} :
    id ∈ t.handles ↔ ∃ v, (id, v) ∈ t.toList := by
  simp [handles]

@[simp] theorem handles_nil : (nil : Tree α).handles = [] := rfl

@[simp] theorem handles_node (left : Tree α) (x : Handle) (v : α) (h : Nat) (right : Tree α) :
    (node left x v h right).handles = left.handles ++ x :: right.handles := by
  simp [handles]

theorem mem_handles_of_split {t : Tree α} {pre post : List (Handle × α)} {id : Handle} {v : α}
    (h : t.toList = pre ++ (id, v) :: post) : id ∈ t.handles :=
  mem_handles.mpr ⟨v, by simp [h]⟩

/-- No handle is on both sides of a node. -/
theorem not_mem_right_of_mem_left {left right : Tree α} {x : Handle} {v : α} {h : Nat}
    (hn : (node left x v h right).handles.Nodup) {id : Handle} (hl : id ∈ left.handles) :
    id ∉ right.handles := by
  rw [handles_node, List.nodup_append] at hn
  exact fun hr => hn.2.2 id hl id (List.mem_cons_of_mem x hr) rfl

/-- Where handles are distinct, a handle stands at one place. -/
theorem split_unique {pre post pre' post' : List (Handle × α)} {id : Handle} {v w : α}
    (hn : ((pre ++ (id, v) :: post).map Prod.fst).Nodup)
    (h : pre ++ (id, v) :: post = pre' ++ (id, w) :: post') :
    pre = pre' ∧ v = w ∧ post = post' := by
  induction pre generalizing pre' with
  | nil =>
      cases pre' with
      | nil => simpa using h
      | cons p pre' =>
          simp only [List.nil_append, List.cons_append, List.cons.injEq] at h
          rw [List.nil_append, List.map_cons, List.nodup_cons, h.2] at hn
          exact absurd (by simp) hn.1
  | cons q pre ih =>
      rw [List.cons_append, List.map_cons, List.nodup_cons] at hn
      cases pre' with
      | nil =>
          simp only [List.nil_append, List.cons_append, List.cons.injEq] at h
          obtain ⟨rfl, -⟩ := h
          exact absurd (by simp) hn.1
      | cons p pre' =>
          simp only [List.cons_append, List.cons.injEq] at h
          obtain ⟨rfl, h⟩ := h
          obtain ⟨rfl, rest⟩ := ih hn.2 h
          exact ⟨rfl, rest⟩

/-- Replacing the value of a handle changes no other pair. -/
theorem mem_replaced {pre post : List (Handle × α)} {id x : Handle} {v w : α} (new : α)
    (hn : ((pre ++ (id, v) :: post).map Prod.fst).Nodup) :
    (x, w) ∈ pre ++ (id, new) :: post ↔
      x = id ∧ w = new ∨ x ≠ id ∧ (x, w) ∈ pre ++ (id, v) :: post := by
  have hside : ∀ {u}, (x, u) ∈ pre ++ post → x ≠ id := by
    rintro u hu rfl
    have hperm : ((pre ++ (x, v) :: post).map Prod.fst).Perm
        (((x, v) :: (pre ++ post)).map Prod.fst) := List.perm_middle.map Prod.fst
    rw [hperm.nodup_iff, List.map_cons, List.nodup_cons] at hn
    exact hn.1 (List.mem_map.mpr ⟨(x, u), hu, rfl⟩)
  simp only [List.mem_append, List.mem_cons, Prod.mk.injEq] at hside ⊢
  constructor
  · rintro (hp | ⟨rfl, rfl⟩ | hp)
    · exact .inr ⟨hside (.inl hp), .inl hp⟩
    · exact .inl ⟨rfl, rfl⟩
    · exact .inr ⟨hside (.inr hp), .inr (.inr hp)⟩
  · rintro (⟨rfl, rfl⟩ | ⟨hne, hp | ⟨rfl, -⟩ | hp⟩)
    · exact .inr (.inl ⟨rfl, rfl⟩)
    · exact .inl hp
    · exact absurd rfl hne
    · exact .inr (.inr hp)

/-- Where a sequence is cut in two, each of its members is in one of the parts. -/
theorem append_cons_cases {β : Type} {left right front back : List β} {b : β}
    (h : left ++ b :: right = front ++ back) :
    (∃ mid, front = left ++ b :: mid ∧ right = mid ++ back) ∨
      ∃ mid, back = mid ++ b :: right ∧ left = front ++ mid := by
  rcases List.append_eq_append_iff.mp h with ⟨mid, hfront, hmid⟩ | ⟨mid, hleft, hback⟩
  · cases mid with
    | nil => exact .inr ⟨[], by simpa using hmid.symm, by simpa using hfront.symm⟩
    | cons q mid =>
        obtain ⟨rfl, hright⟩ := List.cons.inj hmid
        exact .inl ⟨mid, hfront, hright⟩
  · exact .inr ⟨mid, hback, hleft⟩

/-- A handle other than the one in the middle stands on one of the two sides. -/
theorem split_side {l r pre post : List (Handle × α)} {x id : Handle} {w v : α}
    (hne : x ≠ id) (h : l ++ (x, w) :: r = pre ++ (id, v) :: post) :
    (∃ post', l = pre ++ (id, v) :: post' ∧ post = post' ++ (x, w) :: r) ∨
      ∃ pre', r = pre' ++ (id, v) :: post ∧ pre = l ++ (x, w) :: pre' := by
  rcases append_cons_cases h with ⟨mid, hpre, hr⟩ | ⟨mid, hmid, hl⟩
  · exact .inr ⟨mid, hr, hpre⟩
  · cases mid with
    | nil => exact absurd (congrArg Prod.fst (List.cons.inj hmid).1).symm hne
    | cons q mid =>
        obtain ⟨rfl, hpost⟩ := List.cons.inj hmid
        exact .inl ⟨mid, hl, hpost⟩

/-! ## Rotations -/

@[simp] theorem toList_join (left : Tree α) (x : Handle) (v : α) (right : Tree α) :
    (join left x v right).toList = left.toList ++ (x, v) :: right.toList := rfl

@[simp] theorem toList_rotateLeft (t : Tree α) : t.rotateLeft.toList = t.toList := by
  unfold rotateLeft
  split <;> simp

@[simp] theorem toList_rotateRight (t : Tree α) : t.rotateRight.toList = t.toList := by
  unfold rotateRight
  split <;> simp

@[simp] theorem toList_restore (left : Tree α) (x : Handle) (v : α) (was : Nat)
    (right : Tree α) :
    (restore left x v was right).tree.toList = left.toList ++ (x, v) :: right.toList := by
  simp only [restore]
  split
  · split <;> simp
  · split
    · split <;> simp
    · simp

end Tree

namespace Change

variable {α : Type}

@[simp] theorem toList_ontoLeft (c : Change α) (x : Handle) (v : α) (was : Nat)
    (right : Tree α) :
    (c.ontoLeft x v was right).tree.toList = c.tree.toList ++ (x, v) :: right.toList := by
  unfold ontoLeft
  split <;> simp

@[simp] theorem toList_ontoRight (left : Tree α) (x : Handle) (v : α) (was : Nat)
    (c : Change α) :
    (ontoRight left x v was c).tree.toList = left.toList ++ (x, v) :: c.tree.toList := by
  unfold ontoRight
  split <;> simp

end Change

namespace Tree

variable {α : Type}

/-! ## Updates -/

/-- Inserting opens a gap. If the probe sorts the sequence, the gap is in front of the
values that the probe lies below. -/
theorem exists_toList_insert (probe : α → Ordering) (id : Handle) (new : α) (t : Tree α) :
    ∃ pre post, t.toList = pre ++ post ∧
      (t.insert probe id new).tree.toList = pre ++ (id, new) :: post ∧
      (Sorts probe t.toList →
        (∀ p ∈ pre, probe p.2 ≠ .lt) ∧ ∀ p ∈ post, probe p.2 = .lt) := by
  induction t with
  | nil => exact ⟨[], [], rfl, rfl, fun _ => by simp⟩
  | node left x v h right ihl ihr =>
      rw [insert]
      split
      · next hlt =>
        obtain ⟨pre, post, hl, hins, hsort⟩ := ihl
        refine ⟨pre, post ++ (x, v) :: right.toList, by simp [hl], by simp [hins], ?_⟩
        intro hs
        rw [toList_node, Sorts, List.pairwise_append, List.pairwise_cons] at hs
        obtain ⟨hpre, hpost⟩ := hsort hs.1
        refine ⟨hpre, ?_⟩
        intro p hp
        rcases List.mem_append.mp hp with hp | hp
        · exact hpost p hp
        · rcases List.mem_cons.mp hp with rfl | hp
          · exact hlt
          · exact (hs.2.1.1 p hp).1 hlt
      · next hge =>
        obtain ⟨pre, post, hr, hins, hsort⟩ := ihr
        refine ⟨left.toList ++ (x, v) :: pre, post, by simp [hr], by simp [hins], ?_⟩
        intro hs
        rw [toList_node, Sorts, List.pairwise_append, List.pairwise_cons] at hs
        obtain ⟨hpre, hpost⟩ := hsort hs.2.1.2
        refine ⟨?_, hpost⟩
        intro p hp
        rcases List.mem_append.mp hp with hp | hp
        · exact fun hlt => hge ((hs.2.2 p hp (x, v) (by simp)).1 hlt)
        · rcases List.mem_cons.mp hp with rfl | hp
          · exact hge
          · exact hpre p hp

theorem toList_popFirst? {t : Tree α} {d : Detached α} (h : t.popFirst? = some d) :
    t.toList = (d.handle, d.value) :: d.rest.tree.toList := by
  induction t generalizing d with
  | nil => simp [popFirst?] at h
  | node left x v height right ihl ihr =>
      rw [popFirst?] at h
      split at h
      · next hnone =>
        obtain rfl := Option.some.inj h
        cases left with
        | nil => rfl
        | node a y w hy b => rw [popFirst?] at hnone; split at hnone <;> simp at hnone
      · next first hfirst =>
        obtain rfl := Option.some.inj h
        simp [ihl hfirst]

theorem toList_unroot (left : Tree α) (height : Nat) (right : Tree α) :
    (left.unroot height right).tree.toList = left.toList ++ right.toList := by
  unfold unroot
  split
  · rfl
  · next hnone =>
    cases right with
    | nil => simp
    | node a y w hy b => rw [popFirst?] at hnone; split at hnone <;> simp at hnone
  · next hsome => simp [toList_popFirst? hsome]

theorem toList_remove? {t : Tree α} {id : Handle} {v : α} {c : Change α}
    (h : t.remove? id = some (v, c)) :
    ∃ pre post, t.toList = pre ++ (id, v) :: post ∧ c.tree.toList = pre ++ post := by
  induction t generalizing v c with
  | nil => simp [remove?] at h
  | node left x w height right ihl ihr =>
      rw [remove?] at h
      split at h
      · next heq =>
        subst heq
        obtain ⟨rfl, rfl⟩ := Prod.mk.inj (Option.some.inj h)
        exact ⟨left.toList, right.toList, rfl, toList_unroot left height right⟩
      · split at h
        · next old c' hleft =>
          obtain ⟨rfl, rfl⟩ := Prod.mk.inj (Option.some.inj h)
          obtain ⟨pre, post, hl, hc⟩ := ihl hleft
          exact ⟨pre, post ++ (x, w) :: right.toList, by simp [hl], by simp [hc]⟩
        · split at h
          · next old c' hright =>
            obtain ⟨rfl, rfl⟩ := Prod.mk.inj (Option.some.inj h)
            obtain ⟨pre, post, hr, hc⟩ := ihr hright
            exact ⟨left.toList ++ (x, w) :: pre, post, by simp [hr], by simp [hc]⟩
          · simp at h

theorem exists_remove? {t : Tree α} {id : Handle} (h : id ∈ t.handles) :
    ∃ v c, t.remove? id = some (v, c) := by
  induction t with
  | nil => simp at h
  | node left x w height right ihl ihr =>
      rw [handles_node, List.mem_append, List.mem_cons] at h
      rw [remove?]
      split
      · exact ⟨_, _, rfl⟩
      · next hne =>
        split
        · exact ⟨_, _, rfl⟩
        · next hleft =>
          have hright : id ∈ right.handles := by
            rcases h with h | rfl | h
            · obtain ⟨v, c, hsome⟩ := ihl h
              simp [hleft] at hsome
            · exact absurd rfl hne
            · exact h
          obtain ⟨v, c, hsome⟩ := ihr hright
          rw [hsome]
          exact ⟨_, _, rfl⟩

theorem remove?_eq_none {t : Tree α} {id : Handle} (h : id ∉ t.handles) :
    t.remove? id = none := by
  cases hr : t.remove? id with
  | none => rfl
  | some found =>
      obtain ⟨pre, post, hl, -⟩ := toList_remove? (v := found.1) (c := found.2) hr
      exact absurd (mem_handles.mpr ⟨found.1, by simp [hl]⟩) h

theorem set_of_not_mem {t : Tree α} {id : Handle} (h : id ∉ t.handles) (new : α) :
    t.set id new = t := by
  induction t with
  | nil => rfl
  | node left x v height right ihl ihr =>
      simp only [handles_node, List.mem_append, List.mem_cons, not_or] at h
      rw [set, if_neg (Ne.symm h.2.1), ihl h.1, ihr h.2.2]

theorem toList_set {t : Tree α} {id : Handle} {v : α} {pre post : List (Handle × α)}
    (hn : t.handles.Nodup) (h : t.toList = pre ++ (id, v) :: post) (new : α) :
    (t.set id new).toList = pre ++ (id, new) :: post := by
  induction t generalizing pre post with
  | nil => simp at h
  | node left x w height right ihl ihr =>
      have hsides := hn
      rw [handles_node, List.nodup_append, List.nodup_cons] at hsides
      rw [toList_node] at h
      rw [set]
      split
      · next heq =>
        subst heq
        obtain ⟨rfl, -, rfl⟩ := split_unique hn h
        rfl
      · next hne =>
        rw [toList_node]
        rcases split_side hne h with ⟨post', hl, rfl⟩ | ⟨pre', hr, rfl⟩
        · have hright := not_mem_right_of_mem_left hn (mem_handles_of_split hl)
          rw [ihl hsides.1 hl, set_of_not_mem hright]
          simp
        · have hleft : id ∉ left.handles := fun hl =>
            not_mem_right_of_mem_left hn hl (mem_handles_of_split hr)
          rw [ihr hsides.2.1.2 hr, set_of_not_mem hleft]
          simp

/-! ## Reading by handle -/

theorem mem_of_find? {t : Tree α} {id : Handle} {v : α} (h : t.find? id = some v) :
    (id, v) ∈ t.toList := by
  induction t with
  | nil => simp [find?] at h
  | node left x w height right ihl ihr =>
      rw [find?] at h
      rw [toList_node, List.mem_append, List.mem_cons]
      split at h
      · next heq => exact .inr (.inl (by rw [heq, Option.some.inj h]))
      · rcases Option.or_eq_some_iff.mp h with h | ⟨-, h⟩
        · exact .inl (ihl h)
        · exact .inr (.inr (ihr h))

theorem find?_eq_none_iff {t : Tree α} {id : Handle} : t.find? id = none ↔ id ∉ t.handles := by
  induction t with
  | nil => simp [find?]
  | node left x w height right ihl ihr =>
      rw [find?, handles_node]
      split
      · next heq => simp [heq]
      · next hne =>
        rw [Option.or_eq_none_iff, ihl, ihr]
        simp [Ne.symm hne]

theorem find?_eq_some_iff {t : Tree α} (hn : t.handles.Nodup) {id : Handle} {v : α} :
    t.find? id = some v ↔ (id, v) ∈ t.toList := by
  refine ⟨mem_of_find?, ?_⟩
  intro hmem
  cases hf : t.find? id with
  | none => exact absurd (mem_handles.mpr ⟨v, hmem⟩) (find?_eq_none_iff.mp hf)
  | some w =>
      obtain ⟨pre, post, hl⟩ := List.append_of_mem hmem
      obtain ⟨pre', post', hl'⟩ := List.append_of_mem (mem_of_find? hf)
      have hn' : ((pre ++ (id, v) :: post).map Prod.fst).Nodup := by
        rw [← hl]
        exact hn
      rw [(split_unique hn' (hl.symm.trans hl')).2.1]

theorem find?_of_split {t : Tree α} (hn : t.handles.Nodup) {id : Handle} {v : α}
    {pre post : List (Handle × α)} (h : t.toList = pre ++ (id, v) :: post) :
    t.find? id = some v :=
  (find?_eq_some_iff hn).mpr (by simp [h])

theorem first?_eq (t : Tree α) : t.first? = t.toList.head?.map Prod.fst := by
  induction t with
  | nil => rfl
  | node left x v height right ihl ihr =>
      rw [first?, ihl, toList_node]
      cases left.toList <;> rfl

theorem last?_eq (t : Tree α) : t.last? = t.toList.getLast?.map Prod.fst := by
  induction t with
  | nil => rfl
  | node left x v height right ihl ihr =>
      rw [last?, ihr, toList_node, List.getLast?_append, List.getLast?_cons]
      cases right.toList.getLast? <;> rfl

theorem after_eq_none {t : Tree α} {id : Handle} (h : id ∉ t.handles)
    (bound : Option Handle) : t.after id bound = none := by
  induction t generalizing bound with
  | nil => rfl
  | node left x v height right ihl ihr =>
      simp only [handles_node, List.mem_append, List.mem_cons, not_or] at h
      rw [after, if_neg (Ne.symm h.2.1), ihl h.1, ihr h.2.2]
      rfl

theorem before_eq_none {t : Tree α} {id : Handle} (h : id ∉ t.handles)
    (bound : Option Handle) : t.before id bound = none := by
  induction t generalizing bound with
  | nil => rfl
  | node left x v height right ihl ihr =>
      simp only [handles_node, List.mem_append, List.mem_cons, not_or] at h
      rw [before, if_neg (Ne.symm h.2.1), ihl h.1, ihr h.2.2]
      rfl

/-- What follows a handle in a subtree is what follows it in the sequence, and behind the
last one it is what follows the subtree. -/
theorem after_eq {t : Tree α} (hn : t.handles.Nodup) {id : Handle} {v : α}
    {pre post : List (Handle × α)} (h : t.toList = pre ++ (id, v) :: post)
    (bound : Option Handle) :
    t.after id bound = some ((post.head?.map Prod.fst).or bound) := by
  induction t generalizing pre post bound with
  | nil => simp at h
  | node left x w height right ihl ihr =>
      have hsides := hn
      rw [handles_node, List.nodup_append, List.nodup_cons] at hsides
      rw [toList_node] at h
      rw [after]
      split
      · next heq =>
        subst heq
        obtain ⟨rfl, -, rfl⟩ := split_unique hn h
        rw [first?_eq]
      · next hne =>
        rcases split_side hne h with ⟨post', hl, rfl⟩ | ⟨pre', hr, rfl⟩
        · rw [ihl hsides.1 hl]
          cases post' <;> rfl
        · have hleft : id ∉ left.handles := fun hl =>
            not_mem_right_of_mem_left hn hl (mem_handles_of_split hr)
          rw [after_eq_none hleft, ihr hsides.2.1.2 hr]
          rfl

/-- What precedes a handle in a subtree is what precedes it in the sequence, and in front
of the first one it is what precedes the subtree. -/
theorem before_eq {t : Tree α} (hn : t.handles.Nodup) {id : Handle} {v : α}
    {pre post : List (Handle × α)} (h : t.toList = pre ++ (id, v) :: post)
    (bound : Option Handle) :
    t.before id bound = some ((pre.getLast?.map Prod.fst).or bound) := by
  induction t generalizing pre post bound with
  | nil => simp at h
  | node left x w height right ihl ihr =>
      have hsides := hn
      rw [handles_node, List.nodup_append, List.nodup_cons] at hsides
      rw [toList_node] at h
      rw [before]
      split
      · next heq =>
        subst heq
        obtain ⟨rfl, -, rfl⟩ := split_unique hn h
        rw [last?_eq]
      · next hne =>
        rcases split_side hne h with ⟨post', hl, rfl⟩ | ⟨pre', hr, rfl⟩
        · rw [ihl hsides.1 hl]
          rfl
        · have hleft : id ∉ left.handles := fun hl =>
            not_mem_right_of_mem_left hn hl (mem_handles_of_split hr)
          rw [before_eq_none hleft, ihr hsides.2.1.2 hr, List.getLast?_append,
            List.getLast?_cons]
          cases pre'.getLast? <;> rfl

theorem successor?_eq {t : Tree α} (hn : t.handles.Nodup) {id : Handle} {v : α}
    {pre post : List (Handle × α)} (h : t.toList = pre ++ (id, v) :: post) :
    t.successor? id = post.head?.map Prod.fst := by
  rw [successor?, after_eq hn h]
  cases post <;> rfl

theorem predecessor?_eq {t : Tree α} (hn : t.handles.Nodup) {id : Handle} {v : α}
    {pre post : List (Handle × α)} (h : t.toList = pre ++ (id, v) :: post) :
    t.predecessor? id = pre.getLast?.map Prod.fst := by
  rw [predecessor?, before_eq hn h]
  cases pre.getLast? <;> rfl

/-! ## Searching by probe -/

theorem mem_of_search {probe : α → Ordering} {mode : SearchMode} {t : Tree α}
    {p : Handle × α} (h : t.search probe mode = some p) : p ∈ t.toList := by
  induction t with
  | nil => simp [search] at h
  | node left x v height right ihl ihr =>
      rw [search] at h
      rw [toList_node, List.mem_append, List.mem_cons]
      split at h
      · exact .inr (.inl (Option.some.inj h).symm)
      · rcases Option.or_eq_some_iff.mp h with h | ⟨-, h⟩
        · exact .inl (ihl h)
        · split at h
          · exact .inr (.inl (Option.some.inj h).symm)
          · simp at h
      · rcases Option.or_eq_some_iff.mp h with h | ⟨-, h⟩
        · exact .inr (.inr (ihr h))
        · split at h
          · exact .inr (.inl (Option.some.inj h).symm)
          · simp at h

theorem eq_of_search_exact {probe : α → Ordering} {t : Tree α} {p : Handle × α}
    (h : t.search probe .exact = some p) : probe p.2 = .eq := by
  induction t with
  | nil => simp [search] at h
  | node left x v height right ihl ihr =>
      rw [search] at h
      split at h
      · next heq =>
        obtain rfl := Option.some.inj h
        exact heq
      · exact ihl (by simpa using h)
      · exact ihr (by simpa using h)

/-- A search without an answer has ruled out every value, also those it did not meet. -/
theorem search_exact_eq_none_iff {probe : α → Ordering} {t : Tree α}
    (hs : Sorts probe t.toList) :
    t.search probe .exact = none ↔ ∀ p ∈ t.toList, probe p.2 ≠ .eq := by
  constructor
  · intro h
    induction t with
    | nil => simp
    | node left x v height right ihl ihr =>
        rw [search] at h
        rw [toList_node, Sorts, List.pairwise_append, List.pairwise_cons] at hs
        intro p hp
        rw [toList_node, List.mem_append, List.mem_cons] at hp
        split at h
        · simp at h
        · next hlt =>
          rcases hp with hp | rfl | hp
          · exact ihl hs.1 (by simpa using h) p hp
          · simp [hlt]
          · simp [(hs.2.1.1 p hp).1 hlt]
        · next hgt =>
          rcases hp with hp | rfl | hp
          · simp [(hs.2.2 p hp (x, v) (by simp)).2 hgt]
          · simp [hgt]
          · exact ihr hs.2.1.2 (by simpa using h) p hp
  · intro h
    cases hf : t.search probe .exact with
    | none => rfl
    | some p => exact absurd (eq_of_search_exact hf) (h p (mem_of_search hf))

end Tree

end KernelMemory
