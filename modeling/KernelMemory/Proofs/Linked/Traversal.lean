import KernelMemory.Index.Cursor
import KernelMemory.Proofs.Linked.Handles
import KernelMemory.Proofs.Linked.Layout

/-!
# Traversals

To find the next node, an index goes down along the links of a side or up along the links to
parents, so a walk through all nodes is right only if the links in both directions are. Links
that draw a tree are, and then every walk follows the sequence of the tree: a cursor shows it
from the front, and a walk to either side shows it in the order in which the nodes come towards
that side.

A walk to the left is a walk to the right through the reversed sequence. So `Side.arrange` puts
the sequence in the order of a side once, and what follows is said of both sides together.
-/

namespace KernelMemory

namespace Side

variable {β : Type}

/-- A sequence in the order in which it comes towards a side. -/
def arrange (side : Side) (l : List β) : List β :=
  match side with
  | right => l
  | left => l.reverse

theorem arrange_other (side : Side) (l : List β) :
    side.other.arrange l = (side.arrange l).reverse := by
  cases side <;> simp [arrange, other]

theorem mem_arrange {side : Side} {l : List β} {b : β} : b ∈ side.arrange l ↔ b ∈ l := by
  cases side <;> simp [arrange]

theorem length_arrange (side : Side) (l : List β) : (side.arrange l).length = l.length := by
  cases side <;> simp [arrange]

end Side

/-- A walk to a side starts at the outermost node of the other side. -/
theorem Tree.outermost?_other {α : Type} (t : Tree α) (side : Side) :
    t.outermost? side.other = (side.arrange t.toList).head?.map Prod.fst := by
  cases side with
  | right => exact t.first?_eq
  | left => exact t.last?_eq.trans (by rw [Side.arrange, List.head?_reverse])

namespace Linked

variable {α κ ε : Type} {x : Linked α} {ix : Index α} {id k : Handle} {v : α} {side : Side}
variable {pre post rest : List (Handle × α)}

/-! ## To the next node -/

theorem Mirrors.outcome_next? (h : x.Mirrors ix) (hix : ix.Sound)
    (hl : side.arrange ix.toList = pre ++ (id, v) :: post) :
    (next? side id : LinkedOperation ε α _).outcome x = (.ok (post.head?.map Prod.fst), x) := by
  have hsteps := size_le_cells (h.serves hix)
  cases side with
  | right => exact h.shows.outcome_next? hix.nodup hsteps hl
  | left =>
      have hl' : ix.tree.toList = post.reverse ++ (id, v) :: pre.reverse := by
        have hreverse := congrArg List.reverse hl
        simpa [Side.arrange, Index.toList] using hreverse
      rw [h.shows.outcome_previous? hix.nodup hsteps hl', List.getLast?_reverse]

/-- A handle that has a next node is in the sequence, in front of it. -/
theorem Mirrors.exists_split_of_next? (h : x.Mirrors ix) (hix : ix.Sound)
    (hnext : (next? side id : LinkedOperation ε α _).outcome x = (.ok (some k), x)) :
    ∃ pre v w post, side.arrange ix.toList = pre ++ (id, v) :: (k, w) :: post := by
  by_cases hid : id ∈ ix.tree.handles
  · obtain ⟨v, hmem⟩ := Tree.mem_handles.mp hid
    have hmem' : (id, v) ∈ side.arrange ix.toList := Side.mem_arrange.mpr hmem
    obtain ⟨pre, post, hl⟩ := List.append_of_mem hmem'
    have hout := h.outcome_next? (ε := ε) hix hl
    cases post with
    | nil => rw [hout] at hnext; cases hnext
    | cons q post =>
        obtain ⟨k', w⟩ := q
        obtain rfl : k' = k := by
          rw [hout] at hnext
          simpa using hnext
        exact ⟨pre, v, w, post, hl⟩
  · rw [next?, Operation.outcome_get_bind, h.node?_eq_none hix hid] at hnext
    cases hnext

/-- The way to the next node on one side is a way back on the other. -/
theorem Mirrors.next?_back (h : x.Mirrors ix) (hix : ix.Sound)
    (hnext : (next? side id : LinkedOperation ε α _).outcome x = (.ok (some k), x)) :
    (next? side.other k : LinkedOperation ε α _).outcome x = (.ok (some id), x) := by
  obtain ⟨pre, v, w, post, hl⟩ := h.exists_split_of_next? hix hnext
  have hback : side.other.arrange ix.toList = post.reverse ++ (k, w) :: (id, v) :: pre.reverse := by
    rw [Side.arrange_other, hl]
    simp
  exact h.outcome_next? hix hback

/-! ## Walks -/

/-- From any place a walk shows the rest of the sequence: by induction on it. -/
theorem Mirrors.outcome_walkFrom (h : x.Mirrors ix) (hix : ix.Sound)
    (hl : side.arrange ix.toList = pre ++ rest) {steps : Nat} (hrest : rest.length ≤ steps) :
    (walkFrom side steps (rest.head?.map Prod.fst) : LinkedOperation ε α _).outcome x =
      (.ok rest, x) := by
  induction rest generalizing pre steps with
  | nil => cases steps <;> rfl
  | cons p rest ih =>
      obtain ⟨id, v⟩ := p
      obtain ⟨steps, rfl⟩ : ∃ n, steps = n + 1 := ⟨steps - 1, by simp at hrest; omega⟩
      have hmem : (id, v) ∈ ix.toList := Side.mem_arrange.mp (by rw [hl]; simp)
      obtain ⟨n, hid, rfl⟩ := h.shows.draws.exists_value hmem
      have hl' : side.arrange ix.toList = (pre ++ [(id, n.value)]) ++ rest := by simp [hl]
      have hrest' := ih hl' (show rest.length ≤ steps by simpa using hrest)
      show (resolve id >>= _).outcome x = _
      rw [Operation.outcome_bind_ok (outcome_resolve hid),
        Operation.outcome_bind_ok (h.outcome_next? hix hl), Operation.outcome_bind_ok hrest',
        Operation.outcome_pure]

theorem Mirrors.outcome_walk (h : x.Mirrors ix) (hix : ix.Sound) (side : Side) :
    (walk side : LinkedOperation ε α _).outcome x = (.ok (side.arrange ix.toList), x) := by
  have hsteps := size_le_cells (h.serves hix)
  have hlength : (side.arrange ix.toList).length ≤ x.cells.size := by
    rwa [Side.length_arrange, Index.toList, Tree.length_toList]
  have hfrom := h.outcome_walkFrom (ε := ε) hix (List.nil_append (side.arrange ix.toList)).symm
    hlength
  rw [walk, Operation.outcome_get_bind,
    Operation.outcome_bind_ok (outcome_last? side.other h.shows hsteps),
    Tree.outermost?_other]
  exact hfrom

/-! ## Cursors -/

/-- The cursor in front of the node at a position; behind the last node there is one place. -/
def cursorAt (x : Linked α) (n : Nat) : Cursor :=
  ⟨x.toList[n]?.map Prod.fst, x.size - n⟩

theorem Mirrors.length_toList (h : x.Mirrors ix) (hix : ix.Sound) : x.toList.length = x.size := by
  rw [h.toList_eq hix, hix.length_toList, h.size_eq]

theorem Mirrors.cursorAt_of_le (h : x.Mirrors ix) (hix : ix.Sound) {n : Nat} (hn : x.size ≤ n) :
    x.cursorAt n = ⟨none, 0⟩ := by
  have hlength := h.length_toList hix
  rw [cursorAt, List.getElem?_eq_none (by omega), Nat.sub_eq_zero_of_le hn]
  rfl

theorem Mirrors.outcome_start (h : x.Mirrors ix) (hix : ix.Sound) :
    (Cursor.start : LinkedOperation ε α _).outcome x = (.ok (x.cursorAt 0), x) := by
  have hlast := outcome_last? (ε := ε) .left h.shows (size_le_cells (h.serves hix))
  have hfirst : ix.tree.outermost? .left = x.toList[0]?.map Prod.fst := by
    rw [h.toList_eq hix, ← List.head?_eq_getElem?]
    exact ix.tree.first?_eq
  rw [Cursor.start, Operation.outcome_get_bind, Operation.outcome_bind_ok hlast,
    Operation.outcome_pure, hfirst]
  rfl

/-- A cursor shows the node at its position and moves to the next one. -/
theorem Mirrors.outcome_advance (h : x.Mirrors ix) (hix : ix.Sound) (n : Nat) :
    ((x.cursorAt n).advance : LinkedOperation ε α _).outcome x =
      (.ok (x.toList[n]?, x.cursorAt (n + 1)), x) := by
  have hlist := h.toList_eq hix
  have hlength := h.length_toList hix
  cases hp : x.toList[n]? with
  | none =>
      have hsize : x.size ≤ n := by
        rw [← hlength]
        exact List.getElem?_eq_none_iff.mp hp
      rw [h.cursorAt_of_le hix hsize, h.cursorAt_of_le hix (Nat.le_succ_of_le hsize)]
      rfl
  | some p =>
      obtain ⟨id, v⟩ := p
      obtain ⟨hn, hget⟩ := List.getElem?_eq_some_iff.mp hp
      have hl : Side.right.arrange ix.toList =
          ix.toList.take n ++ (id, v) :: ix.toList.drop (n + 1) := by
        rw [← hlist, ← hget, List.getElem_cons_drop, List.take_append_drop]
        rfl
      obtain ⟨node, hid, rfl⟩ := h.shows.draws.exists_value
        (show (id, v) ∈ ix.toList from hlist ▸ List.mem_of_getElem? hp)
      have hcursor : x.cursorAt n = ⟨some id, x.size - n⟩ := by rw [cursorAt, hp]; rfl
      have hnext : x.cursorAt (n + 1) =
          ⟨(ix.toList.drop (n + 1)).head?.map Prod.fst, x.size - n - 1⟩ := by
        rw [cursorAt, hlist, List.head?_drop, Nat.sub_sub]
      rw [hcursor, hnext]
      show (next? .right id >>= _).outcome x = _
      rw [Operation.outcome_bind_ok (h.outcome_next? hix hl),
        Operation.outcome_bind_ok (outcome_resolve hid), Operation.outcome_pure]

/-- From any position a cursor shows as much of the rest of the sequence as it is asked for. -/
theorem Mirrors.outcome_take (h : x.Mirrors ix) (hix : ix.Sound) (m n : Nat) :
    ((x.cursorAt n).take m : LinkedOperation ε α _).outcome x =
      (.ok ((x.toList.drop n).take m, x.cursorAt (n + m)), x) := by
  induction m generalizing n with
  | zero => rfl
  | succ m ih =>
      rw [Cursor.take, Operation.outcome_bind_ok (h.outcome_advance hix n)]
      cases hp : x.toList[n]? with
      | none =>
          have hn : x.toList.length ≤ n := List.getElem?_eq_none_iff.mp hp
          have hsize : x.size ≤ n := by rw [← h.length_toList hix]; exact hn
          rw [List.drop_eq_nil_of_le hn, List.take_nil,
            h.cursorAt_of_le hix (show x.size ≤ n + 1 by omega),
            h.cursorAt_of_le hix (show x.size ≤ n + (m + 1) by omega)]
          rfl
      | some p =>
          obtain ⟨hn, hget⟩ := List.getElem?_eq_some_iff.mp hp
          have hshow : (x.toList.drop n).take (m + 1) = p :: (x.toList.drop (n + 1)).take m := by
            rw [List.drop_eq_getElem_cons hn, hget, List.take_succ_cons]
          rw [hshow, show n + (m + 1) = n + 1 + m by omega]
          show (Cursor.take m (x.cursorAt (n + 1)) >>= _).outcome x = _
          rw [Operation.outcome_bind_ok (ih (n + 1)), Operation.outcome_pure]

/-! ## Every run -/

/-- After any run the sequence holds every node once. A cursor shows it from the front, knows
at every position how much is left, and at its end shows nothing and stays. Walks show it in
both directions, for going to the next node on one side is undone by going to the next on the
other. -/
theorem traversal_of_every_run {keying : Keying α κ} (h : Reachable keying x) :
    (x.toList.map Prod.fst).Nodup ∧
    x.toList.length = x.size ∧
    (∀ id v, (id, v) ∈ x.toList ↔ x.get? id = some v) ∧
    (∀ n, ∃ c c', (Cursor.start >>= Cursor.take n : LinkedOperation ε α _).outcome x =
        (.ok (x.toList.take n, c), x) ∧
      c.remaining = x.size - n ∧
      (c.advance : LinkedOperation ε α _).outcome x = (.ok (x.toList[n]?, c'), x) ∧
      (x.size ≤ n → c' = c)) ∧
    (walk .right : LinkedOperation ε α _).outcome x = (.ok x.toList, x) ∧
    (walk .left : LinkedOperation ε α _).outcome x = (.ok x.toList.reverse, x) ∧
    ∀ id k, (next? .right id : LinkedOperation ε α _).outcome x = (.ok (some k), x) ↔
      (next? .left k : LinkedOperation ε α _).outcome x = (.ok (some id), x) := by
  obtain ⟨ix, hix, hmirrors⟩ := h.exists_mirrors
  have hlist := hmirrors.toList_eq hix
  refine ⟨?_, hmirrors.length_toList hix, fun id v => ?_, fun n =>
    ⟨x.cursorAt n, x.cursorAt (n + 1), ?_, rfl, hmirrors.outcome_advance hix n, fun hn => ?_⟩,
    ?_, ?_, fun id k => ⟨hmirrors.next?_back hix, hmirrors.next?_back hix⟩⟩
  · rw [hlist]
    exact hix.nodup
  · rw [hlist]
    exact hmirrors.mem_toList_iff hix
  · rw [Operation.outcome_bind_ok (hmirrors.outcome_start hix), hmirrors.outcome_take hix,
      List.drop_zero, Nat.zero_add]
  · rw [hmirrors.cursorAt_of_le hix hn, hmirrors.cursorAt_of_le hix (Nat.le_succ_of_le hn)]
  · rw [hlist]
    exact hmirrors.outcome_walk hix .right
  · rw [hlist]
    exact hmirrors.outcome_walk hix .left

/-- The root is removed from between two sides; its successor takes its place, and is shown
there by a cursor and by a walk backwards. -/
theorem traversal_of_removal_run :
    let x := (empty 7 : Linked Int).afterCalls Keying.integers
      [.insert 5, .insert 1, .insert 9, .insert 3, .insert 7, .remove ⟨7, 0, 0⟩]
    x.root = some ⟨7, 4, 0⟩ ∧
    (∃ c, (Cursor.start >>= Cursor.take 3 : LinkedOperation IndexError _ _).outcome x =
        (.ok ([(⟨7, 1, 0⟩, 1), (⟨7, 3, 0⟩, 3), (⟨7, 4, 0⟩, 7)], c), x) ∧
      c.remaining = 1) ∧
    (walk .left : LinkedOperation IndexError _ _).outcome x =
      (.ok [(⟨7, 2, 0⟩, 9), (⟨7, 4, 0⟩, 7), (⟨7, 3, 0⟩, 3), (⟨7, 1, 0⟩, 1)], x) := by
  intro x
  have hx : Reachable Keying.integers x := (Reachable.empty 7).afterCalls _
  have hlist : x.toList = [(⟨7, 1, 0⟩, 1), (⟨7, 3, 0⟩, 3), (⟨7, 4, 0⟩, 7), (⟨7, 2, 0⟩, 9)] := by
    decide +kernel
  obtain ⟨-, hlength, -, hcursor, -, hback, -⟩ := traversal_of_every_run (ε := IndexError) hx
  obtain ⟨c, c', htake, hremaining, -⟩ := hcursor 3
  rw [hlist] at hlength htake hback
  exact ⟨by decide +kernel, ⟨c, htake, by rw [hremaining, ← hlength]; rfl⟩, hback⟩

end Linked

end KernelMemory
