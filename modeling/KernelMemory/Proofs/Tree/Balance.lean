import Mathlib.Algebra.Group.Nat.Defs
import KernelMemory.Index.Tree

/-!
# Balance

An update leaves a tree balanced because of one invariant of the walk towards the root:
the subtree that the walk hands up is balanced, its height is at most one off from what
it was, and where the walk has ended the height is exactly what it was. `Change.Settles`
is that invariant. One node of the walk keeps it (`restore_settles`), and every update
starts from a place that has it: a fresh leaf, a side that moves up, or the first node
taken out of a right side.

Nothing here looks at values or probes, so it holds for every keying, orders or not.
-/

namespace KernelMemory

namespace Tree

variable {α : Type}

/-- Every node stores the height of its subtree, and its sides differ by one at most. -/
def Balanced : Tree α → Prop
  | nil => True
  | node left _ _ height right =>
    left.Balanced ∧ right.Balanced ∧ height = 1 + max left.height right.height ∧
      left.height ≤ right.height + 1 ∧ right.height ≤ left.height + 1

@[simp] theorem height_nil : (nil : Tree α).height = 0 := rfl

@[simp] theorem height_node (left : Tree α) (x : Handle) (v : α) (h : Nat) (right : Tree α) :
    (node left x v h right).height = h := rfl

@[simp] theorem height_join (left : Tree α) (x : Handle) (v : α) (right : Tree α) :
    (join left x v right).height = 1 + max left.height right.height := rfl

theorem balanced_nil : (nil : Tree α).Balanced := trivial

theorem balanced_join {left right : Tree α} (hl : left.Balanced) (hr : right.Balanced)
    (h : left.height ≤ right.height + 1) (h' : right.height ≤ left.height + 1)
    (x : Handle) (v : α) : (join left x v right).Balanced :=
  ⟨hl, hr, rfl, h, h'⟩

/-- A balanced tree is low: with every two levels more it has at least twice the nodes. -/
theorem Balanced.two_pow_le {t : Tree α} (hb : t.Balanced) :
    2 ^ (t.height / 2) ≤ t.size + 1 := by
  induction t with
  | nil => simp [size]
  | node left x v h right ihl ihr =>
      obtain ⟨hl, hr, hh, hlr, hrl⟩ := hb
      have hleft := ihl hl
      have hright := ihr hr
      simp only [height_node, size]
      rcases Nat.lt_or_ge h 2 with hlow | hhigh
      · rw [Nat.div_eq_of_lt hlow]
        omega
      · have hpow : 2 ^ (h / 2) = 2 ^ ((h - 2) / 2) + 2 ^ ((h - 2) / 2) := by
          rw [show h / 2 = (h - 2) / 2 + 1 by omega, Nat.pow_succ]
          omega
        have hl₂ := Nat.pow_le_pow_right (n := 2) (by decide)
          (show (h - 2) / 2 ≤ left.height / 2 by omega)
        have hr₂ := Nat.pow_le_pow_right (n := 2) (by decide)
          (show (h - 2) / 2 ≤ right.height / 2 by omega)
        omega

/-! ## One node of the walk

`restore` meets two balanced sides that differ by two at most. In each of the four
rotation cases the high side is a node, and in the two double cases so is its inner
side, because its height says so. -/

theorem restore_balanced {left right : Tree α} (hl : left.Balanced) (hr : right.Balanced)
    (h : left.height ≤ right.height + 2) (h' : right.height ≤ left.height + 2)
    (x : Handle) (v : α) (was : Nat) :
    (restore left x v was right).tree.Balanced ∧
      max left.height right.height ≤ (restore left x v was right).tree.height ∧
      (restore left x v was right).tree.height ≤ 1 + max left.height right.height := by
  unfold restore
  split
  · next hright =>
    cases right with
    | nil => simp at hright
    | node b y w hy c =>
      obtain ⟨hb, hc, rfl, hbc, hcb⟩ := hr
      simp only [height_node] at hright h'
      split
      · next hinner =>
        simp only [balance] at hinner
        cases b with
        | nil => simp only [height_nil] at hinner; omega
        | node d z u hz e =>
          obtain ⟨hd, he, rfl, hde, hed⟩ := hb
          simp only [height_node] at hinner hbc hcb hright h'
          simp only [rotateRight, rotateLeft, join, Balanced, height_node, hl, hd, he, hc]
          simp only [true_and]
          omega
      · next hinner =>
        simp only [balance] at hinner
        simp only [rotateLeft, join, Balanced, height_node, hl, hb, hc]
        simp only [true_and]
        omega
  · split
    · next hleft =>
      cases left with
      | nil => simp at hleft
      | node a y w hy b =>
        obtain ⟨ha, hb, rfl, hab, hba⟩ := hl
        simp only [height_node] at hleft h
        split
        · next hinner =>
          simp only [balance] at hinner
          cases b with
          | nil => simp only [height_nil] at hinner; omega
          | node d z u hz e =>
            obtain ⟨hd, he, rfl, hde, hed⟩ := hb
            simp only [height_node] at hinner hab hba hleft h
            simp only [rotateRight, rotateLeft, join, Balanced, height_node, ha, hd, he, hr]
            simp only [true_and]
            omega
        · next hinner =>
          simp only [balance] at hinner
          simp only [rotateRight, join, Balanced, height_node, ha, hb, hr]
          simp only [true_and]
          omega
    · simp only [join, Balanced, height_node, hl, hr]
      simp only [true_and]
      omega

/-- Sides that differ by one at most are left as they are. -/
theorem height_restore_of_even {left right : Tree α} (h : left.height ≤ right.height + 1)
    (h' : right.height ≤ left.height + 1) (x : Handle) (v : α) (was : Nat) :
    (restore left x v was right).tree.height = 1 + max left.height right.height := by
  simp only [restore]
  rw [if_neg (by omega), if_neg (by omega), height_join]

theorem climbs_restore (left : Tree α) (x : Handle) (v : α) (was : Nat) (right : Tree α) :
    (restore left x v was right).climbs =
      ((restore left x v was right).tree.height != was) := by
  simp only [restore]
  split
  · split <;> rfl
  · split
    · split <;> rfl
    · rfl

end Tree

/-- What a walk hands up from a subtree that had height `was`: a balanced tree whose height
is at most one off, and not off at all if the walk ends here. -/
structure Change.Settles {α : Type} (c : Change α) (was : Nat) : Prop where
  balanced : c.tree.Balanced
  le_succ : c.tree.height ≤ was + 1
  le_height_succ : was ≤ c.tree.height + 1
  height_eq : c.climbs = false → c.tree.height = was

namespace Tree

variable {α : Type}

/-- The walk goes on at a node whose sides had heights `l` and `r` before one of them
changed by one at most. -/
theorem restore_settles {left right : Tree α} (hl : left.Balanced) (hr : right.Balanced)
    {was l r : Nat} (hwas : was = 1 + max l r) (hlr : l ≤ r + 1) (hrl : r ≤ l + 1)
    (h : left.height = l ∧ right.height ≤ r + 1 ∧ r ≤ right.height + 1 ∨
      right.height = r ∧ left.height ≤ l + 1 ∧ l ≤ left.height + 1)
    (x : Handle) (v : α) : (restore left x v was right).Settles was := by
  obtain ⟨hb, hge, hle⟩ := restore_balanced hl hr (by omega) (by omega) x v was
  have heven : left.height ≤ right.height + 1 → right.height ≤ left.height + 1 →
      (restore left x v was right).tree.height = 1 + max left.height right.height :=
    fun h₁ h₂ => height_restore_of_even h₁ h₂ x v was
  refine ⟨hb, by omega, by omega, ?_⟩
  intro hc
  rw [climbs_restore] at hc
  simpa using hc

end Tree

namespace Change.Settles

variable {α : Type} {c : Change α}

theorem ontoLeft {left right : Tree α} {x : Handle} {v : α} {h : Nat}
    (hc : c.Settles left.height) (hb : (Tree.node left x v h right).Balanced) :
    (c.ontoLeft x v h right).Settles h := by
  obtain ⟨-, hr, hh, hlr, hrl⟩ := hb
  obtain ⟨hcb, hcle, hcge, hceq⟩ := hc
  unfold Change.ontoLeft
  split
  · obtain ⟨h₁, h₂, h₃, h₄⟩ :=
      Tree.restore_settles hcb hr hh hlr hrl (.inr ⟨rfl, hcle, hcge⟩) x v
    exact ⟨h₁, h₂, h₃, h₄⟩
  · next hstop =>
    have hsame := hceq (by simpa using hstop)
    exact ⟨⟨hcb, hr, by rw [hsame]; exact hh, by omega, by omega⟩,
      Nat.le_succ h, Nat.le_succ h, fun _ => rfl⟩

theorem ontoRight {left right : Tree α} {x : Handle} {v : α} {h : Nat}
    (hc : c.Settles right.height) (hb : (Tree.node left x v h right).Balanced) :
    (Change.ontoRight left x v h c).Settles h := by
  obtain ⟨hl, -, hh, hlr, hrl⟩ := hb
  obtain ⟨hcb, hcle, hcge, hceq⟩ := hc
  unfold Change.ontoRight
  split
  · obtain ⟨h₁, h₂, h₃, h₄⟩ :=
      Tree.restore_settles hl hcb hh hlr hrl (.inl ⟨rfl, hcle, hcge⟩) x v
    exact ⟨h₁, h₂, h₃, h₄⟩
  · next hstop =>
    have hsame := hceq (by simpa using hstop)
    exact ⟨⟨hl, hcb, by rw [hsame]; exact hh, by omega, by omega⟩,
      Nat.le_succ h, Nat.le_succ h, fun _ => rfl⟩

end Change.Settles

namespace Tree

variable {α : Type}

/-! ## Updates -/

theorem insert_settles {t : Tree α} (hb : t.Balanced) (probe : α → Ordering) (id : Handle)
    (new : α) : (t.insert probe id new).Settles t.height := by
  induction t with
  | nil =>
      exact ⟨balanced_join balanced_nil balanced_nil (by simp) (by simp) id new,
        by simp [insert], by simp, by simp [insert]⟩
  | node left x v h right ihl ihr =>
      rw [insert]
      split
      · exact (ihl hb.1).ontoLeft hb
      · exact (ihr hb.2.1).ontoRight hb

theorem popFirst?_eq_none {t : Tree α} (h : t.popFirst? = none) : t = nil := by
  cases t with
  | nil => rfl
  | node left x v height right =>
      rw [popFirst?] at h
      split at h <;> simp at h

theorem popFirst?_settles {t : Tree α} (hb : t.Balanced) {d : Detached α}
    (h : t.popFirst? = some d) : d.rest.Settles t.height := by
  induction t generalizing d with
  | nil => simp [popFirst?] at h
  | node left x v height right ihl ihr =>
      rw [popFirst?] at h
      split at h
      · next hnone =>
        obtain rfl := popFirst?_eq_none hnone
        obtain rfl := Option.some.inj h
        obtain ⟨-, hr, hh, hlr, hrl⟩ := hb
        simp only [height_nil] at hh hlr hrl
        exact ⟨hr, by simp only [height_node]; omega, by simp only [height_node]; omega, by simp⟩
      · next first hfirst =>
        obtain rfl := Option.some.inj h
        exact (ihl hb.1 hfirst).ontoLeft hb

theorem unroot_settles {left right : Tree α} {x : Handle} {v : α} {h : Nat}
    (hb : (node left x v h right).Balanced) : (left.unroot h right).Settles h := by
  unfold unroot
  split
  · obtain ⟨-, hr, hh, hlr, hrl⟩ := hb
    simp only [height_nil] at hh hlr hrl
    exact ⟨hr, by dsimp only; omega, by dsimp only; omega, by simp⟩
  · next hnone =>
    obtain rfl := popFirst?_eq_none hnone
    obtain ⟨hl, -, hh, hlr, hrl⟩ := hb
    simp only [height_nil] at hh hlr hrl
    exact ⟨hl, by dsimp only; omega, by dsimp only; omega, by simp⟩
  · next hsome => exact (popFirst?_settles hb.2.1 hsome).ontoRight ⟨hb.1, hb.2.1, hb.2.2⟩

theorem remove?_settles {t : Tree α} (hb : t.Balanced) {id : Handle} {v : α} {c : Change α}
    (h : t.remove? id = some (v, c)) : c.Settles t.height := by
  induction t generalizing v c with
  | nil => simp [remove?] at h
  | node left x w height right ihl ihr =>
      rw [remove?] at h
      split at h
      · obtain ⟨-, rfl⟩ := Prod.mk.inj (Option.some.inj h)
        exact unroot_settles hb
      · split at h
        · next hleft =>
          obtain ⟨-, rfl⟩ := Prod.mk.inj (Option.some.inj h)
          exact (ihl hb.1 hleft).ontoLeft hb
        · split at h
          · next hright =>
            obtain ⟨-, rfl⟩ := Prod.mk.inj (Option.some.inj h)
            exact (ihr hb.2.1 hright).ontoRight hb
          · simp at h

@[simp] theorem height_set (t : Tree α) (id : Handle) (new : α) :
    (t.set id new).height = t.height := by
  cases t with
  | nil => rfl
  | node left x v h right =>
      rw [set]
      split <;> rfl

theorem Balanced.set {t : Tree α} (hb : t.Balanced) (id : Handle) (new : α) :
    (t.set id new).Balanced := by
  induction t with
  | nil => exact hb
  | node left x v h right ihl ihr =>
      obtain ⟨hl, hr, hh, hlr, hrl⟩ := hb
      rw [Tree.set]
      split
      · exact ⟨hl, hr, hh, hlr, hrl⟩
      · refine ⟨ihl hl, ihr hr, ?_⟩
        rw [height_set, height_set]
        exact ⟨hh, hlr, hrl⟩

end Tree

end KernelMemory
