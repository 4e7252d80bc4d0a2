import KernelMemory.Proofs.Linked.Drawing
import KernelMemory.Proofs.Linked.Records
import KernelMemory.Proofs.Tree.Growth

/-!
# Walks upwards

The loop that brings an index back into balance gives no account of the nodes that it came to.
`Rises` does: it is the loop as a relation, with what was done at each node in order, and
`rebalance_iff` says that a run of the loop is nothing else. The number of steps that the loop
may take is then a bound on the length of the list.

Nothing is asked of the links here; a walk that answers has such a list whatever they lead to.
-/

namespace KernelMemory

open Operation

/-- What is written when a node comes into a case. -/
def RotationCase.record (case : RotationCase) (pivot : Handle) : Record :=
  ⟨.trace, "avl: " ++ case.name ++ " case at " ++ pivot.text⟩

/-- What is written while a node is settled. -/
def Settling.records (s : Settling) : List Record :=
  s.case.toList.map (·.record s.node)

namespace Linked

variable {α ε : Type} {x x' x'' : Linked α} {id : Handle} {n : LinkedNode α} {s : Settling}
variable {start : Option Handle} {walk : List Settling} {journal : List Record} {steps : Nat}

/-- Settling one node, from what is stored there before to what is stored on top after. -/
structure Settled (x : Linked α) (s : Settling) (x' : Linked α) : Prop where
  before_eq : (x.node? s.node).map LinkedNode.height = some s.before
  run_eq : (settle s.node : LinkedOperation IndexError α _).run x = ⟨.ok s.top, x', s.records⟩
  after_eq : (x'.node? s.top).map LinkedNode.height = some s.after

/-- A walk upwards settles node after node. Where the height comes out as it was it ends, and
otherwise it goes on above the node on top, until there is none. -/
inductive Rises : Linked α → Option Handle → List Settling → Linked α → Prop
  | top (x : Linked α) : Rises x none [] x
  | ends {x x' : Linked α} {s : Settling} (h : x.Settled s x') (hsame : s.after = s.before) :
      Rises x (some s.node) [s] x'
  | goesOn {x x' x'' : Linked α} {s : Settling} {walk : List Settling} (h : x.Settled s x')
      (hchanged : s.after ≠ s.before) (hup : Rises x' (x'.parent? s.top) walk x'') :
      Rises x (some s.node) (s :: walk) x''

theorem Rises.exists_settled (h : x.Rises start walk x') (hs : s ∈ walk) :
    ∃ y y' : Linked α, y.Settled s y' := by
  induction h with
  | top x => cases hs
  | @ends x x' _ h _ =>
      obtain rfl := List.mem_singleton.mp hs
      exact ⟨x, x', h⟩
  | @goesOn x x' _ _ _ h _ _ ih =>
      rcases List.mem_cons.mp hs with rfl | hs
      · exact ⟨x, x', h⟩
      · exact ih hs

/-- A node that comes out as high as it was is the last one of its walk. -/
theorem Rises.last (h : x.Rises start walk x') (hs : s ∈ walk) (hsame : s.after = s.before) :
    (∃ below, walk = below ++ [s] ∧ ∀ u ∈ below, u.after ≠ u.before) ∧
      x'.heightAt (some s.top) = s.after := by
  induction h with
  | top x => cases hs
  | ends h _ =>
      obtain rfl := List.mem_singleton.mp hs
      exact ⟨⟨[], rfl, by simp⟩, by rw [heightAt, Option.bind_some, h.after_eq]; rfl⟩
  | @goesOn _ _ _ u walk _ hchanged _ ih =>
      rcases List.mem_cons.mp hs with rfl | hs
      · exact absurd hsame hchanged
      · obtain ⟨⟨below, rfl, hbelow⟩, hheight⟩ := ih hs
        refine ⟨⟨u :: below, rfl, fun w hw => ?_⟩, hheight⟩
        rcases List.mem_cons.mp hw with rfl | hw
        · exact hchanged
        · exact hbelow w hw

/-! ## The loop -/

theorem run_resolve_eq_ok_iff :
    (resolve id : LinkedOperation ε α _).run x = ⟨.ok n, x', journal⟩ ↔
      x.node? id = some n ∧ x' = x ∧ journal = [] := by
  cases hid : x.node? id with
  | some m =>
      rw [(quiet_resolve id).run_eq (outcome_resolve hid)]
      simp [eq_comm]
  | none =>
      refine iff_of_false (fun h => ?_) (fun h => nomatch h.1)
      simp [resolve, run_bind, hid, Operation.crash] at h

theorem writes_lower (side : Side) (id : Handle) :
    Writes (fun journal => ∃ case : RotationCase, journal = [case.record id])
      (lower side id : LinkedOperation ε α _) := by
  refine (quiet_childOf id side).writes_bind fun heavy =>
    (quiet_balance heavy).writes_bind fun balance => ?_
  refine (Writes.note_bind ?_).mono fun journal h => ⟨_, h⟩
  split
  · exact (quiet_rotate heavy side).bind fun _ => quiet_rotate id side.other
  · exact quiet_rotate id side.other

/-- Settling a node writes nothing but the case that it comes into. -/
theorem writes_settle (id : Handle) :
    Writes (fun journal => ∃ case : Option RotationCase, journal = case.toList.map (·.record id))
      (settle id : LinkedOperation ε α _) := by
  have hlower : ∀ side, Writes (fun journal => ∃ case : Option RotationCase,
      journal = case.toList.map (·.record id)) (lower side id : LinkedOperation ε α _) :=
    fun side => (writes_lower side id).mono fun _ ⟨case, h⟩ => ⟨some case, h⟩
  refine (quiet_updateHeight id).writes_bind fun _ =>
    (quiet_balance id).writes_bind fun balance => ?_
  split
  · exact hlower .right
  · split
    · exact hlower .left
    · exact fun _ _ _ => ⟨none, rfl⟩

/-- A node that comes into no case stays on top. -/
theorem Settled.top_eq (h : x.Settled s x') (hcase : s.case = none) : s.top = s.node := by
  have hlower : ∀ {side journal} {y : Linked α},
      (lower side s.node : LinkedOperation IndexError α _).run y = ⟨.ok s.top, x', journal⟩ →
      journal ≠ [] := by
    rintro side journal y hrun rfl
    obtain ⟨case, hnote⟩ := (writes_lower side s.node).of_run hrun
    exact nomatch hnote
  have hrun := h.run_eq
  rw [settle, Settling.records, hcase] at hrun
  obtain ⟨_, _, _, _, -, hrest, hnil⟩ := run_bind_eq_ok_iff.mp hrun
  obtain ⟨_, _, _, journal, -, hbranch, rfl⟩ := run_bind_eq_ok_iff.mp hrest
  obtain ⟨-, -, rfl⟩ : _ = [] ∧ _ = [] ∧ journal = [] := by simpa using hnil
  split at hbranch
  · exact absurd rfl (hlower hbranch)
  · split at hbranch
    · exact absurd rfl (hlower hbranch)
    · exact (Verdict.ok.inj (Reply.mk.inj hbranch).1).symm

/-- One step of the loop, in a run: the height before, the settling, and a look at what is on
top then. -/
theorem run_rebalance_succ_iff {y : Linked α} :
    (rebalance (steps + 1) (some id) : LinkedOperation IndexError α _).run x =
        ⟨.ok (), y, journal⟩ ↔
      ∃ s x' journal', s.node = id ∧ x.Settled s x' ∧ journal = s.records ++ journal' ∧
        (if s.after = s.before then pure () else rebalance steps (x'.parent? s.top) :
          LinkedOperation IndexError α Unit).run x' = ⟨.ok (), y, journal'⟩ := by
  show (resolve id >>= _).run x = _ ↔ _
  simp only [run_bind_eq_ok_iff, run_resolve_eq_ok_iff]
  constructor
  · rintro ⟨before, _, _, _, ⟨hbefore, rfl, rfl⟩, ⟨top, _, _, _, hsettle,
      ⟨n, x', _, _, ⟨hn, rfl, rfl⟩, hrest, rfl⟩, rfl⟩, rfl⟩
    obtain ⟨case, rfl⟩ := (writes_settle id).of_run hsettle
    refine ⟨⟨id, before.height, case, top, n.height⟩, x', _, rfl,
      ⟨by rw [hbefore]; rfl, hsettle, by rw [hn]; rfl⟩, rfl, ?_⟩
    rw [parent?, hn]
    exact hrest
  · rintro ⟨s, x', journal', rfl, h, rfl, hrest⟩
    obtain ⟨before, hbefore, hbefore_eq⟩ := Option.map_eq_some_iff.mp h.before_eq
    obtain ⟨n, hn, hn_eq⟩ := Option.map_eq_some_iff.mp h.after_eq
    rw [← hbefore_eq, ← hn_eq, parent?, hn] at hrest
    exact ⟨before, x, [], _, ⟨hbefore, rfl, rfl⟩, ⟨s.top, x', s.records, journal', h.run_eq,
      ⟨n, x', [], journal', ⟨hn, rfl, rfl⟩, hrest, rfl⟩, rfl⟩, rfl⟩

/-- The runs of the loop are the walks that it has enough steps for. -/
theorem rebalance_iff :
    (rebalance steps start : LinkedOperation IndexError α _).run x = ⟨.ok (), x', journal⟩ ↔
      ∃ walk, x.Rises start walk x' ∧ walk.length ≤ steps ∧
        journal = walk.flatMap Settling.records := by
  constructor
  · intro h
    induction steps generalizing x start journal with
    | zero =>
        cases start with
        | none =>
            obtain ⟨-, rfl, rfl⟩ := Reply.mk.inj h
            exact ⟨[], .top _, Nat.le_refl 0, rfl⟩
        | some id => exact nomatch h
    | succ steps ih =>
        cases start with
        | none =>
            obtain ⟨-, rfl, rfl⟩ := Reply.mk.inj h
            exact ⟨[], .top _, Nat.zero_le _, rfl⟩
        | some id =>
            obtain ⟨s, x₁, journal', rfl, hs, rfl, hrest⟩ := run_rebalance_succ_iff.mp h
            by_cases hsame : s.after = s.before
            · rw [if_pos hsame] at hrest
              obtain ⟨-, rfl, rfl⟩ := Reply.mk.inj hrest
              exact ⟨[s], .ends hs hsame, Nat.succ_le_succ (Nat.zero_le _), by simp⟩
            · rw [if_neg hsame] at hrest
              obtain ⟨walk, hup, hlen, rfl⟩ := ih hrest
              exact ⟨s :: walk, .goesOn hs hsame hup, Nat.succ_le_succ hlen, rfl⟩
  · rintro ⟨walk, h, hlen, rfl⟩
    induction h generalizing steps with
    | top x => cases steps <;> rfl
    | @ends x x' s h hsame =>
        obtain ⟨steps, rfl⟩ := Nat.exists_eq_add_of_le' hlen
        refine run_rebalance_succ_iff.mpr ⟨s, x', [], rfl, h, by simp, ?_⟩
        rw [if_pos hsame]
        rfl
    | @goesOn x x' x'' s walk h hchanged hup ih =>
        obtain ⟨steps, rfl⟩ : ∃ k, steps = k + 1 :=
          ⟨steps - 1, by rw [List.length_cons] at hlen; omega⟩
        refine run_rebalance_succ_iff.mpr ⟨s, x', _, rfl, h, rfl, ?_⟩
        rw [if_neg hchanged]
        exact ih (Nat.le_of_succ_le_succ hlen)

end Linked

end KernelMemory
