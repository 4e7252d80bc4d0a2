import KernelMemory.Concurrency.Interleaving
import Mathlib.Data.List.Perm.Basic
import Mathlib.Data.Multiset.Count
import Mathlib.Data.Multiset.Filter

/-!
# Invariants of interleaved contexts

An invariant of all interleavings is one that every step keeps, whichever context takes it. Of
the contexts it speaks as a multiset: their order means nothing, and in a multiset the context
that takes a step can be put in front of the others, which the step leaves as they are. That
of all contexts at most one is at some point is then a matter of counting.
-/

namespace KernelMemory

namespace Interleaving

variable {σ κ : Type} {move : κ → σ → κ × σ} {s : Interleaving σ κ}

/-- A step of any context keeps the property. -/
def Preserves (move : κ → σ → κ × σ) (I : σ → Multiset κ → Prop) : Prop :=
  ∀ shared c others, I shared (c ::ₘ others) → I (move c shared).2 ((move c shared).1 ::ₘ others)

/-- One context in front, and what a step makes of it among the same others. -/
theorem exists_others {i : Nat} {c : κ} (h : s.contexts[i]? = some c) :
    ∃ others : Multiset κ, (s.contexts : Multiset κ) = c ::ₘ others ∧
      ∀ c', (s.contexts.set i c' : Multiset κ) = c' ::ₘ others := by
  obtain ⟨hi, rfl⟩ := List.getElem?_eq_some_iff.mp h
  refine ⟨s.contexts.eraseIdx i, ?_, ?_⟩
  · exact (Multiset.coe_eq_coe.mpr (List.getElem_cons_eraseIdx_perm hi)).symm
  · intro c'
    exact Multiset.coe_eq_coe.mpr (List.set_perm_cons_eraseIdx hi c')

theorem Preserves.step {I : σ → Multiset κ → Prop} (h : Preserves move I)
    (hs : I s.shared s.contexts) (i : Nat) :
    I (s.step move i).shared (s.step move i).contexts := by
  unfold Interleaving.step
  split
  · exact hs
  · next c hc =>
    obtain ⟨others, hbefore, hafter⟩ := exists_others hc
    rw [hbefore] at hs
    simp only [hafter]
    exact h _ _ _ hs

theorem Preserves.run {I : σ → Multiset κ → Prop} (h : Preserves move I)
    (hs : I s.shared s.contexts) (schedule : List Nat) :
    I (s.run move schedule).shared (s.run move schedule).contexts := by
  unfold Interleaving.run
  induction schedule generalizing s with
  | nil => exact hs
  | cons i schedule ih => exact ih (h.step hs i)

/-- What no step of a context changes about it stays in its place. -/
theorem map_contexts_run {β : Type} {f : κ → β} (h : ∀ c shared, f (move c shared).1 = f c)
    (s : Interleaving σ κ) (schedule : List Nat) :
    (s.run move schedule).contexts.map f = s.contexts.map f := by
  unfold Interleaving.run
  induction schedule generalizing s with
  | nil => rfl
  | cons i schedule ih =>
      rw [List.foldl_cons, ih]
      unfold Interleaving.step
      split
      · rfl
      · next c hc =>
        obtain ⟨hi, rfl⟩ := List.getElem?_eq_some_iff.mp hc
        have hi' : i < (s.contexts.map f).length := by rwa [List.length_map]
        have hsame : (s.contexts.map f)[i] = f s.contexts[i] := List.getElem_map f
        rw [List.map_set, h, ← hsame, List.set_getElem_self]

theorem countP_mono {p q : κ → Bool} (h : ∀ c, p c = true → q c = true) (cs : Multiset κ) :
    cs.countP (p ·) ≤ cs.countP (q ·) := by
  rw [Multiset.countP_eq_card_filter, Multiset.countP_eq_card_filter]
  exact Multiset.card_le_card (Multiset.monotone_filter_right cs h)

end Interleaving

end KernelMemory
