import Mathlib.Data.List.Basic

/-!
# Checks in sequence

An audit is a sequence of checks of which the first that fails is the answer. A sequence
passes exactly if all its checks pass, and then its answers are those of the checks.
-/

namespace KernelMemory

variable {ε α β : Type}

theorem bind_eq_ok_iff {x : Except ε α} {next : α → Except ε β} {b : β} :
    (x >>= next) = .ok b ↔ ∃ a, x = .ok a ∧ next a = .ok b := by
  cases x with
  | error e =>
      refine ⟨?_, fun ⟨_, h, _⟩ => ?_⟩
      · intro h
        cases h
      · cases h
  | ok a => exact ⟨fun h => ⟨a, rfl, h⟩, fun ⟨_, h, hnext⟩ => Except.ok.inj h ▸ hnext⟩

theorem forM_eq_ok_iff {check : α → Except ε Unit} {l : List α} :
    l.forM check = .ok () ↔ ∀ a ∈ l, check a = .ok () := by
  induction l with
  | nil => exact iff_of_true rfl (by simp)
  | cons a l ih =>
      show (check a >>= fun _ => l.forM check) = .ok () ↔ _
      rw [bind_eq_ok_iff, List.forall_mem_cons]
      exact ⟨fun ⟨_, ha, hl⟩ => ⟨ha, ih.mp hl⟩, fun ⟨ha, hl⟩ => ⟨(), ha, ih.mpr hl⟩⟩

theorem mapM_eq_ok {check : α → Except ε β} {answer : α → β} {l : List α}
    (h : ∀ a ∈ l, check a = .ok (answer a)) : l.mapM check = .ok (l.map answer) := by
  induction l with
  | nil => rfl
  | cons a l ih =>
      rw [List.forall_mem_cons] at h
      rw [List.mapM_cons, h.1, ih h.2]
      rfl

end KernelMemory
