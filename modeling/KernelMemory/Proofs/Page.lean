import KernelMemory.Word
import KernelMemory.Proofs.Word

/-!
# Rounding to pages

Rounding up is checked, so it is described by what it answers: the one page boundary less
than a page above the number.
-/

namespace KernelMemory.Page

theorem size_pos : 0 < size := by decide

theorem isAligned_iff {n : Nat} : isAligned n = true ↔ size ∣ n := by
  rw [isAligned, beq_iff_eq, Nat.dvd_iff_mod_eq_zero]

theorem roundDown_le (n : Nat) : roundDown n ≤ n :=
  Word.roundDown_le size n

theorem lt_roundDown_add (n : Nat) : n < roundDown n + size :=
  Word.lt_roundDown_add size_pos n

theorem dvd_roundDown (n : Nat) : size ∣ roundDown n :=
  Word.dvd_roundDown size n

/-- There is one page boundary in a page's length. -/
theorem eq_of_dvd {m n : Nat} (hm : size ∣ m) (hn : size ∣ n) (h : m < n + size)
    (h' : n < m + size) : m = n := by
  obtain ⟨a, rfl⟩ := hm
  obtain ⟨b, rfl⟩ := hn
  rw [← Nat.mul_succ] at h h'
  have h₁ := Nat.lt_of_mul_lt_mul_left h
  have h₂ := Nat.lt_of_mul_lt_mul_left h'
  rw [show a = b by omega]

theorem roundDown_of_dvd {n : Nat} (h : size ∣ n) : roundDown n = n := by
  have hle := roundDown_le n
  have hlt := lt_roundDown_add n
  exact eq_of_dvd (dvd_roundDown n) h (by omega) hlt

theorem roundUp?_spec {n m : Nat} (h : roundUp? n = some m) :
    n ≤ m ∧ m < n + size ∧ size ∣ m :=
  Word.roundUp?_spec size_pos h

theorem roundUp?_eq_none_iff {n : Nat} : roundUp? n = none ↔ Word.bound ≤ n + (size - 1) :=
  Word.roundUp?_eq_none_iff

theorem roundUp?_lt_bound {n m : Nat} (h : roundUp? n = some m) : m < Word.bound := by
  obtain ⟨rfl, hlt⟩ := Word.roundUp?_eq_some_iff.mp h
  exact Nat.lt_of_le_of_lt (Word.roundDown_le size _) hlt

/-- The last page is a whole one. -/
theorem add_size_le_bound {n : Nat} (h : size ∣ n) (hbound : n < Word.bound) :
    n + size ≤ Word.bound := by
  obtain ⟨a, rfl⟩ := h
  have hwords : Word.bound = size * 1 <<< 52 := by decide
  rw [hwords] at hbound ⊢
  rw [← Nat.mul_succ]
  exact Nat.mul_le_mul_left size (Nat.lt_of_mul_lt_mul_left hbound)

theorem roundUp?_eq_some {n m : Nat} (hle : n ≤ m) (hlt : m < n + size) (hdvd : size ∣ m)
    (hbound : m < Word.bound) : roundUp? n = some m := by
  have hroom := add_size_le_bound hdvd hbound
  have hpos := size_pos
  refine Word.roundUp?_eq_some_iff.mpr ⟨?_, by omega⟩
  have h₁ := lt_roundDown_add (n + (size - 1))
  have h₂ := roundDown_le (n + (size - 1))
  have h₃ := dvd_roundDown (n + (size - 1))
  simp only [roundDown] at h₁ h₂ h₃
  exact eq_of_dvd h₃ hdvd (by omega) (by omega)

/-- Inside a page the number and the next one have the same boundary above them. -/
theorem roundUp?_succ {n : Nat} (h : ¬ size ∣ n) : roundUp? (n + 1) = roundUp? n := by
  cases hround : roundUp? n with
  | none =>
      have hbound := roundUp?_eq_none_iff.mp hround
      exact roundUp?_eq_none_iff.mpr (by omega)
  | some m =>
      obtain ⟨hle, hlt, hdvd⟩ := roundUp?_spec hround
      have hne : n ≠ m := fun heq => h (heq ▸ hdvd)
      exact roundUp?_eq_some (by omega) (by omega) hdvd (roundUp?_lt_bound hround)

end KernelMemory.Page
