import KernelMemory.Word
import Mathlib.Algebra.Ring.Nat

/-!
# Arithmetic on words

Rounding up is checked, so it is described by what it answers: the one multiple of the unit
that is less than a unit above the number, which is the least one that is not below it.
-/

namespace KernelMemory.Word

theorem total_append (ns ks : List Nat) : total (ns ++ ks) = total ns + total ks :=
  List.sum_append_nat

theorem roundUp?_eq_some_iff {unit n m : Nat} :
    roundUp? unit n = some m ↔ roundDown unit (n + (unit - 1)) = m ∧ n + (unit - 1) < bound := by
  simp only [roundUp?, Option.map_eq_some_iff, add?_eq_some_iff]
  constructor
  · rintro ⟨sum, ⟨rfl, hlt⟩, hm⟩
    exact ⟨hm, hlt⟩
  · rintro ⟨hm, hlt⟩
    exact ⟨_, ⟨rfl, hlt⟩, hm⟩

theorem roundUp?_spec {unit n m : Nat} (hunit : 0 < unit) (h : roundUp? unit n = some m) :
    n ≤ m ∧ m < n + unit ∧ unit ∣ m := by
  obtain ⟨rfl, -⟩ := roundUp?_eq_some_iff.mp h
  have hlt := lt_roundDown_add hunit (n + (unit - 1))
  have hle := roundDown_le unit (n + (unit - 1))
  exact ⟨by omega, by omega, dvd_roundDown unit _⟩

theorem roundUp?_eq_none_iff {unit n : Nat} :
    roundUp? unit n = none ↔ bound ≤ n + (unit - 1) := by
  rw [roundUp?, Option.map_eq_none_iff, add?]
  split
  · next hlt => exact iff_of_false (by simp) (Nat.not_le.mpr hlt)
  · next hge => exact iff_of_true rfl (Nat.le_of_not_lt hge)

/-- No multiple lies between the number and the one answered. -/
theorem roundUp?_le {unit n m a : Nat} (hunit : 0 < unit) (h : roundUp? unit n = some m)
    (hdvd : unit ∣ a) (hle : n ≤ a) : m ≤ a := by
  obtain ⟨-, hlt, hm⟩ := roundUp?_spec hunit h
  refine Nat.le_of_not_lt fun hless => ?_
  have hstep : unit ≤ m - a := Nat.le_of_dvd (Nat.sub_pos_of_lt hless) (Nat.dvd_sub hm hdvd)
  omega

/-! ## Powers of two -/

theorem isPowerOfTwo_two_pow (k : Nat) : isPowerOfTwo (2 ^ k) = true := by
  simp [isPowerOfTwo, Nat.log2_two_pow, Nat.one_shiftLeft]

theorem exists_max_two_pow (j k : Nat) : ∃ l, Nat.max (2 ^ j) (2 ^ k) = 2 ^ l := by
  rcases Nat.le_total j k with hle | hle
  · exact ⟨k, Nat.max_eq_right (Nat.pow_le_pow_right (by decide) hle)⟩
  · exact ⟨j, Nat.max_eq_left (Nat.pow_le_pow_right (by decide) hle)⟩

/-- Where rounding up to a power of two leaves the range, there is no multiple left in it: a
power of two divides the bound, or is not below it. -/
theorem bound_le_of_roundUp?_eq_none {k n a : Nat} (hpos : 0 < n)
    (h : roundUp? (2 ^ k) n = none) (hdvd : 2 ^ k ∣ a) (hle : n ≤ a) : bound ≤ a := by
  have hbound : bound = 2 ^ 64 := by decide
  rcases Nat.le_total 64 k with hlarge | hsmall
  · have hunit : 2 ^ 64 ≤ 2 ^ k := Nat.pow_le_pow_right (by decide) hlarge
    have hmultiple : 2 ^ k ≤ a := Nat.le_of_dvd (by omega) hdvd
    omega
  · refine Nat.le_of_not_lt fun hlt => ?_
    have hover := roundUp?_eq_none_iff.mp h
    have hwords : 2 ^ k ∣ bound := hbound ▸ Nat.pow_dvd_pow 2 hsmall
    have hstep : 2 ^ k ≤ bound - a :=
      Nat.le_of_dvd (Nat.sub_pos_of_lt hlt) (Nat.dvd_sub hwords hdvd)
    have hunit := Nat.two_pow_pos k
    omega

/-- Of two powers of two the smaller divides the larger. -/
theorem dvd_max_of_isPowerOfTwo {n : Nat} (h : isPowerOfTwo n = true) (k : Nat) :
    2 ^ k ∣ Nat.max n (2 ^ k) := by
  simp only [isPowerOfTwo, Bool.and_eq_true, bne_iff_ne, beq_iff_eq, Nat.one_shiftLeft] at h
  rw [← h.2]
  rcases Nat.le_total n.log2 k with hle | hle
  · have hmax : Nat.max (2 ^ n.log2) (2 ^ k) = 2 ^ k :=
      Nat.max_eq_right (Nat.pow_le_pow_right (by decide) hle)
    exact (congrArg (2 ^ k ∣ ·) hmax).mpr (Nat.dvd_refl _)
  · have hmax : Nat.max (2 ^ n.log2) (2 ^ k) = 2 ^ n.log2 :=
      Nat.max_eq_left (Nat.pow_le_pow_right (by decide) hle)
    exact (congrArg (2 ^ k ∣ ·) hmax).mpr (Nat.pow_dvd_pow 2 hle)

end KernelMemory.Word
