import Std.Data.ExtTreeMap

/-!
# Memory

Bytes by address. Memory starts out as zero everywhere and keeps only the bytes that
differ from zero, so clearing a range frees what it held.

A number lies in memory as a fixed count of bytes, lowest byte first. Writing keeps it
modulo the power of 256 that the bytes can hold, so reading what was written returns the
number as long as it fits.
-/

namespace KernelMemory

/-! ## Little-endian numbers -/

namespace LittleEndian

/-- The lowest `count` bytes of a number. -/
def encode : Nat → Nat → List UInt8
  | 0, _ => []
  | count + 1, n => UInt8.ofNat n :: encode count (n / 256)

def decode : List UInt8 → Nat
  | [] => 0
  | b :: rest => b.toNat + 256 * decode rest

@[simp] theorem length_encode (count n : Nat) : (encode count n).length = count := by
  induction count generalizing n with
  | zero => rfl
  | succ count ih => simp [encode, ih]

end LittleEndian

/-! ## Bytes by address -/

/-- A byte for every address. -/
structure Memory where
  cells : Std.ExtTreeMap Nat UInt8
  nonzero : ∀ a : Nat, cells[a]? ≠ some 0

namespace Memory

def zeroed : Memory :=
  ⟨∅, by simp⟩

instance : Inhabited Memory := ⟨zeroed⟩

def get (m : Memory) (a : Nat) : UInt8 :=
  m.cells[a]?.getD 0

def set (m : Memory) (a : Nat) (b : UInt8) : Memory :=
  if h : b = 0 then
    ⟨m.cells.erase a, by
      intro x
      have := m.nonzero x
      rw [Std.ExtTreeMap.getElem?_erase]
      split <;> simp_all⟩
  else
    ⟨m.cells.insert a b, by
      intro x
      have := m.nonzero x
      rw [Std.ExtTreeMap.getElem?_insert]
      split <;> simp_all⟩

/-- Clears the addresses from `start` up to `stop`. -/
def clear (m : Memory) (start stop : Nat) : Memory :=
  ⟨m.cells.filter fun a _ => a < start || stop ≤ a, by
    intro x h
    have := m.nonzero x
    rw [Std.ExtTreeMap.getElem?_filter] at h
    simp only [Option.pfilter_eq_some_iff] at h
    exact this h.1⟩

/-- The `count` bytes from an address on. -/
def read (m : Memory) (a count : Nat) : List UInt8 :=
  (List.range count).map fun i => m.get (a + i)

/-- The number that the `count` bytes from an address on stand for, lowest first. -/
def number (m : Memory) (a count : Nat) : Nat :=
  LittleEndian.decode (m.read a count)

/-- Writes bytes from an address on. -/
def write (m : Memory) (a : Nat) : List UInt8 → Memory
  | [] => m
  | b :: rest => (m.set a b).write (a + 1) rest

/-! ## What reading sees -/

theorem get_set (m : Memory) (a x : Nat) (b : UInt8) :
    (m.set a b).get x = if x = a then b else m.get x := by
  unfold set get
  split
  · subst_vars
    simp only [Std.ExtTreeMap.getElem?_erase, Nat.compare_eq_eq]
    by_cases h : x = a
    · simp [h]
    · simp [h, Ne.symm h]
  · simp only [Std.ExtTreeMap.getElem?_insert, Nat.compare_eq_eq]
    by_cases h : x = a
    · simp [h]
    · simp [h, Ne.symm h]

theorem get_clear (m : Memory) (start stop x : Nat) :
    (m.clear start stop).get x = if start ≤ x ∧ x < stop then 0 else m.get x := by
  unfold clear get
  simp only [Std.ExtTreeMap.getElem?_filter, Std.ExtTreeMap.getKey_eq]
  cases h : m.cells[x]? with
  | none => simp
  | some b =>
    by_cases hx : start ≤ x ∧ x < stop
    · have : (decide (x < start) || decide (stop ≤ x)) = false := by
        simp; omega
      simp [this, hx]
    · have : (decide (x < start) || decide (stop ≤ x)) = true := by
        simp; omega
      simp only [this, hx, if_false]
      rfl

theorem get_write (m : Memory) (a : Nat) (bytes : List UInt8) (x : Nat) :
    (m.write a bytes).get x =
      if a ≤ x ∧ x < a + bytes.length then bytes.getD (x - a) 0 else m.get x := by
  induction bytes generalizing m a with
  | nil =>
    rw [write, if_neg]
    simp only [List.length_nil]
    omega
  | cons b rest ih =>
    rw [write, ih, get_set]
    by_cases hx : x = a
    · subst hx
      rw [if_neg (by omega), if_pos rfl, if_pos (by simp), Nat.sub_self]
      rfl
    · by_cases h : a + 1 ≤ x ∧ x < a + 1 + rest.length
      · have h' : a ≤ x ∧ x < a + (b :: rest).length := by
          simp only [List.length_cons]; omega
        obtain ⟨k, hk⟩ : ∃ k, x - a = k + 1 := ⟨x - a - 1, by omega⟩
        rw [if_pos h, if_pos h', hk, show x - (a + 1) = k by omega]
        rfl
      · have h' : ¬ (a ≤ x ∧ x < a + (b :: rest).length) := by
          simp only [List.length_cons]; omega
        rw [if_neg h, if_neg h', if_neg hx]

end Memory

end KernelMemory
