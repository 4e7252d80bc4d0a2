import KernelMemory.Memory.Basic
import KernelMemory.Proofs.Word
import Mathlib.Algebra.Ring.Nat

/-!
# Reading back

Numbers and stretches of bytes read back from memory as they were written to it, and what is
read depends on the bytes in the range alone.
-/

namespace KernelMemory

namespace LittleEndian

theorem decode_encode (count n : Nat) : decode (encode count n) = n % 256 ^ count := by
  induction count generalizing n with
  | zero => simp [encode, decode, Nat.mod_one]
  | succ count ih =>
      rw [encode, decode, ih, Nat.pow_succ', Nat.mod_mul]
      simp [UInt8.toNat_ofNat']

theorem decode_lt (bytes : List UInt8) : decode bytes < 256 ^ bytes.length := by
  induction bytes with
  | nil => simp [decode]
  | cons b rest ih =>
      have := b.toNat_lt
      simp only [decode, List.length_cons, Nat.pow_succ]
      omega

theorem encode_decode (bytes : List UInt8) : encode bytes.length (decode bytes) = bytes := by
  induction bytes with
  | nil => rfl
  | cons b rest ih =>
      have hlow : UInt8.ofNat (b.toNat + 256 * decode rest) = b :=
        UInt8.toNat_inj.mp (by simp)
      have hhigh : (b.toNat + 256 * decode rest) / 256 = decode rest := by
        have := b.toNat_lt
        omega
      rw [decode, List.length_cons, encode, hlow, hhigh, ih]

end LittleEndian

namespace Memory

theorem read_eq_of_get_eq {m m' : Memory} {a count : Nat}
    (h : ∀ x, a ≤ x → x < a + count → m'.get x = m.get x) :
    m'.read a count = m.read a count := by
  unfold read
  refine List.map_congr_left ?_
  intro i hi
  rw [List.mem_range] at hi
  exact h (a + i) (by omega) (by omega)

@[simp] theorem length_read (m : Memory) (a count : Nat) : (m.read a count).length = count := by
  rw [read, List.length_map, List.length_range]

theorem getElem?_read {m : Memory} {a count i : Nat} (hi : i < count) :
    (m.read a count)[i]? = some (m.get (a + i)) := by
  rw [read, List.getElem?_map, List.getElem?_range hi, Option.map_some]

/-- A part of what is read is what is read there. -/
theorem take_drop_read (m : Memory) (a count offset part : Nat)
    (h : offset + part ≤ count) :
    ((m.read a count).drop offset).take part = m.read (a + offset) part := by
  refine List.ext_getElem? ?_
  intro i
  rw [List.getElem?_take]
  split
  · next hi =>
    rw [List.getElem?_drop, getElem?_read (by omega), getElem?_read hi, Nat.add_assoc]
  · next hi =>
    rw [List.getElem?_eq_none (by rw [length_read]; omega)]

theorem read_add (m : Memory) (a count part : Nat) :
    m.read a (count + part) = m.read a count ++ m.read (a + count) part := by
  simp only [read, List.range_add, List.map_append, List.map_map, Function.comp_def,
    Nat.add_assoc]

theorem get_eq_of_read_eq {m m' : Memory} {a count x : Nat}
    (h : m.read a count = m'.read a count) (hlo : a ≤ x) (hhi : x < a + count) :
    m.get x = m'.get x := by
  have hget := congrArg (·[x - a]?) h
  simp only [getElem?_read (show x - a < count by omega), Nat.add_sub_cancel' hlo] at hget
  exact Option.some.inj hget

theorem encode_number (m : Memory) (a count : Nat) :
    LittleEndian.encode count (m.number a count) = m.read a count := by
  have h := LittleEndian.encode_decode (m.read a count)
  rwa [length_read] at h

theorem read_write (m : Memory) (a : Nat) (bytes : List UInt8) :
    (m.write a bytes).read a bytes.length = bytes := by
  refine List.ext_getElem? ?_
  intro i
  by_cases hi : i < bytes.length
  · rw [getElem?_read hi, get_write, if_pos (by omega), Nat.add_sub_cancel_left,
      List.getD_eq_getElem?_getD, List.getElem?_eq_getElem hi, Option.getD_some]
  · rw [List.getElem?_eq_none (by rw [length_read]; omega), List.getElem?_eq_none (by omega)]

theorem get_clear_of_not_mem (m : Memory) {start stop x : Nat} (hx : x < start ∨ stop ≤ x) :
    (m.clear start stop).get x = m.get x := by
  rw [Memory.get_clear, if_neg (by omega)]

/-- Another byte in a stretch changes the sum of its bytes by the difference. -/
theorem total_read_set (m : Memory) {a count i : Nat} (hi : i < count) (v : UInt8) :
    Word.total (((m.set (a + i) v).read a count).map UInt8.toNat) + (m.get (a + i)).toNat =
      Word.total ((m.read a count).map UInt8.toNat) + v.toNat := by
  obtain ⟨rest, rfl⟩ : ∃ rest, count = i + (1 + rest) := ⟨count - i - 1, by omega⟩
  have hfront : (m.set (a + i) v).read a i = m.read a i :=
    read_eq_of_get_eq fun x _ hx => by rw [get_set, if_neg (by omega)]
  have hback : (m.set (a + i) v).read (a + i + 1) rest = m.read (a + i + 1) rest :=
    read_eq_of_get_eq fun x hx _ => by rw [get_set, if_neg (by omega)]
  have hone : ∀ m : Memory, m.read (a + i) 1 = [m.get (a + i)] := fun m => by
    simp [read]
  simp only [read_add, hfront, hback, hone, List.map_append, Word.total_append, get_set, if_true]
  simp [Word.total]
  omega

end Memory

end KernelMemory
