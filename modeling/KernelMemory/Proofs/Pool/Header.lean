import KernelMemory.Pool.Header
import KernelMemory.Proofs.Memory
import KernelMemory.Proofs.Word

/-!
# Headers in memory

A header is what the 48 bytes at its address say. Storing one and loading it back gives the
same header, provided its fields fit into their bytes, and what happens to memory elsewhere
makes no difference to it. No byte of the 48 is left out: equal headers are equal bytes.
Every stretch of memory that the operations of a pool write to is a header or a range that
is cleared, so two questions are enough about each of the two: what a byte becomes, and what
a header elsewhere becomes.

The checksum is a sum, so it cannot tell two headers apart whose bytes were exchanged. But a
single byte that is changed changes the sum by less than it takes to come round.
-/

namespace KernelMemory

theorem Marks.toBits_ofBits {n : Nat} (h : n < 1 <<< 16) : (ofBits n).toBits = n := by
  simp only [toBits, ofBits, Fin.val_ofNat, Nat.toNat_testBit]
  omega

namespace Header

/-- The header that 48 bytes stand for. -/
def decode (bytes : List UInt8) : Header where
  tag := ⟨UInt32.ofNat (LittleEndian.decode (bytes.take 4))⟩
  checksum := LittleEndian.decode ((bytes.drop 4).take 2)
  marks := .ofBits (LittleEndian.decode ((bytes.drop 6).take 2))
  prev := LittleEndian.decode ((bytes.drop 8).take 8)
  next := LittleEndian.decode ((bytes.drop 16).take 8)
  used := LittleEndian.decode ((bytes.drop 24).take 8)
  reserved := LittleEndian.decode ((bytes.drop 32).take 8)
  unused := LittleEndian.decode ((bytes.drop 40).take 8)

theorem load_eq_decode (m : Memory) (a : Nat) : load m a = decode (m.read a size) := by
  have htag : (m.read a size).take 4 = m.read a 4 := m.take_drop_read a size 0 4 (by decide)
  unfold load decode Memory.number
  rw [htag]
  simp only [m.take_drop_read a size 4 2 (by decide),
    m.take_drop_read a size 6 2 (by decide),
    m.take_drop_read a size 8 8 (by decide),
    m.take_drop_read a size 16 8 (by decide),
    m.take_drop_read a size 24 8 (by decide),
    m.take_drop_read a size 32 8 (by decide),
    m.take_drop_read a size 40 8 (by decide)]

/-- Every field fits into its bytes. -/
structure InRange (h : Header) : Prop where
  checksum_lt : h.checksum < 1 <<< 16
  prev_lt : h.prev < Word.bound
  next_lt : h.next < Word.bound
  used_lt : h.used < Word.bound
  reserved_lt : h.reserved < Word.bound
  unused_lt : h.unused < Word.bound

theorem computed_lt (h : Header) : h.computed < 1 <<< 16 :=
  Nat.mod_lt _ (by decide)

theorem decode_encode {h : Header} (hh : h.InRange) : decode h.encode = h := by
  have hword : ∀ n < Word.bound, LittleEndian.decode (LittleEndian.encode 8 n) = n :=
    fun n hn => (LittleEndian.decode_encode 8 n).trans (Nat.mod_eq_of_lt hn)
  have hhalf : ∀ n < 1 <<< 16, LittleEndian.decode (LittleEndian.encode 2 n) = n :=
    fun n hn => (LittleEndian.decode_encode 2 n).trans (Nat.mod_eq_of_lt hn)
  have htag : LittleEndian.decode (LittleEndian.encode 4 h.tag.code.toNat) =
      h.tag.code.toNat :=
    (LittleEndian.decode_encode 4 _).trans (Nat.mod_eq_of_lt h.tag.code.toNat_lt)
  obtain ⟨hchecksum, hprev, hnext, hused, hreserved, hunused⟩ := hh
  show Header.mk
    ⟨UInt32.ofNat (LittleEndian.decode (LittleEndian.encode 4 h.tag.code.toNat))⟩
    (LittleEndian.decode (LittleEndian.encode 2 h.checksum))
    (.ofBits (LittleEndian.decode (LittleEndian.encode 2 h.marks.toBits)))
    (LittleEndian.decode (LittleEndian.encode 8 h.prev))
    (LittleEndian.decode (LittleEndian.encode 8 h.next))
    (LittleEndian.decode (LittleEndian.encode 8 h.used))
    (LittleEndian.decode (LittleEndian.encode 8 h.reserved))
    (LittleEndian.decode (LittleEndian.encode 8 h.unused)) = h
  rw [htag, hhalf _ hchecksum, hhalf _ h.marks.toBits_lt, hword _ hprev, hword _ hnext,
    hword _ hused, hword _ hreserved, hword _ hunused, Marks.ofBits_toBits, UInt32.ofNat_toNat]

theorem toNat_tag_load (m : Memory) (a : Nat) : (load m a).tag.code.toNat = m.number a 4 := by
  have h := LittleEndian.decode_lt (m.read a 4)
  rw [Memory.length_read] at h
  exact UInt32.toNat_ofNat_of_lt' h

theorem toBits_marks_load (m : Memory) (a : Nat) :
    (load m a).marks.toBits = m.number (a + 6) 2 := by
  have h := LittleEndian.decode_lt (m.read (a + 6) 2)
  rw [Memory.length_read] at h
  exact Marks.toBits_ofBits h

/-- The bytes of a header are all there is at its address. -/
theorem encode_load (m : Memory) (a : Nat) : (load m a).encode = m.read a size := by
  rw [encode, toNat_tag_load, toBits_marks_load]
  simp only [load, Memory.encode_number]
  rw [show size = 4 + 2 + 2 + 8 + 8 + 8 + 8 + 8 from rfl]
  simp only [Memory.read_add]

theorem get_eq_of_load_eq {m m' : Memory} {a x : Nat} (h : load m a = load m' a) (hlo : a ≤ x)
    (hhi : x < a + size) : m.get x = m'.get x := by
  refine Memory.get_eq_of_read_eq ?_ hlo hhi
  rw [← encode_load, ← encode_load, h]

/-! ## Storing a header -/

theorem load_store {h : Header} (hh : h.InRange) (a : Nat) (m : Memory) :
    load (h.store a m) a = h := by
  rw [load_eq_decode, store, ← h.length_encode, Memory.read_write, decode_encode hh]

theorem load_eq_of_get_eq {m m' : Memory} {a : Nat}
    (h : ∀ x, a ≤ x → x < a + size → m'.get x = m.get x) : load m' a = load m a := by
  rw [load_eq_decode, load_eq_decode, Memory.read_eq_of_get_eq h]

theorem get_store_of_not_mem (h : Header) (m : Memory) {a x : Nat}
    (hx : x < a ∨ a + size ≤ x) : (h.store a m).get x = m.get x := by
  rw [store, Memory.get_write, length_encode, if_neg (by omega)]

theorem load_store_of_apart (h : Header) (m : Memory) {a b : Nat}
    (hap : b + size ≤ a ∨ a + size ≤ b) : load (h.store a m) b = load m b :=
  load_eq_of_get_eq fun x hlo hhi => h.get_store_of_not_mem m (by omega)

/-! ## Clearing a range -/

theorem load_clear_of_apart (m : Memory) {start stop a : Nat}
    (hap : a + size ≤ start ∨ stop ≤ a) : load (m.clear start stop) a = load m a :=
  load_eq_of_get_eq fun x hlo hhi => m.get_clear_of_not_mem (by omega)

/-! ## What the checksum detects -/

/-- The checksum covers every byte of a header but its own two. -/
theorem covered_load (m : Memory) (a : Nat) :
    (load m a).covered = m.read a 4 ++ m.read (a + 6) 42 := by
  rw [covered, toNat_tag_load, toBits_marks_load]
  simp only [load, Memory.encode_number]
  rw [show 42 = 2 + 8 + 8 + 8 + 8 + 8 from rfl]
  simp only [Memory.read_add, List.append_assoc]

theorem computed_load (m : Memory) (a : Nat) :
    (load m a).computed = (Word.total ((m.read a 4).map UInt8.toNat) +
      Word.total ((m.read (a + 6) 42).map UInt8.toNat)) % 65536 := by
  rw [computed, show 1 <<< 16 = 65536 from rfl, covered_load, List.map_append, Word.total_append]

/-- A header with one byte changed does not fit its checksum any more. A change to the
checksum itself makes it another number, and no other change is large enough to come round
to the same sum. -/
theorem isIntact_set {m : Memory} {a i : Nat} {v : UInt8} (h : (load m a).isIntact = true)
    (hi : i < size) (hv : v ≠ m.get (a + i)) : (load (m.set (a + i) v) a).isIntact = false := by
  have hsize : size = 48 := rfl
  have hne : v.toNat ≠ (m.get (a + i)).toNat := fun heq => hv (UInt8.toNat_inj.mp heq)
  have hlt := v.toNat_lt
  have hlt' := (m.get (a + i)).toNat_lt
  have hsame : ∀ b count, (a + i < b ∨ b + count ≤ a + i) →
      (m.set (a + i) v).read b count = m.read b count := fun b count hout =>
    Memory.read_eq_of_get_eq fun x hlo hhi => by rw [Memory.get_set, if_neg (by omega)]
  have hchecksum : ∀ m : Memory, (load m a).checksum = m.number (a + 4) 2 := fun _ => rfl
  rw [isIntact, beq_iff_eq, computed_load, hchecksum] at h
  rw [isIntact, beq_eq_false_iff_ne, computed_load, hchecksum]
  by_cases hfront : i < 4
  · have htotal := m.total_read_set (a := a) hfront v
    rw [Memory.number, hsame (a + 4) 2 (by omega), hsame (a + 6) 42 (by omega),
      ← Memory.number, h]
    omega
  · by_cases hback : 6 ≤ i
    · obtain ⟨j, rfl⟩ : ∃ j, i = 6 + j := ⟨i - 6, by omega⟩
      have htotal := m.total_read_set (a := a + 6) (show j < 42 by omega) v
      rw [Nat.add_assoc] at htotal
      rw [Memory.number, hsame (a + 4) 2 (by omega), hsame a 4 (by omega), ← Memory.number, h]
      omega
    · rw [hsame a 4 (by omega), hsame (a + 6) 42 (by omega), ← h]
      intro heq
      have hread := congrArg (LittleEndian.encode 2) heq
      rw [Memory.encode_number, Memory.encode_number] at hread
      have hget := Memory.get_eq_of_read_eq (x := a + i) hread (by omega) (by omega)
      rw [Memory.get_set, if_pos rfl] at hget
      exact hv hget

end Header

end KernelMemory
