import KernelMemory.Memory.Basic
import KernelMemory.Pool.Tag
import KernelMemory.Word

/-!
# Block headers

Every block of a pool starts with a header of 48 bytes, itself aligned to 16:

```text
+----------+-----------+------------+-----------------+
|  header  |   used    |  reserved  |     unused      |
+----------+-----------+------------+-----------------+
^ address  ^ payload                ^ tail            ^ next header, or end of the arena
```

The fields lie in memory in this order, lowest byte first:

```text
offset   0: tag        4 bytes      offset  16: next      8 bytes
offset   4: checksum   2 bytes      offset  24: used      8 bytes
offset   6: marks      2 bytes      offset  32: reserved  8 bytes
offset   8: prev       8 bytes      offset  40: unused    8 bytes
```

The checksum is the sum of the bytes of all the other fields.
-/

namespace KernelMemory

/-- Small facts about a block, packed into 16 bits. -/
structure Marks where
  /-- The binary logarithm of the alignment of the payload. -/
  alignShift : Fin 64
  /-- Whether the block is the permanent first one. -/
  head : Bool
  /-- Bits without a meaning, kept as they are. -/
  spare : Fin 512
  deriving DecidableEq, Inhabited

namespace Marks

/-- The packed form: the shift in the lowest six bits, the head mark above them. -/
def toBits (m : Marks) : Nat :=
  m.alignShift + 64 * m.head.toNat + 128 * m.spare

/-- The marks packed into the lowest 16 bits. -/
def ofBits (n : Nat) : Marks :=
  ⟨Fin.ofNat 64 n, n.testBit 6, Fin.ofNat 512 (n / 128)⟩

/-- The marks with an alignment shift that fits into its bits. -/
def ofShift? (shift : Nat) (head : Bool) : Option Marks :=
  if h : shift < 64 then some ⟨⟨shift, h⟩, head, 0⟩ else none

/-- The marks of a block whose payload has this alignment. -/
def ofAlignment (alignment : Nat) : Marks :=
  ⟨Fin.ofNat 64 alignment.log2, false, 0⟩

def ofHead : Marks :=
  ⟨0, true, 0⟩

/-- The alignment that the shift stands for. -/
def alignment (m : Marks) : Nat :=
  1 <<< m.alignShift.val

theorem toBits_lt (m : Marks) : m.toBits < 1 <<< 16 := by
  have h := m.alignShift.isLt
  have h' := m.spare.isLt
  unfold toBits
  cases m.head <;> simp only [Bool.toNat_true, Bool.toNat_false] <;> omega

theorem ofBits_toBits (m : Marks) : ofBits m.toBits = m := by
  obtain ⟨⟨shift, hs⟩, head, ⟨spare, hp⟩⟩ := m
  simp only [ofBits, toBits, Nat.testBit, Nat.shiftRight_eq_div_pow, Fin.ofNat]
  cases head <;> simp <;> omega

end Marks

/-- The description at the start of a block. -/
structure Header where
  tag : Tag
  checksum : Nat
  marks : Marks
  /-- Address of the preceding header, 0 for none. -/
  prev : Nat
  /-- Address of the following header, 0 for none. -/
  next : Nat
  /-- Bytes of the payload as requested. -/
  used : Nat
  /-- Bytes that pad the payload to a multiple of 16. -/
  reserved : Nat
  /-- Bytes between the padding and the following header. -/
  unused : Nat
  deriving DecidableEq, Inhabited

namespace Header

/-- Bytes that a header occupies. -/
def size : Nat := 48

/-- Alignment of headers and least alignment of payloads. -/
def alignment : Nat := 16

/-! ## Checksum -/

def covered (h : Header) : List UInt8 :=
  LittleEndian.encode 4 h.tag.code.toNat ++ LittleEndian.encode 2 h.marks.toBits
    ++ LittleEndian.encode 8 h.prev ++ LittleEndian.encode 8 h.next
    ++ LittleEndian.encode 8 h.used ++ LittleEndian.encode 8 h.reserved
    ++ LittleEndian.encode 8 h.unused

/-- The checksum that belongs to the other fields. -/
def computed (h : Header) : Nat :=
  Word.total (h.covered.map UInt8.toNat) % (1 <<< 16)

def isIntact (h : Header) : Bool :=
  h.checksum == h.computed

/-- The header with the checksum that belongs to it. -/
def stamped (h : Header) : Header :=
  { h with checksum := h.computed }

theorem computed_stamped (h : Header) : h.stamped.computed = h.computed := by
  simp only [computed, covered, stamped]

@[simp] theorem isIntact_stamped (h : Header) : h.stamped.isIntact = true := by
  rw [isIntact, computed_stamped, stamped, beq_self_eq_true]

/-! ## Kinds of blocks -/

def isHead (h : Header) : Bool :=
  h.marks.head

def isFree (h : Header) : Bool :=
  h.used == 0

def isLive (h : Header) : Bool :=
  !h.isHead && !h.isFree

/-! ## In memory -/

def encode (h : Header) : List UInt8 :=
  LittleEndian.encode 4 h.tag.code.toNat ++ LittleEndian.encode 2 h.checksum
    ++ LittleEndian.encode 2 h.marks.toBits ++ LittleEndian.encode 8 h.prev
    ++ LittleEndian.encode 8 h.next ++ LittleEndian.encode 8 h.used
    ++ LittleEndian.encode 8 h.reserved ++ LittleEndian.encode 8 h.unused

/-- The header that lies at an address. -/
def load (m : Memory) (a : Nat) : Header where
  tag := ⟨UInt32.ofNat (m.number a 4)⟩
  checksum := m.number (a + 4) 2
  marks := .ofBits (m.number (a + 6) 2)
  prev := m.number (a + 8) 8
  next := m.number (a + 16) 8
  used := m.number (a + 24) 8
  reserved := m.number (a + 32) 8
  unused := m.number (a + 40) 8

def store (h : Header) (a : Nat) (m : Memory) : Memory :=
  m.write a h.encode

@[simp] theorem length_encode (h : Header) : h.encode.length = size := by
  simp [encode, size]

end Header

end KernelMemory
