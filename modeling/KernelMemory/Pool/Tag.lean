import KernelMemory.Text.Printable

/-!
# Tags

Every block of a pool carries four bytes that say what it is for. They are meant to
be read as text in a listing of the pool, so they are kept in reading order: the first
byte is the lowest of the 32-bit code.
-/

namespace KernelMemory

open Text

/-- The four bytes that label a block. -/
structure Tag where
  code : UInt32
  deriving DecidableEq, Inhabited

namespace Tag

def ofBytes (a b c d : UInt8) : Tag :=
  ⟨a.toUInt32 ||| b.toUInt32 <<< 8 ||| c.toUInt32 <<< 16 ||| d.toUInt32 <<< 24⟩

/-- The tag of a list of four bytes. -/
def ofList? : List UInt8 → Option Tag
  | [a, b, c, d] => some (ofBytes a b c d)
  | _ => none

/-- The tag of a text that takes four bytes. -/
def ofText? (text : String) : Option Tag :=
  ofList? text.toUTF8.toList

def bytes (t : Tag) : List UInt8 :=
  [t.code.toUInt8, (t.code >>> 8).toUInt8, (t.code >>> 16).toUInt8, (t.code >>> 24).toUInt8]

/-- The tag as quoted text; question marks stand for bytes that are no text. -/
def text (t : Tag) : String :=
  quoted ((String.fromUTF8? ⟨t.bytes.toArray⟩).getD "????")

/-- `Head`, the tag of the permanent first block. -/
def head : Tag :=
  ofBytes 0x48 0x65 0x61 0x64

/-- `Glbl`, the tag of blocks requested by layout. -/
def byLayout : Tag :=
  ofBytes 0x47 0x6c 0x62 0x6c

end Tag

end KernelMemory
