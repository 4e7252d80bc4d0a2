/-!
# Hexadecimal text

Addresses and sizes are written as `0x` and lowercase digits, either as short as
possible or with leading zeros up to a fixed number of digits. Bytes are written as
pairs of digits. Reading accepts digits of either case.
-/

namespace KernelMemory.Text

/-- The lowercase hexadecimal digits of a number, `0` for zero. -/
def hexDigits (n : Nat) : String :=
  String.ofList (Nat.toDigits 16 n)

/-- A number as `0x` and its shortest digits. -/
def hex (n : Nat) : String :=
  "0x" ++ hexDigits n

/-- A number as `0x` and at least `width` digits. -/
def hexPadded (width n : Nat) : String :=
  let digits := hexDigits n
  "0x" ++ "".pushn '0' (width - digits.length) ++ digits

def hexPairs (bytes : List UInt8) : String :=
  String.ofList
    (bytes.flatMap fun b => [Nat.digitChar (b.toNat / 16), Nat.digitChar (b.toNat % 16)])

/-! ## Reading -/

def digitValue? (c : Char) : Option Nat :=
  if c.isDigit then some (c.toNat - '0'.toNat)
  else if 'a' ≤ c ∧ c ≤ 'f' then some (c.toNat - 'a'.toNat + 10)
  else if 'A' ≤ c ∧ c ≤ 'F' then some (c.toNat - 'A'.toNat + 10)
  else none

def ofDigits? (digits : List Char) : Option Nat :=
  digits.foldlM (fun n c => (digitValue? c).map (16 * n + ·)) 0

/-- The number behind `0x`. -/
def ofHex? (text : String) : Option Nat :=
  match text.toList with
  | '0' :: 'x' :: digits => ofDigits? digits
  | _ => none

/-- The bytes that pairs of digits stand for. -/
def ofPairs? : List Char → Option (List UInt8)
  | [] => some []
  | [_] => none
  | high :: low :: rest => do
    return UInt8.ofNat (16 * (← digitValue? high) + (← digitValue? low)) :: (← ofPairs? rest)

end KernelMemory.Text
