import InvertedFile.Bytes.LittleEndian

/-!
# Hexadecimal digits

Two digits for a byte, eight for a 32-bit number. Digits are written in
lower case and read in either.
-/

namespace InvertedFile.Hex

/-- The digit of a number below sixteen. -/
def digit (n : Nat) : Char :=
  if n < 10 then Char.ofNat (48 + n) else Char.ofNat (87 + n)

/-- The number a digit's character code stands for, in either case. -/
def digit? (code : Nat) : Option Nat :=
  if 48 ≤ code ∧ code ≤ 57 then some (code - 48)
  else if 97 ≤ code ∧ code ≤ 102 then some (code - 87)
  else if 65 ≤ code ∧ code ≤ 70 then some (code - 55)
  else none

/-- The lowest `width` digits of a number, most significant first. -/
def digits : Nat → Nat → List Char
  | 0, _ => []
  | width + 1, n => digits width (n / 16) ++ [digit (n % 16)]

/-- A number in `width` digits. -/
def ofNat (width n : Nat) : String :=
  String.ofList (digits width n)

/-- Two digits for each byte. -/
def ofBytes (bytes : Bytes) : String :=
  String.ofList (bytes.flatMap fun b => digits 2 b.toNat)

/-- The bytes that pairs of digits stand for. -/
def bytes? : List Char → Option Bytes
  | [] => some []
  | [_] => none
  | high :: low :: rest => do
      let h ← digit? high.toNat
      let l ← digit? low.toNat
      let more ← bytes? rest
      return UInt8.ofNat (16 * h + l) :: more

end InvertedFile.Hex
