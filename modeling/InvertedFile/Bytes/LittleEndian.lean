/-!
# Little-endian numbers

Every number of a stored image is written with its least significant byte
first, in as many bytes as its field is wide. One encoder serves all widths.

## Main results

* `encode_decode` — every string of bytes is the encoding of what it reads
  as, so a field has one spelling for each value.
-/

namespace InvertedFile

/-- A string of bytes. -/
abbrev Bytes : Type :=
  List UInt8

namespace LittleEndian

/-- The lowest `width` bytes of a number, least significant first. -/
def encode : Nat → Nat → Bytes
  | 0, _ => []
  | width + 1, n => UInt8.ofNat n :: encode width (n / 256)

/-- The number a string of bytes stands for. -/
def decode : Bytes → Nat
  | [] => 0
  | b :: rest => b.toNat + 256 * decode rest

@[simp]
theorem length_encode (width n : Nat) : (encode width n).length = width := by
  induction width generalizing n with
  | zero => rfl
  | succ width ih => simp [encode, ih]

theorem encode_decode (bytes : Bytes) : encode bytes.length (decode bytes) = bytes := by
  induction bytes with
  | nil => rfl
  | cons b rest ih =>
      have hb : b.toNat < 256 := b.toNat_lt
      have hhead : UInt8.ofNat (b.toNat + 256 * decode rest) = b := by
        apply UInt8.toNat.inj
        simp
      have htail : (b.toNat + 256 * decode rest) / 256 = decode rest := by omega
      simp [encode, decode, hhead, htail, ih]

end LittleEndian

end InvertedFile
