/-!
# Element and id types

A list stores words of one **element type** under ids of one **id type**.
Both are chosen when the list is made and are written into every stored
image as a one-byte tag, so that a reader can refuse an array of another
type before it looks at a single word.

Words are bit patterns. A 32-bit float is the pattern of its bits, so the
payload of a NaN and the sign of a zero are data like any other; `Word.value`
reads a pattern as the integer its type stands for.

## Main results

* `ElementType.ofTag?_tag`, `ElementType.tag_of_ofTag?` — tags name element
  types one to one, and no other byte is a tag.
* `Id.ofNat?_ne_invalid` — a number that is accepted as an id is never the
  id that marks an unused slot.
-/

namespace InvertedFile

/-- The types of the words a list can hold. -/
inductive ElementType where
  | f32
  | i8
  | u8
  | i32
  | u32
  | i64
  | u64
  deriving DecidableEq, Repr

namespace ElementType

/-- Bytes in one word. -/
def size : ElementType → Nat
  | i8 | u8 => 1
  | f32 | i32 | u32 => 4
  | i64 | u64 => 8

/-- The byte that stands for the type in a stored image. -/
def tag : ElementType → UInt8
  | f32 => 0
  | i8 => 1
  | u8 => 2
  | i32 => 3
  | u32 => 4
  | i64 => 5
  | u64 => 6

/-- The name of the type in messages. -/
def name : ElementType → String
  | f32 => "f32"
  | i8 => "i8"
  | u8 => "u8"
  | i32 => "i32"
  | u32 => "u32"
  | i64 => "i64"
  | u64 => "u64"

/-- Signed types read their words in two's complement. A float's word is its bits, unsigned. -/
def isSigned : ElementType → Bool
  | i8 | i32 | i64 => true
  | f32 | u8 | u32 | u64 => false

/-- Every element type, in the order of the tags. -/
def all : List ElementType :=
  [f32, i8, u8, i32, u32, i64, u64]

/-- The type a tag stands for, if it stands for one. -/
def ofTag? (tag : UInt8) : Option ElementType :=
  all.find? fun t => t.tag == tag

theorem ofTag?_tag (t : ElementType) : ofTag? t.tag = some t := by
  cases t <;> rfl

theorem tag_of_ofTag? {tag : UInt8} {t : ElementType} (h : ofTag? tag = some t) : t.tag = tag := by
  simpa using List.find?_some h

theorem size_pos (t : ElementType) : 0 < t.size := by
  cases t <;> decide

end ElementType

/-- A word of type `t`: its bits. -/
abbrev Word (t : ElementType) : Type :=
  BitVec (8 * t.size)

namespace Word

/-- The integer a word stands for in its type. -/
def value {t : ElementType} (w : Word t) : Int :=
  if t.isSigned then w.toInt else w.toNat

/-- The word of an integer, reduced to the width of the type. -/
def ofValue (t : ElementType) (n : Int) : Word t :=
  BitVec.ofInt (8 * t.size) n

end Word

/-- The types ids can have. -/
inductive IdType where
  | i32
  | u32
  | i64
  | u64
  deriving DecidableEq, Repr

namespace IdType

/-- The element type an id type stores its ids as. -/
def element : IdType → ElementType
  | i32 => .i32
  | u32 => .u32
  | i64 => .i64
  | u64 => .u64

/-- Bytes in one id. -/
def size (i : IdType) : Nat :=
  i.element.size

/-- How many numbers are ids: the ids are those below `limit`. A signed type has its non-negative
half, an unsigned type all but its greatest value. -/
def limit : IdType → Nat
  | i32 => UInt32.size / 2
  | u32 => UInt32.size - 1
  | i64 => UInt64.size / 2
  | u64 => UInt64.size - 1

end IdType

/-- An id of type `i`. -/
abbrev Id (i : IdType) : Type :=
  Word i.element

namespace Id

/-- The id that marks an unused slot: all bits set, which is `-1` in a signed type and the greatest
value in an unsigned one. -/
def invalid (i : IdType) : Id i :=
  BitVec.allOnes (8 * i.element.size)

/-- The id of a record number, if the type has one for it. -/
def ofNat? (i : IdType) (n : Nat) : Option (Id i) :=
  if n < i.limit then some (BitVec.ofNat (8 * i.element.size) n) else none

theorem ofNat?_eq_some_iff {i : IdType} {n : Nat} {id : Id i} :
    ofNat? i n = some id ↔ n < i.limit ∧ BitVec.ofNat (8 * i.element.size) n = id := by
  simp [ofNat?]

theorem ofNat?_ne_invalid (i : IdType) (n : Nat) : ofNat? i n ≠ some (invalid i) := by
  intro h
  have ⟨hn, hid⟩ := ofNat?_eq_some_iff.mp h
  have hval := congrArg BitVec.toNat hid
  cases i <;>
    simp [invalid, IdType.limit, UInt32.size, UInt64.size, IdType.element, ElementType.size,
      BitVec.toNat_ofNat]
      at hn hval <;> omega

end Id

end InvertedFile
