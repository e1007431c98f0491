import Mathlib.Algebra.Ring.Nat

/-!
# Words that are checked

Numbers are unbounded and words are not. A **checked word** is a word of some
width, or nothing once an operation has left the range of the words of that
width: a sum or a product that does not fit, a division by zero, a conversion
to a width that is too narrow. Nothing stays nothing, so that a formula of
checked words comes to a word only if none of its steps has overflowed.

`value` reads a checked word as a number. Each operation has one equation,
which says what its value is and when it has none; a formula is then followed
step by step, with a bound for each step.

## Main results

* `value_add_of_lt`, `value_mul_of_lt`, `value_div_of_pos`, `value_mod_of_pos`,
  `value_cast_of_lt` — a step that stays in range computes the number.
-/

namespace InvertedFile

/-- A word of `w` bits, or nothing once a computation has left the range of such words. -/
structure Checked (w : Nat) where
  word? : Option (BitVec w)

namespace Checked

variable {w : Nat}

/-- The number of a checked word. -/
def value (x : Checked w) : Option Nat :=
  x.word?.map BitVec.toNat

/-- The word of a number, if there is one. -/
def ofNat (w n : Nat) : Checked w where
  word? := if n < 2 ^ w then some (BitVec.ofNat w n) else none

/-- The same number in another width. -/
def cast (v : Nat) (x : Checked w) : Checked v where
  word? := x.word?.bind fun a => if a.toNat < 2 ^ v then some (a.setWidth v) else none

/-- An operation on two words, with nothing for the words that it leaves the range for. -/
def combine (leaves : BitVec w → BitVec w → Bool) (op : BitVec w → BitVec w → BitVec w)
    (x y : Checked w) : Checked w where
  word? := do
    let a ← x.word?
    let b ← y.word?
    if leaves a b then none else some (op a b)

instance : Add (Checked w) where
  add := combine BitVec.uaddOverflow (· + ·)

instance : Mul (Checked w) where
  mul := combine BitVec.umulOverflow (· * ·)

instance : Div (Checked w) where
  div := combine (fun _ b => b == 0#w) (· / ·)

instance : Mod (Checked w) where
  mod := combine (fun _ b => b == 0#w) (· % ·)

/-! ## The value of a formula -/

theorem value_ofNat_of_lt {n : Nat} (h : n < 2 ^ w) : (ofNat w n).value = some n := by
  simp [value, ofNat, h, Nat.mod_eq_of_lt h]

/-- A checked word with a value is the word of its value. -/
theorem word?_eq_of_value {x : Checked w} {n : Nat} (h : x.value = some n) :
    ∃ a, x.word? = some a ∧ a.toNat = n := by
  simpa [value] using h

section Steps

variable {x y : Checked w} {m n : Nat} (hx : x.value = some m) (hy : y.value = some n)
include hx

theorem value_cast_of_lt {v : Nat} (h : m < 2 ^ v) : (x.cast v).value = some m := by
  obtain ⟨a, ha, rfl⟩ := word?_eq_of_value hx
  simp [value, cast, ha, h, Nat.mod_eq_of_lt h]

include hy

/-- Words that an operation stays in range for are combined. -/
theorem value_combine {leaves : BitVec w → BitVec w → Bool} {op : BitVec w → BitVec w → BitVec w}
    {r : Nat}
    (h : ∀ a b : BitVec w, a.toNat = m → b.toNat = n → leaves a b = false ∧ (op a b).toNat = r) :
    (combine leaves op x y).value = some r := by
  obtain ⟨a, ha, hm⟩ := word?_eq_of_value hx
  obtain ⟨b, hb, hn⟩ := word?_eq_of_value hy
  have hin := h a b hm hn
  simp [value, combine, ha, hb, hin]

theorem value_add_of_lt (h : m + n < 2 ^ w) : (x + y).value = some (m + n) := by
  apply value_combine hx hy
  rintro a b rfl rfl
  simp [BitVec.uaddOverflow, h, Nat.mod_eq_of_lt h]

theorem value_mul_of_lt (h : m * n < 2 ^ w) : (x * y).value = some (m * n) := by
  apply value_combine hx hy
  rintro a b rfl rfl
  simp [BitVec.umulOverflow, h, Nat.mod_eq_of_lt h]

theorem value_div_of_pos (h : 0 < n) : (x / y).value = some (m / n) := by
  apply value_combine hx hy
  rintro a b rfl rfl
  have hne : b ≠ 0#w := by
    rintro rfl
    simp at h
  simp [hne]

theorem value_mod_of_pos (h : 0 < n) : (x % y).value = some (m % n) := by
  apply value_combine hx hy
  rintro a b rfl rfl
  have hne : b ≠ 0#w := by
    rintro rfl
    simp at h
  simp [hne]

end Steps

/-- A product that does not fit is nothing, and so is what is computed from it. -/
example : (ofNat 64 0 * (ofNat 64 (2 ^ 32) * ofNat 64 (2 ^ 32))).value = none := by
  decide

end Checked

end InvertedFile
