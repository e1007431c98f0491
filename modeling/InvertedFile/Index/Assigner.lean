import InvertedFile.Action

/-!
# Assigners

An assigner tells for each vector of a batch which list it belongs to, as one
**label** per vector. A label has 32 bits, and an index need not have a list
for it. Choosing well is not the library's business; it takes labels from
whoever has them.
-/

namespace InvertedFile

/-- Labels for a batch of flat vectors of a given width. -/
abbrev Assigner (t : ElementType) : Type :=
  Array (Word t) → Nat → Except Error (Array UInt32)

namespace Assigner

variable {t : ElementType}

/-- Labels that were chosen before, one for each vector. -/
def precomputed (labels : Array UInt32) : Assigner t := fun vectors dim =>
  let rows := vectors.size / max dim 1
  if labels.size = rows then .ok labels
  else .error (.invalid (.labelsForVectors labels.size rows))

/-- Cuts a batch into its vectors, and an incomplete one at its end. -/
def rows (vectors : Array (Word t)) (dim : Nat) : List (Array (Word t)) :=
  (List.range ((vectors.size + (dim - 1)) / dim)).map fun k =>
    vectors.extract (k * dim) ((k + 1) * dim)

/-- Labels that a function of the single vector gives. -/
def perVector (label : Array (Word t) → Except Error UInt32) : Assigner t := fun vectors dim => do
  ensure (0 < dim) (.invalid (.layout .zeroDim))
  let labels ← (rows vectors dim).mapM label
  return labels.toArray

/-- A number modulo another one. The label keeps the lowest 32 bits of the remainder. -/
def reduce (modulus n : Nat) : Except Error UInt32 :=
  if modulus = 0 then .error (.fault .divisionByZero) else .ok (UInt32.ofNat (n % modulus))

/-- The bits of the first column of a vector, modulo a number. -/
def byFirstColumn (modulus : Nat) : Assigner t :=
  perVector fun vector =>
    match vector[0]? with
    | some w => reduce modulus w.toNat
    | none => .error (.fault .outsideBuffer)

/-- The length of a vector, modulo a number. -/
def byLength (modulus : Nat) : Assigner t :=
  perVector fun vector => reduce modulus vector.size

/-- The labels of an assigner from outside, whatever it was given. -/
def constant (labels : Array UInt32) : Assigner t := fun _ _ => .ok labels

/-- An assigner from outside that gives a reason instead of labels. -/
def failing (reason : String) : Assigner t := fun _ _ => .error (.invalid (.assigner reason))

end Assigner

end InvertedFile
