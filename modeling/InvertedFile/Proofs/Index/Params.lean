import Mathlib.Algebra.Ring.Nat
import InvertedFile.Index.Image
import InvertedFile.Proofs.Index.Spelling

/-!
# Parameters as they are stored

The parameters of an index are written as an object with all four members.
Whatever they are, their text is far shorter than the longest text that a
reader takes.

## Main results

* `length_toJson_le` — the text is not too long for an image.
-/

namespace InvertedFile

namespace Json

theorem length_numberText_le {n k : Nat} (h : n < 10 ^ (k + 1)) :
    (numberText n).length ≤ k + 1 := by
  induction k generalizing n with
  | zero =>
      rw [numberText, if_pos (by omega)]
      exact Nat.le_refl 1
  | succ k ih =>
      rw [numberText]
      split
      · rw [List.length_singleton]
        omega
      · have hdiv : n / 10 < 10 ^ (k + 1) := by
          rw [Nat.pow_succ] at h
          omega
        rw [List.length_append, List.length_singleton]
        exact Nat.add_le_add_right (ih hdiv) 1

end Json

namespace IndexParams

/-- The text of parameters is not too long for an image. -/
theorem length_toJson_le (p : IndexParams) : p.toJson.length ≤ Index.paramsLimit := by
  have hdigits : ∀ n : UInt32, (Json.numberText n.toNat).length ≤ 10 := fun n =>
    Json.length_numberText_le (Nat.lt_of_lt_of_le n.toNat_lt (by decide : 2 ^ 32 ≤ 10 ^ (9 + 1)))
  have hlists := hdigits p.lists
  have hmetric : (Json.stringText p.metric.name).length ≤ 16 := by
    cases p.metric <;> decide
  have hconservative : (Json.truthText p.conservative).length ≤ 5 := by
    cases p.conservative <;> decide
  have hveclen : (veclenText p.veclen).length ≤ 10 := by
    cases p.veclen with
    | none => decide
    | some veclen => exact hdigits veclen
  have hkeys : (Json.stringText "n_lists").length = 9 ∧
      (Json.stringText "metric").length = 8 ∧
      (Json.stringText "conservative_memory_allocation").length = 32 ∧
      (Json.stringText "veclen").length = 8 := by
    decide
  obtain ⟨hfirst, hsecond, hthird, hfourth⟩ := hkeys
  have hlimit : Index.paramsLimit = 1048576 := rfl
  simp only [toJson_eq, Json.objectText, jsonMembers, List.map_cons, List.map_nil,
    List.intercalate_cons_cons, List.intercalate_singleton, List.length_append, List.length_cons,
    List.length_nil]
  omega

end IndexParams

end InvertedFile
