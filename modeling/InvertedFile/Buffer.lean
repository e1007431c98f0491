import InvertedFile.Action

/-!
# Buffers

A buffer is an array of fixed length that is read and written a run of
elements at a time. A run that does not lie inside the buffer is a fault, and
a faulting write leaves the buffer as it was.

## Main results

* `size_overwrite` — writing keeps the length.
* `getElem?_overwrite` — what a buffer holds after a write: the run where the
  run was written, and what it held before everywhere else.
* `store_eq_ok`, `store_eq_error` — a write succeeds exactly when its run lies
  inside the buffer.
-/

namespace InvertedFile.Buffer

variable {α : Type}

/-- `a` with `xs` in place of the elements from `start` on. -/
def overwrite (a : Array α) (start : Nat) : List α → Array α
  | [] => a
  | x :: xs => overwrite (a.setIfInBounds start x) (start + 1) xs

@[simp]
theorem size_overwrite (a : Array α) (start : Nat) (xs : List α) :
    (overwrite a start xs).size = a.size := by
  induction xs generalizing a start with
  | nil => rfl
  | cons x xs ih => simp [overwrite, ih]

theorem getElem?_overwrite (a : Array α) (start : Nat) (xs : List α) (k : Nat) :
    (overwrite a start xs)[k]? =
      if start ≤ k ∧ k < start + xs.length ∧ k < a.size then xs[k - start]? else a[k]? := by
  induction xs generalizing a start with
  | nil =>
      rw [if_neg (by simp; omega)]
      rfl
  | cons x xs ih =>
      simp only [overwrite, ih, Array.size_setIfInBounds, List.length_cons]
      by_cases hk : start = k
      · subst hk
        rw [if_neg (by omega)]
        by_cases hs : start < a.size
        · rw [if_pos ⟨Nat.le_refl _, by omega, hs⟩]
          simp [hs]
        · rw [if_neg (by omega)]
          simp [hs]
      · by_cases hin : start + 1 ≤ k ∧ k < start + 1 + xs.length ∧ k < a.size
        · rw [if_pos hin, if_pos (by omega)]
          have hsub : k - start = (k - (start + 1)) + 1 := by omega
          rw [hsub, List.getElem?_cons_succ]
        · rw [if_neg hin, if_neg (by omega), Array.getElem?_setIfInBounds, if_neg hk]

/-- The run of `length` elements from `start` on. -/
def slice (a : Array α) (start length : Nat) : Except Error (Array α) :=
  if start + length ≤ a.size then .ok (a.extract start (start + length))
  else .error (.fault .outsideBuffer)

/-- Writes a run over the elements from `start` on. -/
def store (start : Nat) (xs : Array α) : Action (Array α) Unit := fun a =>
  if start + xs.size ≤ a.size then .ok () (overwrite a start xs.toList)
  else .error (.fault .outsideBuffer) a

theorem slice_eq_ok {a : Array α} {start length : Nat} (h : start + length ≤ a.size) :
    slice a start length = .ok (a.extract start (start + length)) := by
  simp [slice, h]

theorem store_eq_ok {a : Array α} {start : Nat} {xs : Array α} (h : start + xs.size ≤ a.size) :
    store start xs a = .ok () (overwrite a start xs.toList) := by
  simp [store, h]

theorem store_eq_error {a : Array α} {start : Nat} {xs : Array α}
    (h : a.size < start + xs.size) : store start xs a = .error (.fault .outsideBuffer) a := by
  simp [store, Nat.not_le.mpr h]

/-- Runs an action on the run of `length` elements from `start` on and puts back what it makes of
them, also when it fails. -/
def within (start length : Nat) (act : Action (Array α) Unit) : Action (Array α) Unit := fun a =>
  if start + length ≤ a.size then
    match act (a.extract start (start + length)) with
    | .ok u part => .ok u (overwrite a start part.toList)
    | .error e part => .error e (overwrite a start part.toList)
  else .error (.fault .outsideBuffer) a

end InvertedFile.Buffer
