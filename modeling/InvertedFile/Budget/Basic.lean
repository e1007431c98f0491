import InvertedFile.Action

/-!
# Memory budgets

A budget counts the bytes of all buffers that are alive and refuses those
that would take the count past its limit. Buffers are charged before they are
made and given back when they go. The budget itself holds no list of what was
charged: whoever charges a number of bytes gives that number back.

Of the host one thing is assumed: it gives out every buffer of at most
`hostLimit` bytes and no other. A host that is short of memory may refuse a
smaller buffer. That is not modelled. It would be told as an `allocation`, and
give the charge back, as where a buffer is beyond `hostLimit`.

## Main results

* `charge_ok_iff` — a charge succeeds exactly when the sum is a byte count and
  within the limit, and then adds exactly the bytes asked for.
* `charge_error` — a refused charge changes nothing.
* `allocate_eq_ok` — a buffer is charged with the bytes of its elements.
-/

namespace InvertedFile

/-- One more than the greatest byte count. -/
def byteLimit : Nat :=
  UInt64.size

/-- The greatest number of bytes the host gives to one buffer. It is assumed to give as many. -/
def hostLimit : Nat :=
  UInt64.size / 2 - 1

/-- A count of the bytes in use and a limit to it, if there is one. -/
structure Budget where
  limit : Option Nat
  inUse : Nat
  deriving DecidableEq, Repr

namespace Budget

/-- A budget with nothing in use. -/
def new (limit : Option Nat) : Budget where
  limit := limit
  inUse := 0

/-- Why a number of bytes more would be refused, if it would. -/
def refusal? (b : Budget) (bytes : Nat) : Option Refusal :=
  if byteLimit ≤ b.inUse + bytes then some .countOverflow
  else match b.limit with
    | none => none
    | some limit => if limit < b.inUse + bytes then some (.exhausted b.inUse limit) else none

/-- Adds bytes to the count, unless the budget refuses. -/
def charge (bytes : Nat) : Action Budget Unit := fun b =>
  match b.refusal? bytes with
  | some cause => .error (.allocation bytes cause) b
  | none => .ok () { b with inUse := b.inUse + bytes }

/-- Gives bytes back. -/
def release (bytes : Nat) (b : Budget) : Budget :=
  { b with inUse := b.inUse - bytes }

theorem charge_ok_iff {b b' : Budget} {bytes : Nat} {u : Unit} :
    charge bytes b = .ok u b' ↔
      b.refusal? bytes = none ∧ b' = { b with inUse := b.inUse + bytes } := by
  unfold charge
  cases b.refusal? bytes <;> simp [eq_comm]

theorem charge_error {b b' : Budget} {bytes : Nat} {e : Error} (h : charge bytes b = .error e b') :
    b' = b := by
  unfold charge at h
  cases hr : b.refusal? bytes <;> simp_all

/-- Charges a buffer of `count` elements of `width` bytes and tells its bytes. The host has a limit
of its own, and a buffer it refuses is not charged. -/
def allocate (count width : Nat) : Action Budget Nat := do
  let bytes := count * width
  ensure (bytes < byteLimit) (.allocation (byteLimit - 1) .bufferTooLarge)
  charge bytes
  Action.undoing (release bytes) (ensure (bytes ≤ hostLimit) (.allocation bytes .hostLimit))
  return bytes

theorem allocate_eq_ok {count width bytes : Nat} {b b' : Budget}
    (h : allocate count width b = .ok bytes b') :
    bytes = count * width ∧ b' = { b with inUse := b.inUse + bytes } := by
  simp only [allocate, Action.bind_eq_ok, Action.pure_eq_ok, Action.ensure_eq_ok, charge_ok_iff,
    Action.undoing_ok] at h
  obtain ⟨_, _, ⟨_, rfl⟩, _, _, ⟨_, rfl⟩, _, _, ⟨_, rfl⟩, rfl, rfl⟩ := h
  exact ⟨rfl, rfl⟩

/-- Runs an action while a buffer of `count` elements of `width` bytes is charged. The action is
given the bytes of the buffer. -/
def reserving {σ α : Type} (part : σ → Budget) (put : σ → Budget → σ) (count width : Nat)
    (act : Nat → Action σ α) : Action σ α := do
  let bytes ← Action.focus part put (allocate count width)
  Action.closing (fun s => put s ((part s).release bytes)) (act bytes)

end Budget

end InvertedFile
