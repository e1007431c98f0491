import InvertedFile.Budget.Basic

/-!
# Named reservations

A ledger holds bytes of one budget under names. Taking a name that is held
already takes the new bytes first and gives the old ones back afterwards, so
that for a moment both are charged; when the new bytes are refused the old
ones stay.
-/

namespace InvertedFile

/-- A budget and the bytes held against it, by name. -/
structure Ledger where
  budget : Budget
  held : List (String × Nat)
  deriving Repr

namespace Ledger

/-- A ledger that holds nothing. -/
def new (limit : Option Nat) : Ledger where
  budget := .new limit
  held := []

/-- Bytes held under a name. -/
def bytes? (l : Ledger) (name : String) : Option Nat :=
  l.held.lookup name

/-- Gives back what a name holds, and tells whether it held anything. -/
def drop (name : String) : Action Ledger Bool := fun l =>
  match l.bytes? name with
  | none => .ok false l
  | some bytes =>
      .ok true
        { budget := l.budget.release bytes
          held := l.held.filter fun entry => entry.1 != name }

/-- Holds bytes under a name, in place of what it held. -/
def reserve (name : String) (bytes : Nat) : Action Ledger Nat := do
  Action.focus Ledger.budget (fun l b => { l with budget := b }) (Budget.charge bytes)
  let _ ← drop name
  modify fun l => { l with held := (name, bytes) :: l.held }
  return bytes

end Ledger

end InvertedFile
