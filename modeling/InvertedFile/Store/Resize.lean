import InvertedFile.InvertedList.Copy
import InvertedFile.Store.Basic

/-!
# Resizing a shared list

A holder asks for room for a number of records and keeps the first of those
that are published. Where the list has the room and the layout already, and
keeps all its records, it stays as it is; where it keeps fewer, a list with
one holder is cut in place. In all other cases the holder gets a new list,
and the old one stays as it is for everybody else who holds it.

The room a holder asks for is not the size of the list: afterwards as many
records are published as were kept.
-/

namespace InvertedFile.Store

variable {t : ElementType} {i : IdType}

/-- A new list with the first `keep` records of another one and room for `records`. -/
def copyOf (source : InvertedList t i) (spec : ListSpec) (records keep : Nat) :
    Action Budget (InvertedList t i) := do
  let dest ← InvertedList.create t i spec records
  Action.undoing (Budget.release dest.reserved) (source.copyRecords dest keep)

/-- Makes such a copy of the list of a name. The writer of the list is held while records are
copied. -/
def duplicate (id : ListId) (source : InvertedList t i) (spec : ListSpec) (records keep : Nat) :
    Action (Store t i) (InvertedList t i) := do
  let dest ← budgeted (InvertedList.create t i spec records)
  Action.undoing (fun s => { s with budget := s.budget.release dest.reserved })
    (withWriter id (budgeted (source.copyRecords dest keep)))

/-- Puts a new list in the place of one that is held and tells its name. -/
def replace (id : ListId) (source : InvertedList t i) (spec : ListSpec) (records keep : Nat) :
    Action (Store t i) ListId := do
  let list ← duplicate id source spec records keep
  let new ← insert list
  modify (release id)
  return new

/-- Makes room for `records` records of a held list, of which the first `used` are kept as far as
there is room for them, and tells the name of the list that is held afterwards. -/
def resize (id : ListId) (spec : ListSpec) (records used : Nat) : Action (Store t i) ListId := do
  let h ← holding id
  let l := h.list
  ensure (spec.dim = l.spec.dim) (.invalid (.resizeDim l.spec.dim spec.dim))
  ensure (used ≤ l.size) (.outOfBounds .usedRecords used l.size)
  let keep := min used records
  if records ≤ l.capacity ∧ spec.layout = l.spec.layout then
    if keep = l.size then return id
    else if h.holders ≤ 1 then
      onList id (InvertedList.setSize keep)
      return id
    else replace id l spec records keep
  else replace id l spec records keep

end InvertedFile.Store
