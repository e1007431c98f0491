import InvertedFile.InvertedList.Basic
import InvertedFile.InvertedList.Writer

/-!
# Stores of lists

A store holds lists that are shared. Whoever holds a list has its `ListId`,
and the store counts the holders of each. When the last holder lets go of a
list, the list is dropped and its bytes go back to the budget.

A list that has one holder may be changed in any way by that holder. A list
that has more may only be written behind its published records, through the
writer, of which there is one at a time. The writer is also held while a list
is copied or stored, so that nothing is written while it is read.

## Main results

* `find?_update_self`, `find?_update_ne` — an update concerns one list.
-/

namespace InvertedFile

/-- The name of a list in its store: its place. No two lists of a store's life share one. -/
structure ListId where
  number : Nat
  deriving DecidableEq, Repr

/-- A list in a store. -/
structure Holding (t : ElementType) (i : IdType) where
  list : InvertedList t i
  holders : Nat
  /-- A writer has been taken and not been put back. -/
  writing : Bool

/-- Lists over one budget. A list that is gone leaves its place empty. -/
structure Store (t : ElementType) (i : IdType) where
  budget : Budget
  /-- The lists, each at the place its name says. -/
  lists : Array (Option (Holding t i))

namespace Store

variable {t : ElementType} {i : IdType} {α : Type}

/-- A store without lists. -/
def new (t : ElementType) (i : IdType) (limit : Option Nat) : Store t i where
  budget := .new limit
  lists := #[]

/-- What the store has under a name. -/
def find? (s : Store t i) (id : ListId) : Option (Holding t i) :=
  s.lists[id.number]?.join

/-- The list of a name. -/
def list? (s : Store t i) (id : ListId) : Option (InvertedList t i) :=
  (s.find? id).map (·.list)

/-- Puts a changed holding, or none, in the place of a name. -/
def update (id : ListId) (h : Option (Holding t i)) (s : Store t i) : Store t i :=
  { s with lists := s.lists.setIfInBounds id.number h }

theorem find?_update_ne (s : Store t i) {id other : ListId} (h : Option (Holding t i))
    (hne : other ≠ id) : (s.update id h).find? other = s.find? other := by
  have hnumber : id.number ≠ other.number := fun heq => hne (by
    cases id
    cases other
    simp_all)
  simp [find?, update, hnumber]

theorem find?_update_self (s : Store t i) {id : ListId} {old : Holding t i}
    (h : Option (Holding t i)) (hfind : s.find? id = some old) :
    (s.update id h).find? id = h := by
  have hlt : id.number < s.lists.size := by
    apply Decidable.byContradiction
    intro hge
    simp [find?, Array.getElem?_eq_none (Nat.not_lt.mp hge)] at hfind
  simp [find?, update, hlt]

/-- What the store has under a name. A holder's name is always there. -/
def holding (id : ListId) : Action (Store t i) (Holding t i) := do
  match (← get).find? id with
  | some h => return h
  | none => throw (.fault .unknownList)

/-- An action on the budget of a store. -/
def budgeted (act : Action Budget α) : Action (Store t i) α :=
  Action.focus Store.budget (fun s b => { s with budget := b }) act

/-- Takes in a list, with one holder, and tells its name. -/
def insert (list : InvertedList t i) : Action (Store t i) ListId := do
  let id := ListId.mk (← get).lists.size
  modify fun s => { s with lists := s.lists.push (some { list, holders := 1, writing := false }) }
  return id

/-- Counts one holder more. -/
def hold (id : ListId) (s : Store t i) : Store t i :=
  match s.find? id with
  | none => s
  | some h => s.update id (some { h with holders := h.holders + 1 })

/-- Counts one holder less. With the last one the list goes, and its bytes go back. -/
def release (id : ListId) (s : Store t i) : Store t i :=
  match s.find? id with
  | none => s
  | some h =>
      if h.holders ≤ 1 then
        { s.update id none with budget := s.budget.release h.list.reserved }
      else s.update id (some { h with holders := h.holders - 1 })

/-- Counts one holder less of each of several lists. -/
def releaseAll (ids : List ListId) (s : Store t i) : Store t i :=
  ids.foldl (fun s id => s.release id) s

/-- An action on one list of the store. -/
def onList (id : ListId) (act : Action (InvertedList t i) α) : Action (Store t i) α := fun s =>
  match s.find? id with
  | none => .error (.fault .unknownList) s
  | some h =>
      match act h.list with
      | .ok a list => .ok a (s.update id (some { h with list }))
      | .error e list => .error e (s.update id (some { h with list }))

/-- An action for which a list must have no other holder. Tells nothing when it has one. -/
def onUnshared (id : ListId) (act : Action (InvertedList t i) α) :
    Action (Store t i) (Option α) := do
  let h ← holding id
  if h.holders ≤ 1 then return some (← onList id act)
  else return none

/-- Takes the writer of a list, if nobody has it. -/
def takeWriter (id : ListId) : Action (Store t i) Bool := do
  let h ← holding id
  if h.writing then return false
  else
    modify (update id (some { h with writing := true }))
    return true

/-- Puts the writer of a list back. -/
def putWriter (id : ListId) (s : Store t i) : Store t i :=
  match s.find? id with
  | none => s
  | some h => s.update id (some { h with writing := false })

/-- An action with the writer of a list held, which is put back however the action ends. Where
somebody else has the writer, the action would wait for them. A store does not tell the time, so
the wait is over at once, and the writer is left to them. -/
def withWriter (id : ListId) (act : Action (Store t i) α) : Action (Store t i) α := do
  if ← takeWriter id then Action.closing (putWriter id) act
  else act

/-- Whether the writer of a list can be taken. -/
def writerIsFree (id : ListId) (s : Store t i) : Bool :=
  match s.find? id with
  | none => false
  | some h => !h.writing

end Store

end InvertedFile
