import InvertedFile.InvertedList.Record
import InvertedFile.Store.Basic

/-!
# Saving a shared list

A list is saved while others may hold it. So the writer of the list is held
for as long as anything is read of it, and put back before the first byte goes
out: whoever waits for the list does not wait for the sink.

The buffers of the record are charged to the budget of the store. They live
longer than the hold on the writer, until the record has been written.
-/

namespace InvertedFile

/-- A store, and the sink that something of it is saved to. -/
structure Saving (t : ElementType) (i : IdType) where
  store : Store t i
  sink : Sink

namespace Saving

variable {t : ElementType} {i : IdType} {α : Type}

/-- An action on the store. -/
def stored (act : Action (Store t i) α) : Action (Saving t i) α :=
  Action.focus Saving.store (fun s store => { s with store }) act

/-- What is transferred to the sink, with the budget of the store. -/
def transfer (s : Saving t i) : Transfer Sink where
  budget := s.store.budget
  stream := s.sink

/-- The sink and the budget that a transfer has come to. -/
def transferred (s : Saving t i) (tr : Transfer Sink) : Saving t i where
  store := { s.store with budget := tr.budget }
  sink := tr.stream

/-- An action on the sink and the budget. -/
def transferring (act : Action (Transfer Sink) α) : Action (Saving t i) α :=
  Action.focus Saving.transfer Saving.transferred act

/-- Writes the list of a name as one record, as `InvertedList.writeRecord` does, with the writer of
the list held until what the record stores has been copied out. -/
def writeList (id : ListId) (store : ListSpec) (length : Option UInt32) :
    Action (Saving t i) Unit := do
  let l := (← stored (Store.holding id)).list
  ensure (store.dim = l.spec.dim) (.invalid (.storeDim l.spec.dim store.dim))
  let draft ← stored (Store.withWriter id (Store.budgeted (l.gather (l.imageLength length))))
  transferring (draft.write store.layout)

end Saving

end InvertedFile
