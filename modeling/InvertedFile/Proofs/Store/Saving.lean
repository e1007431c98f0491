import InvertedFile.Proofs.InvertedList.Saving
import InvertedFile.Proofs.Store.Writers
import InvertedFile.Store.Saving

/-!
# A save is a transfer

`Saving.writeList` holds the writer of a list while it copies out of it, and
puts it back before it writes. `InvertedList.writeRecord` knows of no store.
What the first does to the budget and to the sink is what the second does,
and it does nothing else: the writer that was taken has been put back, whether
a buffer was refused under the hold or the sink ran full behind it.

So all that is known of records carries over to what is saved, and a save that
has ended, in whatever way, has left the lists of the store as they were.

## Main results

* `writeList_eq` — a list that is saved is written as it is.
* `store_writeList` — the store is as before when a list has been saved, or
  has not.
-/

namespace InvertedFile.Saving

open InvertedFile.Action

variable {t : ElementType} {i : IdType} {α β : Type} {s : Saving t i} {id : ListId}

theorem isPart_transfer : IsPart (Saving.transfer : Saving t i → Transfer Sink) transferred where
  part_put := fun _ _ => rfl
  put_part := fun _ => rfl
  put_put := fun _ _ _ => rfl

theorem transferring_ok {act : Action (Transfer Sink) α} {a : α} {tr : Transfer Sink}
    (h : act s.transfer = .ok a tr) : transferring act s = .ok a (s.transferred tr) :=
  focus_ok h

theorem transferring_error {act : Action (Transfer Sink) α} {e : Error} {tr : Transfer Sink}
    (h : act s.transfer = .error e tr) : transferring act s = .error e (s.transferred tr) :=
  focus_error h

theorem transferring_bind (act : Action (Transfer Sink) α) (f : α → Action (Transfer Sink) β) :
    (transferring (act >>= f) : Action (Saving t i) β) =
      (transferring act >>= fun a => transferring (f a)) :=
  isPart_transfer.focus_bind act f

theorem transferring_ofExcept (x : Except Error α) :
    (transferring (Action.ofExcept x) : Action (Saving t i) α) = Action.ofExcept x :=
  isPart_transfer.focus_ofExcept x

theorem transferring_ensure (p : Prop) [Decidable p] (e : Error) :
    (transferring (ensure p e) : Action (Saving t i) Unit) = ensure p e :=
  isPart_transfer.focus_ensure p e

/-- The budget of the store is that of the transfer. -/
theorem stored_budgeted (act : Action Budget α) :
    (stored (Store.budgeted act) : Action (Saving t i) α) =
      transferring (Transfer.budgeted act) := by
  funext s
  cases hact : act s.store.budget with
  | ok a b =>
      have htransfer : Transfer.budgeted act s.transfer = .ok a { s.transfer with budget := b } :=
        Transfer.budgeted_ok hact
      exact (focus_ok (focus_ok hact)).trans (transferring_ok htransfer).symm
  | error e b =>
      have htransfer : Transfer.budgeted act s.transfer =
          .error e { s.transfer with budget := b } :=
        Transfer.budgeted_error hact
      exact (focus_error (focus_error hact)).trans (transferring_error htransfer).symm

/-- What is charged while the writer of a list is held is charged as without it, and the writer is
as before. -/
theorem stored_withWriter {h : Holding t i} (hfind : s.store.find? id = some h)
    (act : Action Budget α) :
    stored (Store.withWriter id (Store.budgeted act)) s =
      transferring (Transfer.budgeted act) s := by
  rw [← stored_budgeted]
  unfold stored focus
  rw [Store.withWriter_budgeted hfind]

/-- A list that is saved is written as it is. -/
theorem writeList_eq {h : Holding t i} (hfind : s.store.find? id = some h) (store : ListSpec)
    (length : Option UInt32) :
    writeList id store length s = transferring (h.list.writeRecord store length) s := by
  have hheld : (stored (Store.holding id) : Action (Saving t i) (Holding t i)) s = .ok h s :=
    focus_ok (Store.holding_ok hfind)
  rw [writeList, bind_ok hheld, InvertedList.writeRecord, transferring_bind, transferring_ensure]
  -- the check of the widths changes nothing, so the list is still there behind it
  refine bind_congr fun _ s' hcheck => ?_
  obtain ⟨-, rfl⟩ := ensure_eq_ok.mp hcheck
  rw [transferring_bind]
  simp only [bind, EStateM.bind, stored_withWriter hfind]

/-- There is nothing to save under a name that is not in the store. -/
theorem writeList_none (hfind : s.store.find? id = none) (store : ListSpec)
    (length : Option UInt32) :
    writeList id store length s = .error (.fault .unknownList) s := by
  have hheld : (stored (Store.holding id) : Action (Saving t i) (Holding t i)) s =
      .error (.fault .unknownList) s :=
    focus_error (Store.holding_error hfind)
  exact bind_error hheld

/-- A transfer does nothing to the lists. -/
theorem lists_transferring {act : Action (Transfer Sink) α} {s' : Saving t i} {a : α}
    (hrun : transferring act s = .ok a s') : s'.store.lists = s.store.lists := by
  obtain ⟨tr, -, rfl⟩ := focus_eq_ok.mp hrun
  rfl

/-- A transfer that leaves the budget as it was leaves the store as it was. -/
theorem store_transferring {act : Action (Transfer Sink) α}
    (hbudget : (final act s.transfer).budget = s.store.budget) :
    (final (transferring act) s).store = s.store := by
  have hfinal : final (transferring act) s = s.transferred (final act s.transfer) := by
    cases hact : act s.transfer with
    | ok a tr => rw [final_ok (transferring_ok hact), final_ok hact]
    | error e tr => rw [final_error (transferring_error hact), final_error hact]
  rw [hfinal, transferred, hbudget]

/-- The store is as before when a list has been saved, or has not. -/
theorem store_writeList {h : Holding t i} (hfind : s.store.find? id = some h)
    (hwell : h.list.WellFormed) (store : ListSpec) (length : Option UInt32) :
    (final (writeList id store length) s).store = s.store := by
  rw [final, writeList_eq hfind]
  exact store_transferring (InvertedList.budget_writeRecord hwell store length s.transfer)

end InvertedFile.Saving
