import InvertedFile.Proofs.Store.Places

/-!
# The writer of a list, held for an action

A list is copied, stored and appended to with its writer held. Nobody else gets
the writer then, and the action sees nothing of it: it does not look at the
mark that the writer is out, so it does under the hold what it does without it.
When it is over, by a failure or otherwise, the mark is what it was.

The proof is about the mark alone. An action that is indifferent to it may
have it set before or after, so that setting it, acting and clearing it is
acting and clearing it, which is clearing it and acting; and where the writer
was free there was nothing to clear.

## Main results

* `withWriter_free`, `takeWriter_out` — while the action runs the writer is
  out and nobody else gets it, and then it is put back.
* `Indifferent.withWriter` — the hold leaves no trace.
* `withWriter_budgeted`, `withWriter_onList` — what is done with a list while
  its writer is held.
-/

namespace InvertedFile.Store

open InvertedFile.Action

variable {t : ElementType} {i : IdType} {α : Type} {s : Store t i} {id : ListId} {h : Holding t i}

/-! ## The mark -/

/-- The mark that the writer of a list is out, set or cleared. -/
def mark (id : ListId) (out : Bool) (s : Store t i) : Store t i :=
  match s.find? id with
  | none => s
  | some h => s.update id (some { h with writing := out })

theorem putWriter_eq_mark : putWriter id = (mark id false : Store t i → Store t i) :=
  rfl

theorem mark_of_find? (hfind : s.find? id = some h) (out : Bool) :
    s.mark id out = s.update id (some { h with writing := out }) := by
  rw [mark, hfind]

theorem mark_of_none (hfind : s.find? id = none) (out : Bool) : s.mark id out = s := by
  rw [mark, hfind]

theorem find?_mark (hfind : s.find? id = some h) (out : Bool) :
    (s.mark id out).find? id = some { h with writing := out } := by
  rw [mark_of_find? hfind, find?_update_self s _ hfind]

/-- The last one to set the mark has set it. -/
theorem mark_mark (s : Store t i) (id : ListId) (out out' : Bool) :
    (s.mark id out).mark id out' = s.mark id out' := by
  cases hfind : s.find? id with
  | none => rw [mark_of_none hfind]
  | some h =>
      rw [mark_of_find? (find?_mark hfind out), mark_of_find? hfind, mark_of_find? hfind,
        update_update]

theorem mark_self (hfind : s.find? id = some h) : s.mark id h.writing = s := by
  rw [mark_of_find? hfind, update_self hfind]

/-! ## Taking the writer and putting it back -/

theorem takeWriter_free (hfind : s.find? id = some h) (hfree : h.writing = false) :
    takeWriter id s = .ok true (s.mark id true) := by
  rw [takeWriter, bind_ok (holding_ok hfind), hfree, mark_of_find? hfind]
  rfl

/-- Nobody gets a writer that is out. -/
theorem takeWriter_out (hfind : s.find? id = some h) (hout : h.writing = true) :
    takeWriter id s = .ok false s := by
  rw [takeWriter, bind_ok (holding_ok hfind), hout]
  rfl

theorem takeWriter_none (hfind : s.find? id = none) :
    takeWriter id s = .error (.fault .unknownList) s :=
  bind_error (holding_error hfind)

/-- A writer that is free is given out. -/
theorem takeWriter_of_writerIsFree (hfree : s.writerIsFree id = true) :
    ∃ s', takeWriter id s = .ok true s' := by
  rw [writerIsFree] at hfree
  cases hfind : s.find? id with
  | none =>
      rw [hfind] at hfree
      cases hfree
  | some h =>
      rw [hfind, Bool.not_eq_true'] at hfree
      exact ⟨_, takeWriter_free hfind hfree⟩

/-- An action runs with the writer out, and the writer is put back in any case. -/
theorem withWriter_free (hfind : s.find? id = some h) (hfree : h.writing = false)
    (act : Action (Store t i) α) :
    withWriter id act s = closing (putWriter id) act (s.mark id true) := by
  rw [withWriter, bind_ok (takeWriter_free hfind hfree), if_pos rfl]

/-- A writer that somebody else has is not put back for them. -/
theorem withWriter_out (hfind : s.find? id = some h) (hout : h.writing = true)
    (act : Action (Store t i) α) : withWriter id act s = act s := by
  rw [withWriter, bind_ok (takeWriter_out hfind hout), if_neg Bool.false_ne_true]

/-! ## What is done under the hold -/

/-- An action does not look at the mark of a list and does not touch it, so that the mark may be set
before or after. -/
def Indifferent (id : ListId) (act : Action (Store t i) α) : Prop :=
  ∀ (out : Bool) (s : Store t i), act (s.mark id out) = closing (mark id out) act s

/-- The hold leaves no trace. -/
theorem Indifferent.withWriter {act : Action (Store t i) α} (hact : Indifferent id act)
    (hfind : s.find? id = some h) : withWriter id act s = act s := by
  cases hwriting : h.writing with
  | true => exact withWriter_out hfind hwriting act
  | false =>
      have hclear : ∀ s' : Store t i, (s'.mark id true).mark id false = s'.mark id false :=
        fun s' => mark_mark s' id true false
      calc
        Store.withWriter id act s = closing (mark id false) act (s.mark id true) := by
          rw [withWriter_free hfind hwriting, putWriter_eq_mark]
        _ = closing (mark id false) act s := by
          rw [closing, hact true s, closing, closing]
          cases act s with
          | ok a s' => simp only [hclear]
          | error e s' => simp only [hclear]
        _ = act (s.mark id false) := (hact false s).symm
        _ = act s := by rw [← hwriting, mark_self hfind]

/-- What is done with the budget has nothing to do with the lists. -/
theorem indifferent_budgeted (id : ListId) (act : Action Budget α) :
    Indifferent id (budgeted act : Action (Store t i) α) := by
  intro out s
  have hbudget : (s.mark id out).budget = s.budget := by
    unfold mark
    split <;> rfl
  have hmark : ∀ b : Budget, { s.mark id out with budget := b } =
      ({ s with budget := b } : Store t i).mark id out := by
    intro b
    cases hfind : s.find? id with
    | none => rw [mark_of_none hfind, mark_of_none (s := { s with budget := b }) hfind]
    | some h =>
        rw [mark_of_find? hfind, mark_of_find? (s := { s with budget := b }) hfind]
        rfl
  symm
  cases hact : act s.budget with
  | ok a b =>
      rw [budgeted, focus_ok (hbudget.symm ▸ hact), hmark]
      exact closing_ok.mpr ⟨_, focus_ok hact, rfl⟩
  | error e b =>
      rw [budgeted, focus_error (hbudget.symm ▸ hact), hmark]
      exact closing_error.mpr ⟨_, focus_error hact, rfl⟩

/-- What is done with a list leaves its holders and its writer alone. -/
theorem indifferent_onList (id : ListId) (act : Action (InvertedList t i) α) :
    Indifferent id (onList id act) := by
  intro out s
  symm
  cases hfind : s.find? id with
  | none =>
      rw [mark_of_none hfind, onList_none act hfind]
      exact closing_error.mpr ⟨s, onList_none act hfind, mark_of_none hfind out⟩
  | some h =>
      have hmarked := find?_mark hfind out
      have hupdated : ∀ list, (s.update id (some { h with list })).mark id out =
          (s.mark id out).update id (some { h with writing := out, list }) := by
        intro list
        rw [mark_of_find? (find?_update_self s _ hfind), mark_of_find? hfind, update_update,
          update_update]
      cases hact : act h.list with
      | ok a list =>
          rw [onList_ok hmarked hact]
          exact closing_ok.mpr ⟨_, onList_ok hfind hact, hupdated list⟩
      | error e list =>
          rw [onList_error hmarked hact]
          exact closing_error.mpr ⟨_, onList_error hfind hact, hupdated list⟩

/-- Buffers for the copying of a list. -/
theorem withWriter_budgeted (hfind : s.find? id = some h) (act : Action Budget α) :
    withWriter id (budgeted act) s = budgeted act s :=
  (indifferent_budgeted id act).withWriter hfind

/-- What is written to a list. -/
theorem withWriter_onList (id : ListId) (act : Action (InvertedList t i) α) :
    withWriter id (onList id act) = onList id act := by
  funext s
  cases hfind : s.find? id with
  | none =>
      rw [withWriter, bind_error (takeWriter_none hfind), onList, hfind]
  | some h => exact (indifferent_onList id act).withWriter hfind

end InvertedFile.Store
