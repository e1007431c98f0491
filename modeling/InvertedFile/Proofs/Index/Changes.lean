import InvertedFile.Proofs.Index.Agreement

/-!
# Changes to an index

The life of an index after it has been made or loaded is a sequence of
extensions and resets, each from where the one before it ended. Of each it is
told whether it failed, and why. A failed extension changes nothing, and the
life goes on.

Two indexes that look alike cannot be told apart by any such sequence. The
names their lists are given differ, and the bytes in use in their stores do;
so what can part them is a budget that refuses for the bytes in use. Without a
limit the one thing that can part them is a count of bytes that runs over.

## Main results

* `sound_change` — an index stays in order through every change.
* `Alike.changes` — indexes that look alike have the same life.
-/

namespace InvertedFile

open InvertedFile.Action

variable {t : ElementType} {i : IdType}

/-- A change to an index. -/
inductive Change (t : ElementType) (i : IdType) where
  | extend (assigner : Assigner t) (vectors : Array (Word t)) (ids : Option (Array (Id i)))
  | reset

/-- A change, carried out. -/
def Change.action : Change t i → Action (OpenIndex t i) Unit
  | .extend assigner vectors ids => Index.extend assigner vectors ids
  | .reset => Index.reset

namespace OpenIndex

/-- What comes of changes, each from where the one before it ended: how each failed, if it did, and
the index at the end. -/
def changes : List (Change t i) → OpenIndex t i → List (Option Error) × OpenIndex t i
  | [], y => ([], y)
  | c :: rest, y =>
      let (more, z) := changes rest (final c.action y)
      (failure? c.action y :: more, z)

theorem changes_cons (c : Change t i) (rest : List (Change t i)) (y : OpenIndex t i) :
    changes (c :: rest) y =
      (failure? c.action y :: (changes rest (final c.action y)).1,
        (changes rest (final c.action y)).2) := rfl

variable {y y' : OpenIndex t i} {refs refs' : List ListId}

/-- An index stays in order through every change, and the limit of its budget stays. -/
theorem sound_change (hy : y.Sound refs) (c : Change t i) :
    (final c.action y).Sound refs ∧
      (final c.action y).store.budget.limit = y.store.budget.limit := by
  obtain ⟨x, s⟩ := y
  cases c with
  | extend assigner vectors ids =>
      rcases Index.extend_cases hy.index hy.accounts assigner vectors ids with
        ⟨e, s', hrun, hsame, -⟩ | ⟨_, _, x', s', hrun, -, hextended, hx', hacc', -⟩
      · rw [Change.action, final_error hrun]
        exact ⟨hy.same hsame, congrArg Budget.limit hsame.budget_eq⟩
      · rw [Change.action, final_ok hrun]
        exact ⟨⟨hx', hacc'⟩, hextended.limit_eq⟩
  | reset =>
      obtain ⟨x', s', hrun, hx', hreset⟩ := Index.reset_ok hy.index hy.accounts
      rw [Change.action, final_ok hrun]
      exact ⟨⟨hx', hreset.accounts⟩, hreset.limit_eq⟩

/-- Indexes that look alike take a change in the same way, unless what comes of it is excused. -/
theorem Alike.change {excused : Option Error → Prop} (h : y.Alike y') (hy : y.Sound refs)
    (hy' : y'.Sound refs') (hlimit : Excuses excused y.store.budget.limit)
    (hlimit' : Excuses excused y'.store.budget.limit) (c : Change t i)
    (hcount : ¬ excused (failure? c.action y)) (hcount' : ¬ excused (failure? c.action y')) :
    failure? c.action y' = failure? c.action y ∧
      (final c.action y).Alike (final c.action y') := by
  cases c with
  | extend assigner vectors ids =>
      have hjoint := h.extend_joint hy hy' hlimit hlimit' assigner vectors ids
      unfold Change.action at hcount hcount' ⊢
      generalize hrun : Index.extend assigner vectors ids y = r at hjoint
      generalize hrun' : Index.extend assigner vectors ids y' = r' at hjoint
      cases hjoint with
      | taken halike =>
          rw [failure?_of_ok hrun, failure?_of_ok hrun', final_ok hrun, final_ok hrun']
          exact ⟨rfl, halike⟩
      | refused halike hagree =>
          rw [failure?_of_error hrun] at hcount
          rw [failure?_of_error hrun'] at hcount'
          rw [failure?_of_error hrun, failure?_of_error hrun', final_error hrun,
            final_error hrun']
          rcases hagree with hsame | hexcused | hexcused
          · exact ⟨hsame.symm, halike⟩
          · exact absurd hexcused hcount
          · exact absurd hexcused hcount'
      | left hexcused => exact absurd (failure?_of_error hrun ▸ hexcused) hcount
      | right hexcused => exact absurd (failure?_of_error hrun' ▸ hexcused) hcount'
  | reset =>
      obtain ⟨x₁, s₁, hrun, -, hreset⟩ := Index.reset_ok hy.index hy.accounts
      obtain ⟨x₁', s₁', hrun', -, hreset'⟩ := Index.reset_ok hy'.index hy'.accounts
      rw [Change.action, failure?_of_ok hrun, failure?_of_ok hrun', final_ok hrun,
        final_ok hrun']
      exact ⟨rfl, h.reset hy hy' hreset hreset'⟩

/-- Indexes that look alike have the same life, as long as the bytes can be counted. -/
theorem Alike.changes (h : y.Alike y') (hy : y.Sound refs) (hy' : y'.Sound refs')
    (hlimit : y.store.budget.limit = none) (hlimit' : y'.store.budget.limit = none)
    (cs : List (Change t i)) (hcount : ∀ o ∈ (y.changes cs).1, ¬ Overflowed o)
    (hcount' : ∀ o ∈ (y'.changes cs).1, ¬ Overflowed o) :
    (y'.changes cs).1 = (y.changes cs).1 ∧ (y.changes cs).2.Alike (y'.changes cs).2 := by
  induction cs generalizing y y' with
  | nil => exact ⟨rfl, h⟩
  | cons c rest ih =>
      rw [changes_cons, List.forall_mem_cons] at hcount hcount'
      obtain ⟨hsame, halike⟩ := h.change hy hy' (hlimit ▸ excuses_overflowed)
        (hlimit' ▸ excuses_overflowed) c hcount.1 hcount'.1
      obtain ⟨hz, hzlimit⟩ := sound_change hy c
      obtain ⟨hz', hzlimit'⟩ := sound_change hy' c
      obtain ⟨hrest, hend⟩ := ih halike hz hz' (hzlimit.trans hlimit) (hzlimit'.trans hlimit')
        hcount.2 hcount'.2
      rw [changes_cons, changes_cons, hsame, hrest]
      exact ⟨rfl, hend⟩

end OpenIndex

end InvertedFile
