import InvertedFile.Proofs.Index.Changes
import InvertedFile.Proofs.Index.Lockstep
import InvertedFile.Proofs.Workspace.Answers
import InvertedFile.Proofs.Workspace.IndexSteps

/-!
# What an index is used for

An index is extended and reset, it is asked for what it holds, and it is saved.
Two names, of one workspace or of two, that stand for indexes that look alike
cannot be told apart by any sequence of such uses: the replies are the same,
one by one.

What the names cannot be asked to agree on is what else is in use. A budget may
refuse in one workspace what the other one takes, and then the replies are
those of the two budgets. A question or an image that is refused changes
nothing, so the uses after it are answered alike again; and so they are after
an extension that is refused in both. After an extension that is refused in one
of the workspaces alone the indexes are different, and nothing is said of what
comes then.

## Main results

* `Matched.concurs` — indexes that look alike reply alike to one use.
* `Matched.serve` — and to any sequence of uses.
-/

namespace InvertedFile.Workspace

open InvertedFile.Action

variable {t : ElementType} {i : IdType}

/-- Something that an index is used for. -/
inductive Use (t : ElementType) (i : IdType) where
  | extend (vectors : Array (Word t)) (ids : Option (Array (Id i))) (assigner : Assigner t)
  | reset
  | query (q : IndexQuery)
  | save (room : Option Nat) (blob : Option String)

/-- The step that a use is for the index of a name. -/
def Use.step (name : String) : Use t i → Step t i
  | .extend vectors ids assigner => .extend name vectors ids assigner
  | .reset => .reset name
  | .query q => .queryIndex name q
  | .save room blob => .saveIndex name room blob

/-- What a step is answered, or why it failed. -/
abbrev Reply (t : ElementType) (i : IdType) : Type :=
  Except Failure (Answer t i)

/-- The reply of an operation. -/
def reply (act : Run t i (Answer t i)) (w : Workspace t i) : Reply t i :=
  match act w with
  | .ok a _ => .ok a
  | .error f _ => .error f

/-- The replies to the uses of the index of a name, each from where the one before it ended. -/
def serve (name : String) : List (Use t i) → Workspace t i → List (Reply t i)
  | [], _ => []
  | u :: rest, w =>
      reply (performStep (u.step name)) w ::
        serve name rest (final (performStep (u.step name)) w)

namespace Reply

/-- A budget has refused. -/
def OverBudget (r : Reply t i) : Prop :=
  ∃ e remains, r = .error (.error e remains) ∧ e.IsBudgetRefusal

/-- Two replies are the same, unless a budget has refused in one of them. -/
def Agrees (r r' : Reply t i) : Prop :=
  r = r' ∨ r.OverBudget ∨ r'.OverBudget

end Reply

/-- An extension was refused in one of two runs alone. -/
def Use.Parts : Use t i → Reply t i → Reply t i → Prop
  | .extend .., r, r' => r.isOk ≠ r'.isOk
  | _, _, _ => False

/-- The replies of two runs to a sequence of uses agree one by one, until the runs part. -/
def Alongside : List (Use t i) → List (Reply t i) → List (Reply t i) → Prop
  | [], [], [] => True
  | u :: us, r :: rs, r' :: rs' => r.Agrees r' ∧ (u.Parts r r' ∨ Alongside us rs rs')
  | _, _, _ => False

variable {w w' : Workspace t i} {name name' : String}

theorem reply_of_ok {act : Run t i (Answer t i)} {a : Answer t i} (h : act w = .ok a w') :
    reply act w = .ok a := by
  rw [reply, h]

theorem reply_of_error {act : Run t i (Answer t i)} {f : Failure} (h : act w = .error f w') :
    reply act w = .error f := by
  rw [reply, h]

/-- A failure for the bytes in use is told as one. -/
theorem overBudget_leaving {e : Error} (h : BudgetRefused (some e)) (remains : Remains) :
    Reply.OverBudget (.error (.leaving e remains) : Reply t i) := by
  obtain ⟨_, heq, hrefusal⟩ := h
  cases heq
  refine ⟨e, remains, ?_, hrefusal⟩
  obtain ⟨bytes, rfl | ⟨inUse, limit, rfl⟩⟩ := hrefusal <;> rfl

/-- Failures that agree, and leave the same to see, are told alike. -/
theorem agrees_leaving {e e' : Error} (h : Agree BudgetRefused (some e) (some e'))
    (remains : Remains) :
    Reply.Agrees (.error (.leaving e remains) : Reply t i) (.error (.leaving e' remains)) := by
  rcases h with hsame | hrefused | hrefused
  · cases hsame
    exact Or.inl rfl
  · exact Or.inr (Or.inl (overBudget_leaving hrefused remains))
  · exact Or.inr (Or.inr (overBudget_leaving hrefused remains))

/-- What is told of an index changes nothing. -/
theorem answered_eq {act : Run t i (Answer t i)} {c : Except Error (Answer t i)}
    (h : act w = (check c : Run t i (Answer t i)) w) :
    reply act w = c.mapError (Failure.error · .nothing) ∧ final act w = w := by
  cases c with
  | ok a => exact ⟨reply_of_ok h, final_ok h⟩
  | error e => exact ⟨reply_of_error h, final_error h⟩

/-- Runs that part were given different replies. -/
theorem Use.Parts.ne {u : Use t i} {r r' : Reply t i} (h : u.Parts r r') : r ≠ r' := by
  rintro rfl
  cases u with
  | extend => exact h rfl
  | _ => exact h

/-- Where no budget has refused, replies that agree are the same. -/
theorem Alongside.eq {us : List (Use t i)} {rs rs' : List (Reply t i)} (h : Alongside us rs rs')
    (hrs : ∀ r ∈ rs, ¬ r.OverBudget) (hrs' : ∀ r ∈ rs', ¬ r.OverBudget) : rs' = rs := by
  fun_induction Alongside us rs rs' with
  | case1 => rfl
  | case2 u us r rs r' rs' ih =>
      rw [List.forall_mem_cons] at hrs hrs'
      obtain ⟨hagrees, hrest⟩ := h
      have hsame : r = r' := by
        rcases hagrees with hsame | hover | hover
        · exact hsame
        · exact absurd hover hrs.1
        · exact absurd hover hrs'.1
      rcases hrest with hparts | hrest
      · exact absurd hsame hparts.ne
      · rw [hsame, ih hrest hrs.2 hrs'.2]
  | case3 => exact h.elim

/-! ## One use -/

/-- Two names stand for indexes that look alike, each in a workspace that is in order. -/
structure Matched (w : Workspace t i) (name : String) (w' : Workspace t i) (name' : String) :
    Prop where
  left : ∃ held, w.Sound held 0
  right : ∃ held, w'.Sound held 0
  alike : ∃ x x', w.indexes.find? name = some x ∧ w'.indexes.find? name' = some x' ∧
    OpenIndex.Alike { index := x, store := w.store } { index := x', store := w'.store }

/-- The replies to a use agree, and unless the runs part the indexes look alike after it. -/
def Use.Concurs (u : Use t i) (w : Workspace t i) (name : String) (w' : Workspace t i)
    (name' : String) : Prop :=
  (reply (performStep (u.step name)) w).Agrees (reply (performStep (u.step name')) w') ∧
    (u.Parts (reply (performStep (u.step name)) w) (reply (performStep (u.step name')) w') ∨
      Matched (final (performStep (u.step name)) w) name
        (final (performStep (u.step name')) w') name')

namespace Matched

/-- Both indexes are in order. -/
theorem opened (h : Matched w name w' name') : ∃ x x' refs refs',
    w.indexes.find? name = some x ∧ w'.indexes.find? name' = some x' ∧
      OpenIndex.Sound { index := x, store := w.store } refs ∧
      OpenIndex.Sound { index := x', store := w'.store } refs' ∧
      OpenIndex.Alike { index := x, store := w.store } { index := x', store := w'.store } := by
  obtain ⟨held, hw⟩ := h.left
  obtain ⟨held', hw'⟩ := h.right
  obtain ⟨x, x', hname, hname', halike⟩ := h.alike
  exact ⟨x, x', _, _, hname, hname', hw.opened hname, hw'.opened hname', halike⟩

/-- Workspaces stay in order. -/
theorem after (h : Matched w name w' name') (s s' : Step t i)
    (halike : ∃ x x', (final (performStep s) w).indexes.find? name = some x ∧
      (final (performStep s') w').indexes.find? name' = some x' ∧
      OpenIndex.Alike { index := x, store := (final (performStep s) w).store }
        { index := x', store := (final (performStep s') w').store }) :
    Matched (final (performStep s) w) name (final (performStep s') w') name' where
  left := by
    obtain ⟨held, hw⟩ := h.left
    exact ⟨held, (leads_performStep hw s).final.sound⟩
  right := by
    obtain ⟨held, hw'⟩ := h.right
    exact ⟨held, (leads_performStep hw' s').final.sound⟩
  alike := halike

theorem concurs_extend (h : Matched w name w' name') (vectors : Array (Word t))
    (ids : Option (Array (Id i))) (assigner : Assigner t) :
    (Use.extend vectors ids assigner).Concurs w name w' name' := by
  obtain ⟨x, x', refs, refs', hname, hname', hx, hx', halike⟩ := h.opened
  have hafter := h.after (.extend name vectors ids assigner) (.extend name' vectors ids assigner)
  have hjoint := halike.extend_joint hx hx' (excuses_budgetRefused _) (excuses_budgetRefused _)
    assigner vectors ids
  have hy : OpenIndex.Sound (final (Index.extend assigner vectors ids) _) _ :=
    (OpenIndex.sound_change hx (.extend assigner vectors ids)).1
  have hy' : OpenIndex.Sound (final (Index.extend assigner vectors ids) _) _ :=
    (OpenIndex.sound_change hx' (.extend assigner vectors ids)).1
  unfold Use.Concurs Use.step
  generalize hrun : Index.extend assigner vectors ids { index := x, store := w.store } = r at hjoint
  generalize hrun' : Index.extend assigner vectors ids { index := x', store := w'.store } = r'
    at hjoint
  cases hjoint with
  | taken hlike =>
      rw [final_ok hrun] at hy
      rw [final_ok hrun'] at hy'
      have hstep := extend_ok hname hrun
      have hstep' := extend_ok hname' hrun'
      rw [final_ok hstep, final_ok hstep'] at hafter ⊢
      rw [reply_of_ok hstep, reply_of_ok hstep', hlike.sizes_eq hy hy']
      exact ⟨Or.inl rfl, Or.inr (hafter ⟨_, _, find?_withOpen .., find?_withOpen .., hlike⟩)⟩
  | refused hlike hagree =>
      rw [final_error hrun] at hy
      rw [final_error hrun'] at hy'
      have hstep := extend_error hname hrun
      have hstep' := extend_error hname' hrun'
      rw [final_error hstep, final_error hstep'] at hafter ⊢
      rw [reply_of_error hstep, reply_of_error hstep', hlike.sizes_eq hy hy']
      exact ⟨agrees_leaving hagree _,
        Or.inr (hafter ⟨_, _, find?_withOpen .., find?_withOpen .., hlike⟩)⟩
  | left hrefused =>
      rw [reply_of_error (extend_error hname hrun), reply_of_ok (extend_ok hname' hrun')]
      exact ⟨Or.inr (Or.inl (overBudget_leaving hrefused _)), Or.inl nofun⟩
  | right hrefused =>
      rw [reply_of_ok (extend_ok hname hrun), reply_of_error (extend_error hname' hrun')]
      exact ⟨Or.inr (Or.inr (overBudget_leaving hrefused _)), Or.inl nofun⟩

theorem concurs_reset (h : Matched w name w' name') : Use.reset.Concurs w name w' name' := by
  obtain ⟨x, x', refs, refs', hname, hname', hx, hx', halike⟩ := h.opened
  have hafter := h.after (.reset name) (.reset name')
  obtain ⟨y, s, hrun, hy, hreset⟩ := Index.reset_ok hx.index hx.accounts
  obtain ⟨y', s', hrun', hy', hreset'⟩ := Index.reset_ok hx'.index hx'.accounts
  have hlike := halike.reset hx hx' hreset hreset'
  have hstep := reset_ok hname hrun
  have hstep' := reset_ok hname' hrun'
  have hinfo : (w'.withOpen name' ⟨y', s'⟩).indexInfo y' = (w.withOpen name ⟨y, s⟩).indexInfo y :=
    OpenIndex.Alike.indexInfo_eq hlike ⟨hy, hreset.accounts⟩ ⟨hy', hreset'.accounts⟩
  unfold Use.Concurs Use.step
  rw [final_ok hstep, final_ok hstep'] at hafter ⊢
  rw [reply_of_ok hstep, reply_of_ok hstep', hinfo]
  exact ⟨Or.inl rfl, Or.inr (hafter ⟨y, y', find?_withOpen .., find?_withOpen .., hlike⟩)⟩

theorem concurs_query (h : Matched w name w' name') (q : IndexQuery) :
    (Use.query q).Concurs w name w' name' := by
  obtain ⟨x, x', refs, refs', hname, hname', hx, hx', halike⟩ := h.opened
  obtain ⟨hreply, hfinal⟩ := answered_eq (queryIndex_eq hname q)
  obtain ⟨hreply', hfinal'⟩ := answered_eq (queryIndex_eq hname' q)
  unfold Use.Concurs Use.step
  rw [hreply, hreply', hfinal, hfinal', halike.answer_eq hx hx']
  exact ⟨Or.inl rfl, Or.inr h⟩

theorem concurs_save (h : Matched w name w' name') (room : Option Nat) (blob : Option String) :
    (Use.save room blob).Concurs w name w' name' := by
  obtain ⟨held, hw⟩ := h.left
  obtain ⟨held', hw'⟩ := h.right
  obtain ⟨x, x', hname, hname', halike⟩ := h.alike
  have hstep := saveIndex_step_eq hw hname room blob
  have hstep' := saveIndex_step_eq hw' hname' room blob
  rw [halike.write_eq (hw.opened hname) (hw'.opened hname')] at hstep'
  have hafter : Matched (final (performStep (.saveIndex name room blob)) w) name
      (final (performStep (.saveIndex name' room blob)) w') name' := by
    apply h.after
    obtain ⟨hstore, hindexes⟩ := saveIndex_step_leaves hw hname room blob
    obtain ⟨hstore', hindexes'⟩ := saveIndex_step_leaves hw' hname' room blob
    rw [hstore, hindexes, hstore', hindexes']
    exact ⟨x, x', hname, hname', halike⟩
  have hwrites : InStep BudgetRefused _ _ := x.steady_write w.store
    { budget := w.store.budget, stream := .empty room }
    { budget := w'.store.budget, stream := .empty room }
    ⟨rfl, excuses_budgetRefused _, excuses_budgetRefused _⟩
  refine ⟨?_, Or.inr hafter⟩
  unfold Use.step
  generalize x.write w.store _ = r at hwrites hstep
  generalize x.write w.store _ = r' at hwrites hstep'
  cases hwrites with
  | ok _ hsame =>
      rw [reply_of_ok hstep, reply_of_ok hstep', hsame.stream_eq]
      exact Or.inl rfl
  | error e hsame =>
      rw [reply_of_error hstep, reply_of_error hstep', hsame]
      exact Or.inl rfl
  | left hrefused =>
      rw [reply_of_error hstep]
      exact Or.inr (Or.inl (overBudget_leaving hrefused _))
  | right hrefused =>
      rw [reply_of_error hstep']
      exact Or.inr (Or.inr (overBudget_leaving hrefused _))

/-- Indexes that look alike reply alike to a use. -/
theorem concurs (h : Matched w name w' name') (u : Use t i) : u.Concurs w name w' name' := by
  cases u with
  | extend vectors ids assigner => exact h.concurs_extend vectors ids assigner
  | reset => exact h.concurs_reset
  | query q => exact h.concurs_query q
  | save room blob => exact h.concurs_save room blob

/-- Indexes that look alike reply alike to any uses. -/
theorem serve (h : Matched w name w' name') (us : List (Use t i)) :
    Alongside us (Workspace.serve name us w) (Workspace.serve name' us w') := by
  induction us generalizing w w' with
  | nil => trivial
  | cons u rest ih =>
      obtain ⟨hreply, hrest⟩ := h.concurs u
      exact ⟨hreply, hrest.imp_right ih⟩

end Matched

end InvertedFile.Workspace
