import InvertedFile.Proofs.Index.Agreement
import InvertedFile.Proofs.Index.Saving

/-!
# Writing over two budgets

A transfer is a stream and a budget. Two transfers with the same stream differ
in what else is charged to their budgets, and as long as neither budget refuses
for that, what is carried out on the one is carried out on the other: it gives
the same, fails with the same error, and does the same to the stream.

A law of this kind is kept by everything a transfer is made of. So it is a law
of writing an index, and nothing has to be known of the index for it.

## Main results

* `Steady.bind`, `Steady.reserving`, `Steady.forM` — what keeps step.
* `steady_write` — writing an index keeps step.
-/

namespace InvertedFile

open InvertedFile.Action

variable {σ α β : Type} {excused : Option Error → Prop}

/-- Two transfers have the same stream, over budgets of which the refusals for the bytes in use are
excused. -/
structure Abreast (excused : Option Error → Prop) (s s' : Transfer σ) : Prop where
  stream_eq : s'.stream = s.stream
  left : Excuses excused s.budget.limit
  right : Excuses excused s'.budget.limit

/-- Two runs have come to the same, with the same stream, unless the failure of one is excused. -/
inductive InStep (excused : Option Error → Prop) :
    EStateM.Result Error (Transfer σ) α → EStateM.Result Error (Transfer σ) α → Prop where
  | ok (a : α) {s s' : Transfer σ} (h : Abreast excused s s') :
      InStep excused (.ok a s) (.ok a s')
  | error (e : Error) {s s' : Transfer σ} (h : s'.stream = s.stream) :
      InStep excused (.error e s) (.error e s')
  | left {e : Error} {s : Transfer σ} (h : excused (some e))
      (r : EStateM.Result Error (Transfer σ) α) : InStep excused (.error e s) r
  | right {e : Error} {s : Transfer σ} (h : excused (some e))
      (r : EStateM.Result Error (Transfer σ) α) : InStep excused r (.error e s)

/-- An action keeps step over any two budgets. -/
def Steady (excused : Option Error → Prop) (act : Action (Transfer σ) α) : Prop :=
  ∀ s s' : Transfer σ, Abreast excused s s' → InStep excused (act s) (act s')

theorem steady_pure (a : α) : Steady excused (pure a : Action (Transfer σ) α) :=
  fun _ _ h => .ok a h

theorem steady_throw (e : Error) : Steady excused (throw e : Action (Transfer σ) α) :=
  fun _ _ h => .error e h.stream_eq

theorem steady_ofExcept (x : Except Error α) :
    Steady excused (Action.ofExcept x : Action (Transfer σ) α) := by
  cases x with
  | ok a => exact steady_pure a
  | error e => exact steady_throw e

theorem steady_ensure (p : Prop) [Decidable p] (e : Error) :
    Steady excused (ensure p e : Action (Transfer σ) Unit) := by
  by_cases h : p
  · rw [ensure_pos h]
    exact steady_pure ()
  · rw [ensure_neg h]
    exact steady_throw e

/-- What is done to the stream alone. -/
theorem steady_streamed (act : Action σ α) :
    Steady excused (Transfer.streamed act : Action (Transfer σ) α) := by
  intro s s' h
  cases hrun : act s.stream with
  | ok a stream =>
      have hrun' : act s'.stream = .ok a stream := h.stream_eq ▸ hrun
      rw [Transfer.streamed_ok hrun, Transfer.streamed_ok hrun']
      exact .ok a ⟨rfl, h.left, h.right⟩
  | error e stream =>
      have hrun' : act s'.stream = .error e stream := h.stream_eq ▸ hrun
      rw [Transfer.streamed_error hrun, Transfer.streamed_error hrun']
      exact .error e rfl

theorem Steady.bind {act : Action (Transfer σ) α} {f : α → Action (Transfer σ) β}
    (hact : Steady excused act) (hf : ∀ a, Steady excused (f a)) :
    Steady excused (act >>= f) := by
  intro s s' h
  have hstep := hact s s' h
  generalize hrun : act s = r at hstep
  generalize hrun' : act s' = r' at hstep
  cases hstep with
  | ok a h₁ =>
      rw [bind_ok hrun, bind_ok hrun']
      exact hf a _ _ h₁
  | error e hstream =>
      rw [bind_error hrun, bind_error hrun']
      exact .error e hstream
  | left he =>
      rw [bind_error hrun]
      exact .left he _
  | right he =>
      rw [bind_error hrun']
      exact .right he _

theorem Steady.forM {f : β → Action (Transfer σ) Unit} {xs : List β}
    (hf : ∀ x ∈ xs, Steady excused (f x)) : Steady excused (xs.forM f) := by
  induction xs with
  | nil => exact steady_pure ()
  | cons x rest ih =>
      exact (hf x (List.mem_cons_self ..)).bind fun _ =>
        ih fun y hy => hf y (List.mem_cons_of_mem x hy)

/-! ## Buffers for the time of an action -/

/-- A buffer is given out by both budgets or refused by both for the same reason, unless one of them
refuses it for the bytes in use. -/
theorem steady_allocate (count width : Nat) :
    Steady excused (Transfer.budgeted (Budget.allocate count width) :
      Action (Transfer σ) Nat) := by
  intro s s' h
  have hagree := Budget.allocate_agree h.left h.right count width
  cases hrun : Budget.allocate count width s.budget with
  | error e b =>
      rw [failure?_of_error hrun] at hagree
      rw [Transfer.budgeted, focus_error hrun]
      rcases hagree with hsame | he | he
      · obtain ⟨b', hrun'⟩ : ∃ b', Budget.allocate count width s'.budget = .error e b' :=
          ⟨_, eq_error_of_failure? hsame.symm⟩
        rw [focus_error hrun']
        exact .error e h.stream_eq
      · exact .left he _
      · obtain ⟨e', he'⟩ : ∃ e', failure? (Budget.allocate count width) s'.budget = some e' :=
          Option.ne_none_iff_exists'.mp fun hnone => h.left.not_none (hnone ▸ he)
        rw [focus_error (eq_error_of_failure? he')]
        exact .right (he' ▸ he) _
  | ok bytes b =>
      rw [failure?_of_ok hrun] at hagree
      rw [Transfer.budgeted, focus_ok hrun]
      obtain ⟨rfl, rfl⟩ := Budget.allocate_eq_ok hrun
      cases hrun' : Budget.allocate count width s'.budget with
      | ok bytes' b' =>
          rw [focus_ok hrun']
          obtain ⟨rfl, rfl⟩ := Budget.allocate_eq_ok hrun'
          exact .ok _ ⟨h.stream_eq, h.left, h.right⟩
      | error e' b' =>
          rw [failure?_of_error hrun'] at hagree
          rw [focus_error hrun']
          rcases hagree with hsame | he | he
          · cases hsame
          · exact absurd he h.left.not_none
          · exact .right he _

/-- What is given back at the end changes no limit. -/
theorem Steady.closing {act : Action (Transfer σ) α} (hact : Steady excused act) (bytes : Nat) :
    Steady excused (Action.closing (fun s => { s with budget := s.budget.release bytes }) act) := by
  intro s s' h
  have hstep := hact s s' h
  generalize hrun : act s = r at hstep
  generalize hrun' : act s' = r' at hstep
  unfold Action.closing
  rw [hrun, hrun']
  cases hstep with
  | ok a h₁ => exact .ok a ⟨h₁.stream_eq, h₁.left, h₁.right⟩
  | error e hstream => exact .error e hstream
  | left he => exact .left he _
  | right he => exact .right he _

/-- What is given back after a failure changes no limit. -/
theorem Steady.undoing {act : Action (Transfer σ) α} (hact : Steady excused act) (bytes : Nat) :
    Steady excused (Action.undoing (fun s => { s with budget := s.budget.release bytes }) act) := by
  intro s s' h
  have hstep := hact s s' h
  generalize hrun : act s = r at hstep
  generalize hrun' : act s' = r' at hstep
  unfold Action.undoing
  rw [hrun, hrun']
  cases hstep with
  | ok a h₁ => exact .ok a h₁
  | error e hstream => exact .error e hstream
  | left he => exact .left he _
  | right he => exact .right he _

theorem Steady.reserving {count width : Nat} {f : Nat → Action (Transfer σ) α}
    (hf : ∀ bytes, Steady excused (f bytes)) :
    Steady excused (Transfer.reserving count width f) :=
  (steady_allocate count width).bind fun bytes => (hf bytes).closing bytes

/-! ## Lists and indexes -/

variable {t : ElementType} {i : IdType}

/-- Copying out of a list keeps step: it is two buffers, one after the other, each of which is given
back when what follows fails. -/
theorem InvertedList.steady_gather (l : InvertedList t i) (length : Nat) :
    Steady excused (Transfer.budgeted (l.gather length) :
      Action (Transfer σ) (Draft t i)) := by
  have hpart := Transfer.isPart_budget (σ := σ)
  unfold gather Transfer.budgeted
  split
  · rw [hpart.focus_pure]
    exact steady_pure _
  · simp only [hpart.focus_bind, hpart.focus_undoing, hpart.focus_ofExcept, hpart.focus_pure]
    refine (steady_allocate _ _).bind fun idBytes => Steady.undoing ?_ idBytes
    refine (steady_ofExcept _).bind fun ids => ?_
    refine (steady_allocate _ _).bind fun flatBytes => Steady.undoing ?_ flatBytes
    exact (steady_ofExcept _).bind fun flat => steady_pure _

/-- Writing what has been copied keeps step. -/
theorem InvertedList.Draft.steady_write (d : Draft t i) (store : Layout) :
    Steady excused (d.write store) := by
  refine Steady.closing ?_ d.bytes
  split
  · exact steady_streamed _
  · exact Steady.reserving fun _ => (steady_ofExcept _).bind fun words => steady_streamed _

/-- Writing a list keeps step. -/
theorem InvertedList.steady_writeRecord (l : InvertedList t i) (store : ListSpec)
    (length : Option UInt32) : Steady excused (l.writeRecord store length) :=
  (steady_ensure _ _).bind fun _ => (l.steady_gather _).bind fun d => d.steady_write _

/-- Writing an index keeps step. -/
theorem Index.steady_write (x : Index) (s : Store t i) : Steady excused (x.write s) := by
  refine (steady_streamed _).bind fun _ => Steady.forM fun label _ => ?_
  refine (steady_ofExcept _).bind fun id => ?_
  cases s.list? id with
  | none => exact steady_throw _
  | some l => exact l.steady_writeRecord _ _

end InvertedFile
