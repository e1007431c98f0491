import InvertedFile.Error

/-!
# Actions

An action changes a state and may fail. A failure keeps the state it happened
in, so that what a failing operation leaves behind is a fact about the action
and can be stated: that nothing has changed, or that some bytes have reached
a sink.

A condition that an action cannot do without is checked by `ensure`. Actions
on a part of a state are carried to the whole by `Action.focus`, and
`Action.forRange` does something for each number of a range, however long,
until it fails. Two brackets tie a temporary change to an action: `Action.undoing` takes it
back when the action fails, `Action.closing` takes it back in any case.

## Main results

* `Action.bind_eq_ok`, `Action.bind_eq_error` — how a sequence of two actions
  comes to either outcome.
* `Action.forRange_eq_forM` — an action for each number of a range is the
  action for each of a list of these numbers.
* `Action.undoing_ok`, `Action.undoing_error`, `Action.closing_ok`,
  `Action.closing_error` — what the brackets do to either outcome.
-/

namespace InvertedFile

/-- An action on a state `σ` with result `α`. -/
abbrev Action (σ α : Type) : Type :=
  EStateM Error σ α

/-- Goes on if a condition holds, and fails if it does not. -/
def ensure {m : Type → Type} [Monad m] [MonadExcept Error m] (p : Prop) [Decidable p]
    (e : Error) : m Unit :=
  if p then pure () else throw e

theorem ensure_pos {m : Type → Type} [Monad m] [MonadExcept Error m] {p : Prop} [Decidable p]
    {e : Error} (h : p) : (ensure p e : m Unit) = pure () :=
  if_pos h

theorem ensure_neg {m : Type → Type} [Monad m] [MonadExcept Error m] {p : Prop} [Decidable p]
    {e : Error} (h : ¬ p) : (ensure p e : m Unit) = throw e :=
  if_neg h

namespace Action

variable {ε σ τ α β : Type}

/-- A computation that may fail, as an action on a state it leaves alone. -/
def ofExcept (x : Except ε α) : EStateM ε σ α := fun s =>
  match x with
  | .ok a => .ok a s
  | .error e => .error e s

/-- An action on a part of the state. -/
def focus (part : σ → τ) (put : σ → τ → σ) (act : EStateM ε τ α) : EStateM ε σ α := fun s =>
  match act (part s) with
  | .ok a t => .ok a (put s t)
  | .error e t => .error e (put s t)

/-- Does something for each of the `n` numbers from `start` on, and stops where it fails. -/
def forRange (f : Nat → EStateM ε σ Unit) : Nat → Nat → EStateM ε σ Unit
  | _, 0 => pure ()
  | start, n + 1 => do
      f start
      forRange f (start + 1) n

theorem forRange_eq_forM (f : Nat → EStateM ε σ Unit) (start n : Nat) :
    forRange f start n = (List.range' start n).forM f := by
  induction n generalizing start with
  | zero => rfl
  | succ n ih =>
      rw [List.range'_succ, forRange, ih]
      rfl

/-- `act`, with `undo` applied to the state it fails in. -/
def undoing (undo : σ → σ) (act : EStateM ε σ α) : EStateM ε σ α := fun s =>
  match act s with
  | .ok a s' => .ok a s'
  | .error e s' => .error e (undo s')

/-- `act`, with `close` applied to the state it ends in. -/
def closing (close : σ → σ) (act : EStateM ε σ α) : EStateM ε σ α := fun s =>
  match act s with
  | .ok a s' => .ok a (close s')
  | .error e s' => .error e (close s')

theorem bind_eq_ok {x : EStateM ε σ α} {f : α → EStateM ε σ β} {s s' : σ} {b : β} :
    (x >>= f) s = .ok b s' ↔ ∃ a t, x s = .ok a t ∧ f a t = .ok b s' := by
  simp only [bind, EStateM.bind]
  cases x s with
  | ok a t =>
      constructor
      · exact fun h => ⟨a, t, rfl, h⟩
      · rintro ⟨_, _, ⟨⟩, h⟩
        exact h
  | error e t => simp

theorem bind_eq_error {x : EStateM ε σ α} {f : α → EStateM ε σ β} {s s' : σ} {e : ε} :
    (x >>= f) s = .error e s' ↔
      x s = .error e s' ∨ ∃ a t, x s = .ok a t ∧ f a t = .error e s' := by
  simp only [bind, EStateM.bind]
  cases x s with
  | ok a t =>
      constructor
      · exact fun h => Or.inr ⟨a, t, rfl, h⟩
      · rintro (h | ⟨_, _, ⟨⟩, h⟩)
        · simp at h
        · exact h
  | error e' t => simp

theorem pure_eq_ok {a b : α} {s s' : σ} :
    (pure a : EStateM ε σ α) s = .ok b s' ↔ a = b ∧ s = s' := by
  simp [pure, EStateM.pure]

theorem throw_ne_ok {e : ε} {a : α} {s s' : σ} :
    ¬ (throw e : EStateM ε σ α) s = .ok a s' := by
  intro h
  cases h

theorem throw_eq_error {e e' : ε} {s s' : σ} :
    (throw e : EStateM ε σ α) s = .error e' s' ↔ e = e' ∧ s = s' := by
  constructor
  · intro h
    cases h
    exact ⟨rfl, rfl⟩
  · rintro ⟨rfl, rfl⟩
    rfl

theorem ensure_eq_ok {p : Prop} [Decidable p] {e : Error} {s s' : σ} {u : Unit} :
    (ensure p e : Action σ Unit) s = .ok u s' ↔ p ∧ s = s' := by
  unfold ensure
  split
  · simp_all [pure, EStateM.pure]
  · next h => exact ⟨fun hok => absurd hok throw_ne_ok, fun hp => absurd hp.1 h⟩

theorem ofExcept_eq_ok {x : Except ε α} {a : α} {s s' : σ} :
    ofExcept x s = .ok a s' ↔ x = .ok a ∧ s = s' := by
  cases x <;> simp [ofExcept]

theorem undoing_ok {undo : σ → σ} {act : EStateM ε σ α} {s s' : σ} {a : α} :
    undoing undo act s = .ok a s' ↔ act s = .ok a s' := by
  unfold undoing
  split <;> simp_all

theorem undoing_error {undo : σ → σ} {act : EStateM ε σ α} {s s' : σ} {e : ε} :
    undoing undo act s = .error e s' ↔ ∃ t, act s = .error e t ∧ undo t = s' := by
  unfold undoing
  split <;> simp_all [and_assoc]

theorem closing_ok {close : σ → σ} {act : EStateM ε σ α} {s s' : σ} {a : α} :
    closing close act s = .ok a s' ↔ ∃ t, act s = .ok a t ∧ close t = s' := by
  unfold closing
  split <;> simp_all [and_assoc]

theorem closing_error {close : σ → σ} {act : EStateM ε σ α} {s s' : σ} {e : ε} :
    closing close act s = .error e s' ↔ ∃ t, act s = .error e t ∧ close t = s' := by
  unfold closing
  split <;> simp_all [and_assoc]

end Action

end InvertedFile
