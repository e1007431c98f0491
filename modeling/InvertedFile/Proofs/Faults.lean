import InvertedFile.Proofs.Budget
import InvertedFile.Stream

/-!
# Freedom from faults

A failure is an answer: a caller has asked for more than there is, a buffer
was refused, a stream broke off. A fault is none. It says that an access went
outside of a buffer or that there was nothing to divide by, and the library
promises that it never comes to one.

`Faultless` is this promise for one run: a computation, or an action from the
state it is started in, does not end in a fault. The laws go along the way in
which actions are put together. A check fails with an error of another kind,
and what comes after it may rely on it, so that all that is left to show of an
operation is that its accesses lie where its checks put them.

## Main results

* `Action.Faultless.bind` — a sequence is faultless when its second part is
  from wherever the first one may end.
* `Action.faultless_ensure_bind`, `Action.faultless_ofExcept_bind` — what comes
  after a check may rely on it.
* `Action.faultless_forM` — a loop over faultless steps.
-/

namespace InvertedFile

variable {σ τ α β : Type}

theorem Error.IsAllocation.ne_fault {e : Error} (h : e.IsAllocation) (cause : Fault) :
    e ≠ .fault cause := by
  obtain ⟨bytes, refusal, rfl⟩ := h
  nofun

/-! ## Computations -/

namespace Except

/-- A computation does not end in a fault. -/
def Faultless (x : Except Error α) : Prop :=
  ∀ cause, x ≠ .error (.fault cause)

end Except

/-! ## Actions -/

namespace Action

/-- An action does not end in a fault from the given state. -/
def Faultless (act : Action σ α) (s : σ) : Prop :=
  ∀ cause t, act s ≠ .error (.fault cause) t

theorem faultless_of_ok {act : Action σ α} {s t : σ} {a : α} (h : act s = .ok a t) :
    Faultless act s := by
  intro cause t' hfault
  rw [h] at hfault
  cases hfault

theorem faultless_of_error {act : Action σ α} {s t : σ} {e : Error} (h : act s = .error e t)
    (he : ∀ cause, e ≠ .fault cause) : Faultless act s := by
  intro cause t' hfault
  rw [h] at hfault
  cases hfault
  exact he cause rfl

theorem faultless_pure (a : α) (s : σ) : Faultless (pure a : Action σ α) s :=
  faultless_of_ok rfl

/-- A sequence is faultless when its second part is from wherever the first one may end. -/
theorem Faultless.bind {x : Action σ α} {f : α → Action σ β} {s : σ} (hx : Faultless x s)
    (hf : ∀ a t, x s = .ok a t → Faultless (f a) t) : Faultless (x >>= f) s := by
  intro cause t hfault
  rcases bind_eq_error.mp hfault with hfirst | ⟨a, mid, hrun, hrest⟩
  · exact hx cause t hfirst
  · exact hf a mid hrun cause t hrest

/-- A sequence whose first part is known to succeed. -/
theorem faultless_bind_ok {x : Action σ α} {f : α → Action σ β} {s t : σ} {a : α}
    (hx : x s = .ok a t) (hf : Faultless (f a) t) : Faultless (x >>= f) s := by
  intro cause t' hfault
  rw [bind_ok hx] at hfault
  exact hf cause t' hfault

/-- What comes after a condition may rely on it. -/
theorem faultless_ensure_bind {p : Prop} [Decidable p] {e : Error} {f : Unit → Action σ α} {s : σ}
    (he : ∀ cause, e ≠ .fault cause) (hf : p → Faultless (f ()) s) :
    Faultless (ensure p e >>= f) s := by
  by_cases h : p
  · exact faultless_bind_ok (ensure_ok h s) (hf h)
  · exact faultless_of_error (bind_error (ensure_error h _)) he

/-- What comes after a computation may rely on what it has given. -/
theorem faultless_ofExcept_bind {x : Except Error α} {f : α → Action σ β} {s : σ}
    (hx : Except.Faultless x) (hf : ∀ a, x = .ok a → Faultless (f a) s) :
    Faultless (ofExcept x >>= f) s := by
  cases hrun : x with
  | error e =>
      refine faultless_of_error (bind_error rfl) fun cause he => ?_
      rw [he] at hrun
      exact hx cause hrun
  | ok a => exact faultless_bind_ok rfl (hf a hrun)

theorem faultless_focus {part : σ → τ} {put : σ → τ → σ} {act : Action τ α} {s : σ}
    (h : Faultless act (part s)) : Faultless (focus part put act) s := by
  intro cause t hfault
  obtain ⟨mid, hrun, -⟩ := focus_eq_error.mp hfault
  exact h cause mid hrun

/-- A loop whose steps are faultless in any state. -/
theorem faultless_forM {f : α → Action σ Unit} {xs : List α}
    (h : ∀ x ∈ xs, ∀ s, Faultless (f x) s) (s : σ) : Faultless (xs.forM f) s := by
  induction xs generalizing s with
  | nil => exact faultless_pure () s
  | cons x rest ih =>
      refine Faultless.bind (h x (List.mem_cons_self ..) s) fun _ t _ => ?_
      exact ih (fun y hy => h y (List.mem_cons_of_mem x hy)) t

end Action

/-- A sink that is full is no fault. -/
theorem Sink.faultless_put (bytes : Bytes) (s : Sink) : Action.Faultless (Sink.put bytes) s := by
  intro cause t hfault
  unfold Sink.put at hfault
  split at hfault
  · cases hfault
  · split at hfault <;> cases hfault

end InvertedFile
