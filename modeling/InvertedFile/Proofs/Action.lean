import Mathlib.Data.List.Forall2
import InvertedFile.Action

/-!
# Running actions

The laws of `InvertedFile.Action` open an action that has come to an outcome.
The laws here go the other way: they carry a run forward, one step at a time,
so that the outcome of a sequence is computed from the outcomes of its parts.

Loops are run by an invariant. `forRange_ok` is the only induction over a
range of numbers in the library; every loop over the chunks of a record or
the records of a batch is an instance of it.

## Main results

* `bind_ok`, `bind_error` — a sequence runs its second part from where the
  first one ended, or stops there.
* `forRange_ok`, `forM_range_ok` — a loop whose steps succeed and keep an
  invariant succeeds and ends in the invariant.
* `IsPart.focus_bind` — an action on a part of a state, told step by step.
* `final` — where an action ends, whatever came of it.
* `Leads.bind`, `Looks.then` — what is known of both outcomes of a sequence.
-/

namespace InvertedFile.Action

variable {ε σ τ α β : Type}

theorem bind_ok {x : EStateM ε σ α} {f : α → EStateM ε σ β} {s t : σ} {a : α}
    (h : x s = .ok a t) : (x >>= f) s = f a t := by
  simp only [bind, EStateM.bind, h]

theorem bind_error {x : EStateM ε σ α} {f : α → EStateM ε σ β} {s t : σ} {e : ε}
    (h : x s = .error e t) : (x >>= f) s = .error e t := by
  simp only [bind, EStateM.bind, h]

/-- What comes after an action matters only where the action succeeds. -/
theorem bind_congr {x : EStateM ε σ α} {f g : α → EStateM ε σ β} {s : σ}
    (h : ∀ a t, x s = .ok a t → f a t = g a t) : (x >>= f) s = (x >>= g) s := by
  cases hx : x s with
  | error e t => rw [bind_error hx, bind_error hx]
  | ok a t => rw [bind_ok hx, bind_ok hx, h a t hx]

theorem get_ok (s : σ) : (get : EStateM ε σ σ) s = .ok s s :=
  rfl

theorem ofExcept_ok {x : Except ε α} {a : α} (h : x = .ok a) (s : σ) :
    ofExcept x s = .ok a s := by
  rw [h]
  rfl

theorem ofExcept_error {x : Except ε α} {e : ε} (h : x = .error e) (s : σ) :
    ofExcept x s = .error e s := by
  rw [h]
  rfl

/-- A sequence of computations is a sequence of actions. -/
theorem ofExcept_bind (x : Except ε α) (f : α → Except ε β) :
    (ofExcept (x >>= f) : EStateM ε σ β) = (ofExcept x >>= fun a => ofExcept (f a)) := by
  cases x <;> rfl

theorem ofExcept_pure (a : α) : (ofExcept (pure a : Except ε α) : EStateM ε σ α) = pure a :=
  rfl

theorem ensure_eq_error {p : Prop} [Decidable p] {e e' : Error} {s s' : σ} :
    (ensure p e : Action σ Unit) s = .error e' s' ↔ ¬ p ∧ e = e' ∧ s = s' := by
  unfold ensure
  split
  · simp_all [pure, EStateM.pure]
  · next h =>
      rw [throw_eq_error]
      exact ⟨fun he => ⟨h, he⟩, fun he => he.2⟩

theorem ensure_ok {p : Prop} [Decidable p] {e : Error} (h : p) (s : σ) :
    (ensure p e : Action σ Unit) s = .ok () s :=
  ensure_eq_ok.mpr ⟨h, rfl⟩

theorem ensure_error {p : Prop} [Decidable p] {e : Error} (h : ¬ p) (s : σ) :
    (ensure p e : Action σ Unit) s = .error e s :=
  ensure_eq_error.mpr ⟨h, rfl, rfl⟩

theorem focus_ok {part : σ → τ} {put : σ → τ → σ} {act : EStateM ε τ α} {s : σ} {t : τ} {a : α}
    (h : act (part s) = .ok a t) : focus part put act s = .ok a (put s t) := by
  simp only [focus, h]

theorem focus_error {part : σ → τ} {put : σ → τ → σ} {act : EStateM ε τ α} {s : σ} {t : τ}
    {e : ε} (h : act (part s) = .error e t) :
    focus part put act s = .error e (put s t) := by
  simp only [focus, h]

theorem focus_eq_ok {part : σ → τ} {put : σ → τ → σ} {act : EStateM ε τ α} {s s' : σ} {a : α} :
    focus part put act s = .ok a s' ↔ ∃ t, act (part s) = .ok a t ∧ put s t = s' := by
  unfold focus
  split <;> simp_all [and_assoc]

theorem focus_eq_error {part : σ → τ} {put : σ → τ → σ} {act : EStateM ε τ α} {s s' : σ}
    {e : ε} :
    focus part put act s = .error e s' ↔ ∃ t, act (part s) = .error e t ∧ put s t = s' := by
  unfold focus
  split <;> simp_all [and_assoc]

/-! ## Parts of a state -/

/-- A part of a state can be replaced, and the rest of the state has nothing to do with it. -/
structure IsPart (part : σ → τ) (put : σ → τ → σ) : Prop where
  part_put : ∀ s t, part (put s t) = t
  put_part : ∀ s, put s (part s) = s
  put_put : ∀ s t t', put (put s t) t' = put s t'

section IsPart

variable {part : σ → τ} {put : σ → τ → σ}

theorem IsPart.focus_pure (h : IsPart part put) (a : α) :
    focus part put (pure a : EStateM ε τ α) = pure a := by
  funext s
  exact congrArg (EStateM.Result.ok a) (h.put_part s)

theorem IsPart.focus_ofExcept (h : IsPart part put) (x : Except ε α) :
    focus part put (ofExcept x : EStateM ε τ α) = ofExcept x := by
  funext s
  cases x with
  | ok a => exact congrArg (EStateM.Result.ok a) (h.put_part s)
  | error e => exact congrArg (EStateM.Result.error e) (h.put_part s)

theorem IsPart.focus_ensure (h : IsPart part put) (p : Prop) [Decidable p] (e : Error) :
    focus part put (ensure p e : Action τ Unit) = ensure p e := by
  by_cases hp : p
  · rw [ensure_pos hp, ensure_pos hp, h.focus_pure]
  · rw [ensure_neg hp, ensure_neg hp]
    exact h.focus_ofExcept (.error e)

/-- A sequence of actions on a part is a sequence. -/
theorem IsPart.focus_bind (h : IsPart part put) (x : EStateM ε τ α) (f : α → EStateM ε τ β) :
    focus part put (x >>= f) = (focus part put x >>= fun a => focus part put (f a)) := by
  funext s
  cases hx : x (part s) with
  | error e t => rw [bind_error (focus_error hx), focus_error (bind_error hx)]
  | ok a t =>
      rw [bind_ok (focus_ok hx), focus, focus, bind_ok hx, h.part_put]
      cases f a t with
      | ok b t' => exact congrArg (EStateM.Result.ok b) (h.put_put s t t').symm
      | error e t' => exact congrArg (EStateM.Result.error e) (h.put_put s t t').symm

/-- What is taken back in a part is taken back in the whole. -/
theorem IsPart.focus_undoing (h : IsPart part put) (undo : τ → τ) (act : EStateM ε τ α) :
    focus part put (undoing undo act) =
      undoing (fun s => put s (undo (part s))) (focus part put act) := by
  funext s
  cases hact : act (part s) with
  | ok a t => rw [focus_ok (undoing_ok.mpr hact), undoing_ok.mpr (focus_ok hact)]
  | error e t =>
      rw [focus_error (undoing_error.mpr ⟨t, hact, rfl⟩)]
      refine (undoing_error.mpr ⟨put s t, focus_error hact, ?_⟩).symm
      rw [h.part_put, h.put_put]

end IsPart

/-! ## Where an action ends -/

/-- The state an action ends in, whatever came of it. -/
def final (act : EStateM ε σ α) (s : σ) : σ :=
  match act s with
  | .ok _ t => t
  | .error _ t => t

theorem final_ok {act : EStateM ε σ α} {s t : σ} {a : α} (h : act s = .ok a t) :
    final act s = t := by
  rw [final, h]

theorem final_error {act : EStateM ε σ α} {s t : σ} {e : ε} (h : act s = .error e t) :
    final act s = t := by
  rw [final, h]

/-- The error an action ends with, if it ends with one. -/
def failure? (act : EStateM ε σ α) (s : σ) : Option ε :=
  match act s with
  | .ok _ _ => none
  | .error e _ => some e

theorem failure?_of_ok {act : EStateM ε σ α} {s t : σ} {a : α} (h : act s = .ok a t) :
    failure? act s = none := by
  rw [failure?, h]

theorem failure?_of_error {act : EStateM ε σ α} {s t : σ} {e : ε} (h : act s = .error e t) :
    failure? act s = some e := by
  rw [failure?, h]

/-- What comes after an action and cannot fail has no part in its failure. -/
theorem failure?_bind {x : EStateM ε σ α} {f : α → EStateM ε σ β} {s : σ}
    (hf : ∀ a t, x s = .ok a t → failure? (f a) t = none) :
    failure? (x >>= f) s = failure? x s := by
  cases hrun : x s with
  | ok a t =>
      rw [failure?_of_ok hrun, ← hf a t hrun, failure?, bind_ok hrun]
      rfl
  | error e t => rw [failure?_of_error hrun, failure?_of_error (bind_error hrun)]

theorem failure?_focus (part : σ → τ) (put : σ → τ → σ) (act : EStateM ε τ α) (s : σ) :
    failure? (focus part put act) s = failure? act (part s) := by
  unfold failure? focus
  cases act (part s) <;> rfl

theorem failure?_undoing (undo : σ → σ) (act : EStateM ε σ α) (s : σ) :
    failure? (undoing undo act) s = failure? act s := by
  unfold failure? undoing
  cases act s <;> rfl

/-- An action that does not fail succeeds. -/
theorem exists_ok_of_failure? {act : EStateM ε σ α} {s : σ} (h : failure? act s = none) :
    ∃ a, act s = .ok a (final act s) := by
  unfold failure? at h
  unfold final
  cases hrun : act s with
  | ok a t => exact ⟨a, rfl⟩
  | error e t =>
      rw [hrun] at h
      cases h

theorem eq_ok_of_failure? {act : EStateM ε σ Unit} {s : σ} (h : failure? act s = none) :
    act s = .ok () (final act s) := by
  obtain ⟨_, hrun⟩ := exists_ok_of_failure? h
  exact hrun

theorem eq_error_of_failure? {act : EStateM ε σ α} {s : σ} {e : ε}
    (h : failure? act s = some e) : act s = .error e (final act s) := by
  unfold failure? at h
  unfold final
  cases hrun : act s with
  | ok a t =>
      rw [hrun] at h
      cases h
  | error e' t =>
      rw [hrun] at h
      cases h
      rfl

/-! ## Both outcomes -/

/-- An action comes to a success of which `ok` is known, or to a failure of which `fail` is. -/
def Leads (act : EStateM ε σ α) (s : σ) (ok : α → σ → Prop) (fail : σ → Prop) : Prop :=
  match act s with
  | .ok a t => ok a t
  | .error _ t => fail t

section Leads

variable {s : σ} {ok : α → σ → Prop} {fail : σ → Prop}

theorem leads_of_ok {act : EStateM ε σ α} {a : α} {t : σ} (h : act s = .ok a t) (hok : ok a t) :
    Leads act s ok fail := by
  rw [Leads, h]
  exact hok

theorem leads_of_error {act : EStateM ε σ α} {e : ε} {t : σ} (h : act s = .error e t)
    (hfail : fail t) : Leads act s ok fail := by
  rw [Leads, h]
  exact hfail

theorem leads_pure {a : α} (h : ok a s) : Leads (pure a : EStateM ε σ α) s ok fail :=
  h

/-- A sequence leads where its second part does, from wherever the first one has led. -/
theorem Leads.bind {x : EStateM ε σ β} {f : β → EStateM ε σ α} {mid : β → σ → Prop}
    (hx : Leads x s mid fail) (hf : ∀ b t, mid b t → Leads (f b) t ok fail) :
    Leads (x >>= f) s ok fail := by
  cases hrun : x s with
  | ok b t =>
      rw [Leads, hrun] at hx
      rw [Leads, bind_ok hrun]
      exact hf b t hx
  | error e t =>
      rw [Leads, hrun] at hx
      rw [Leads, bind_error hrun]
      exact hx

/-- A sequence leads where its second part does, from where the first one is known to end. -/
theorem leads_bind_ok {x : EStateM ε σ β} {f : β → EStateM ε σ α} {b : β} {t : σ}
    (hx : x s = .ok b t) (hf : Leads (f b) t ok fail) : Leads (x >>= f) s ok fail := by
  rw [Leads, bind_ok hx]
  exact hf

theorem leads_bind_error {x : EStateM ε σ β} {f : β → EStateM ε σ α} {e : ε} {t : σ}
    (hx : x s = .error e t) (hfail : fail t) : Leads (x >>= f) s ok fail := by
  rw [Leads, bind_error hx]
  exact hfail

theorem Leads.mono {act : EStateM ε σ α} {ok' : α → σ → Prop} {fail' : σ → Prop}
    (h : Leads act s ok fail) (hok : ∀ a t, ok a t → ok' a t) (hfail : ∀ t, fail t → fail' t) :
    Leads act s ok' fail' := by
  unfold Leads at h ⊢
  cases hrun : act s with
  | ok a t =>
      rw [hrun] at h
      exact hok a t h
  | error e t =>
      rw [hrun] at h
      exact hfail t h

theorem Leads.final {act : EStateM ε σ α} {p : σ → Prop} (h : Leads act s (fun _ => p) p) :
    p (final act s) := by
  unfold Leads at h
  unfold Action.final
  cases hrun : act s with
  | ok a t =>
      rw [hrun] at h
      exact h
  | error e t =>
      rw [hrun] at h
      exact h

end Leads

/-- An action changes nothing, and of what it gives this is known. -/
def Looks (act : EStateM ε σ α) (s : σ) (p : α → Prop) : Prop :=
  Leads act s (fun a t => t = s ∧ p a) (fun t => t = s)

section Looks

variable {s : σ} {p : α → Prop}

theorem looks_of_ok {act : EStateM ε σ α} {a : α} (h : act s = .ok a s) (hp : p a) :
    Looks act s p :=
  leads_of_ok h ⟨rfl, hp⟩

theorem looks_of_error {act : EStateM ε σ α} {e : ε} (h : act s = .error e s) : Looks act s p :=
  leads_of_error h rfl

theorem looks_get : Looks (get : EStateM ε σ σ) s (fun t => s = t) :=
  looks_of_ok rfl rfl

theorem looks_ofExcept {x : Except ε α} : Looks (ofExcept x) s (fun a => x = .ok a) := by
  cases x with
  | ok a => exact looks_of_ok rfl rfl
  | error e => exact looks_of_error rfl

theorem Looks.bind {x : EStateM ε σ β} {f : β → EStateM ε σ α} {q : β → Prop} (hx : Looks x s q)
    (hf : ∀ b, q b → Looks (f b) s p) : Looks (x >>= f) s p := by
  refine Leads.bind hx ?_
  rintro b t ⟨rfl, hb⟩
  exact hf b hb

/-- What comes after a look starts from where the look has been. -/
theorem Looks.then {x : EStateM ε σ β} {f : β → EStateM ε σ α} {q : β → Prop}
    {ok : α → σ → Prop} {fail : σ → Prop} (hx : Looks x s q) (hfail : fail s)
    (hf : ∀ b, q b → Leads (f b) s ok fail) : Leads (x >>= f) s ok fail := by
  apply Leads.bind (hx.mono (fun _ _ h => h) fun _ ht => ht ▸ hfail)
  rintro b t ⟨rfl, hb⟩
  exact hf b hb

theorem Looks.leads {act : EStateM ε σ α} {ok : α → σ → Prop} {fail : σ → Prop}
    (h : Looks act s p) (hok : ∀ a, p a → ok a s) (hfail : fail s) : Leads act s ok fail :=
  h.mono (fun a _ ht => ht.1.symm ▸ hok a ht.2) fun _ ht => ht ▸ hfail

end Looks

/-! ## Loops -/

/-- A loop over the `n` numbers from `start` on, each step of which succeeds and takes the
invariant one number further. -/
theorem forRange_ok {f : Nat → EStateM ε σ Unit} (inv : Nat → σ → Prop) (start n : Nat) {s : σ}
    (hstart : inv start s)
    (hstep : ∀ k s, start ≤ k → k < start + n → inv k s →
      ∃ s', f k s = .ok () s' ∧ inv (k + 1) s') :
    ∃ s', forRange f start n s = .ok () s' ∧ inv (start + n) s' := by
  induction n generalizing start s with
  | zero => exact ⟨s, rfl, hstart⟩
  | succ n ih =>
      obtain ⟨t, hrun, ht⟩ := hstep start s (Nat.le_refl _) (by omega) hstart
      obtain ⟨s', hrest, hs'⟩ := ih (start + 1) ht fun k s hk hlt => hstep k s (by omega) (by omega)
      refine ⟨s', ?_, ?_⟩
      · rw [forRange, bind_ok hrun, hrest]
      · rw [show start + (n + 1) = start + 1 + n by omega]
        exact hs'

/-- Steps that do the same make loops that do the same. -/
theorem forM_congr {f g : α → EStateM ε σ Unit} {xs : List α} (h : ∀ x ∈ xs, f x = g x) :
    xs.forM f = xs.forM g := by
  induction xs with
  | nil => rfl
  | cons x rest ih =>
      change (f x >>= fun _ => rest.forM f) = (g x >>= fun _ => rest.forM g)
      rw [h x (List.mem_cons_self ..), ih fun y hy => h y (List.mem_cons_of_mem x hy)]

/-- A loop over several lists of steps, one list after the other. -/
theorem forM_flatMap (f : α → List β) (g : β → EStateM ε σ Unit) (xs : List α) :
    (xs.flatMap f).forM g = xs.forM fun x => (f x).forM g := by
  induction xs with
  | nil => rfl
  | cons x rest ih =>
      simp only [List.flatMap_cons, List.forM_eq_forM, List.forM_append, List.forM_cons] at ih ⊢
      rw [ih]

theorem forM_range_eq (f : Nat → EStateM ε σ Unit) (n : Nat) :
    (List.range n).forM f = forRange f 0 n := by
  rw [forRange_eq_forM, List.range_eq_range']

theorem forM_range_ok {f : Nat → EStateM ε σ Unit} (inv : Nat → σ → Prop) {n : Nat} {s : σ}
    (hstart : inv 0 s)
    (hstep : ∀ k s, k < n → inv k s → ∃ s', f k s = .ok () s' ∧ inv (k + 1) s') :
    ∃ s', (List.range n).forM f s = .ok () s' ∧ inv n s' := by
  rw [forM_range_eq]
  have hrun := forRange_ok inv 0 n hstart fun k s _ hlt => hstep k s (by omega)
  rwa [Nat.zero_add] at hrun

end InvertedFile.Action

/-! ## Computations without a state -/

namespace InvertedFile

variable {ε α β : Type}

theorem Except.bind_eq_ok {x : Except ε α} {f : α → Except ε β} {b : β} :
    (x >>= f) = .ok b ↔ ∃ a, x = .ok a ∧ f a = .ok b := by
  cases x with
  | error e => simp [bind, Except.bind]
  | ok a => simp [bind, Except.bind]

/-- What comes after a computation matters only where the computation succeeds. -/
theorem Except.bind_congr {x : Except ε α} {f g : α → Except ε β}
    (h : ∀ a, x = .ok a → f a = g a) : (x >>= f) = (x >>= g) := by
  cases x with
  | error e => rfl
  | ok a => exact h a rfl

theorem Except.ensure_eq_ok {p : Prop} [Decidable p] {e : Error} {u : Unit} :
    (ensure p e : Except Error Unit) = .ok u ↔ p := by
  unfold ensure
  by_cases h : p
  · simp [h, pure, Except.pure]
  · simp [h, throw, throwThe, MonadExceptOf.throw]

/-- A check of every element passes exactly when each of them does. -/
theorem Except.forM_eq_ok {f : α → Except ε Unit} {xs : List α} :
    xs.forM f = .ok () ↔ ∀ x ∈ xs, f x = .ok () := by
  induction xs with
  | nil => simp [List.forM, pure, Except.pure]
  | cons x rest ih =>
      change (f x >>= fun _ => rest.forM f) = _ ↔ _
      rw [Except.bind_eq_ok]
      constructor
      · rintro ⟨⟨⟩, hx, hrest⟩ y hy
        rcases List.mem_cons.mp hy with rfl | hy
        · exact hx
        · exact ih.mp hrest y hy
      · intro h
        exact ⟨(), h x (List.mem_cons_self ..),
          ih.mpr fun y hy => h y (List.mem_cons_of_mem x hy)⟩

/-- What a computation gives for each element. -/
theorem Except.mapM_eq_ok {f : α → Except ε β} {xs : List α} {ys : List β} :
    xs.mapM f = .ok ys ↔ List.Forall₂ (fun x y => f x = .ok y) xs ys := by
  induction xs generalizing ys with
  | nil =>
      rw [List.mapM_nil, List.forall₂_nil_left_iff]
      simp [pure, Except.pure, eq_comm]
  | cons x rest ih =>
      rw [List.mapM_cons, Except.bind_eq_ok]
      simp only [Except.bind_eq_ok, ih]
      constructor
      · rintro ⟨y, hy, zs, hzs, ⟨⟩⟩
        exact .cons hy hzs
      · rintro (_ | ⟨hy, hzs⟩)
        exact ⟨_, hy, _, hzs, rfl⟩

end InvertedFile
