import InvertedFile.Budget.Basic
import InvertedFile.Proofs.Action

/-!
# When a budget grants a buffer

A buffer is granted when three bounds hold: the count of all bytes stays a
byte count, the host gives that many bytes to one buffer, and the limit of the
budget, if it has one, is kept. `Grants` is their conjunction, and every
allocation in the library succeeds exactly when it holds. A refused
allocation leaves the budget as it was, and its error is an `allocation`.

## Main results

* `allocate_ok_iff` — a buffer is allocated exactly when it is granted.
* `allocate_error` — a refusal changes nothing.
* `reserving_ok`, `reserving_refused` — a buffer that is charged for the time
  of an action leaves no trace in the budget.
-/

namespace InvertedFile

/-- An error that tells of a refused buffer. -/
def Error.IsAllocation (e : Error) : Prop :=
  ∃ bytes cause, e = .allocation bytes cause

namespace Budget

/-- A budget against which more bytes are charged. -/
def charged (b : Budget) (bytes : Nat) : Budget :=
  { b with inUse := b.inUse + bytes }

/-- The bytes in use are a byte count and within the limit. -/
structure Sound (b : Budget) : Prop where
  inUse_lt : b.inUse < byteLimit
  le_limit : ∀ limit ∈ b.limit, b.inUse ≤ limit

/-- A buffer of so many bytes is given out. -/
structure Grants (b : Budget) (bytes : Nat) : Prop where
  inUse_lt : b.inUse + bytes < byteLimit
  le_hostLimit : bytes ≤ hostLimit
  le_limit : ∀ limit ∈ b.limit, b.inUse + bytes ≤ limit

@[simp]
theorem release_charged (b : Budget) (bytes : Nat) : (b.charged bytes).release bytes = b := by
  simp [charged, release]

@[simp]
theorem charged_charged (b : Budget) (m n : Nat) : (b.charged m).charged n = b.charged (m + n) := by
  simp [charged, Nat.add_assoc]

@[simp]
theorem limit_charged (b : Budget) (bytes : Nat) : (b.charged bytes).limit = b.limit := rfl

theorem sound_new (limit : Option Nat) : (new limit).Sound where
  inUse_lt := show 0 < byteLimit by decide
  le_limit := fun _ _ => Nat.zero_le _

theorem Sound.release {b : Budget} (h : b.Sound) (bytes : Nat) : (b.release bytes).Sound where
  inUse_lt := Nat.lt_of_le_of_lt (Nat.sub_le _ _) h.inUse_lt
  le_limit := fun limit hlimit => Nat.le_trans (Nat.sub_le _ _) (h.le_limit limit hlimit)

/-- Where there is room for more bytes there is room for none. -/
theorem Sound.of_charged {b : Budget} {bytes : Nat} (h : (b.charged bytes).Sound) : b.Sound where
  inUse_lt := Nat.lt_of_le_of_lt (Nat.le_add_right _ _) h.inUse_lt
  le_limit := fun limit hlimit => Nat.le_trans (Nat.le_add_right _ _) (h.le_limit limit hlimit)

/-- A limit that is a byte count is all that has to be kept. -/
theorem sound_charged_iff {b : Budget} {limit bytes : Nat} (hlimit : b.limit = some limit)
    (hlt : limit < byteLimit) : (b.charged bytes).Sound ↔ b.inUse + bytes ≤ limit := by
  constructor
  · exact fun h => h.le_limit limit hlimit
  · intro hle
    refine ⟨Nat.lt_of_le_of_lt hle hlt, fun other hother => ?_⟩
    have hsame : limit = other := Option.some.inj (hlimit.symm.trans hother)
    exact hsame ▸ hle

theorem Grants.sound {b : Budget} {bytes : Nat} (h : b.Grants bytes) : (b.charged bytes).Sound where
  inUse_lt := h.inUse_lt
  le_limit := h.le_limit

theorem grants_iff {b : Budget} {bytes : Nat} :
    b.Grants bytes ↔ bytes ≤ hostLimit ∧ (b.charged bytes).Sound where
  mp := fun h => ⟨h.le_hostLimit, h.sound⟩
  mpr := fun ⟨hhost, h⟩ => ⟨h.inUse_lt, hhost, h.le_limit⟩

theorem refusal?_eq_none_iff {b : Budget} {bytes : Nat} :
    b.refusal? bytes = none ↔
      b.inUse + bytes < byteLimit ∧ ∀ limit ∈ b.limit, b.inUse + bytes ≤ limit := by
  unfold refusal?
  by_cases hcount : byteLimit ≤ b.inUse + bytes
  · rw [if_pos hcount]
    simp only [reduceCtorEq, false_iff]
    omega
  · rw [if_neg hcount]
    cases hlimit : b.limit with
    | none => simp; omega
    | some limit => simp; omega

theorem charge_eq_ok_iff {b b' : Budget} {bytes : Nat} {u : Unit} :
    charge bytes b = .ok u b' ↔
      (b.inUse + bytes < byteLimit ∧ ∀ limit ∈ b.limit, b.inUse + bytes ≤ limit) ∧
        b' = b.charged bytes := by
  rw [charge_ok_iff, refusal?_eq_none_iff]
  rfl

theorem charge_eq_error {b b' : Budget} {bytes : Nat} {e : Error}
    (h : charge bytes b = .error e b') : e.IsAllocation ∧ b' = b := by
  refine ⟨?_, charge_error h⟩
  unfold charge at h
  split at h
  · next cause _ =>
      cases h
      exact ⟨bytes, cause, rfl⟩
  · cases h

/-- A buffer is allocated exactly when it is granted. -/
theorem allocate_ok_iff {count width bytes : Nat} {b b' : Budget} :
    allocate count width b = .ok bytes b' ↔
      b.Grants (count * width) ∧ bytes = count * width ∧ b' = b.charged (count * width) := by
  simp only [allocate, Action.bind_eq_ok, Action.pure_eq_ok, Action.ensure_eq_ok,
    charge_eq_ok_iff, Action.undoing_ok]
  constructor
  · rintro ⟨_, _, ⟨-, rfl⟩, _, _, ⟨⟨hcount, hlimit⟩, rfl⟩, _, _, ⟨hhost, rfl⟩, rfl, rfl⟩
    exact ⟨⟨hcount, hhost, hlimit⟩, rfl, rfl⟩
  · rintro ⟨⟨hcount, hhost, hlimit⟩, rfl, rfl⟩
    exact ⟨(), b, ⟨by omega, rfl⟩, (), _, ⟨⟨hcount, hlimit⟩, rfl⟩, (), _, ⟨hhost, rfl⟩, rfl, rfl⟩

theorem allocate_ok {count width : Nat} {b : Budget} (h : b.Grants (count * width)) :
    allocate count width b = .ok (count * width) (b.charged (count * width)) :=
  allocate_ok_iff.mpr ⟨h, rfl, rfl⟩

/-- A refused buffer leaves the budget as it was. -/
theorem allocate_error {count width : Nat} {b b' : Budget} {e : Error}
    (h : allocate count width b = .error e b') : e.IsAllocation ∧ b' = b := by
  simp only [allocate, Action.bind_eq_error, Action.ensure_eq_error, Action.ensure_eq_ok,
    charge_eq_ok_iff, Action.undoing_error, Action.undoing_ok] at h
  rcases h with ⟨-, rfl, rfl⟩ | ⟨_, _, ⟨-, rfl⟩, hcharge | ⟨_, _, ⟨-, rfl⟩, hhost | hpure⟩⟩
  · exact ⟨⟨_, _, rfl⟩, rfl⟩
  · exact charge_eq_error hcharge
  · obtain ⟨_, ⟨-, rfl, rfl⟩, rfl⟩ := hhost
    exact ⟨⟨_, _, rfl⟩, release_charged b _⟩
  · obtain ⟨_, _, -, hpure⟩ := hpure
    cases hpure

/-- A buffer that is not granted is refused. -/
theorem allocate_refused {count width : Nat} {b : Budget} (h : ¬ b.Grants (count * width)) :
    ∃ e, allocate count width b = .error e b ∧ e.IsAllocation := by
  cases hrun : allocate count width b with
  | ok bytes b' =>
      have hbytes := (allocate_eq_ok hrun).1
      exact absurd (allocate_ok_iff.mp (hbytes ▸ hrun)).1 h
  | error e b' =>
      obtain ⟨he, rfl⟩ := allocate_error hrun
      exact ⟨e, rfl, he⟩

/-! ## Buffers for the time of an action -/

section Reserving

variable {σ α : Type} {part : σ → Budget} {put : σ → Budget → σ} {count width : Nat}
  {act : Nat → Action σ α}

variable (part put act) in
theorem reserving_ok {s s' : σ} {a : α} (hgrants : (part s).Grants (count * width))
    (hact : act (count * width) (put s ((part s).charged (count * width))) = .ok a s') :
    reserving part put count width act s =
      .ok a (put s' ((part s').release (count * width))) := by
  rw [reserving, Action.bind_ok (Action.focus_ok (allocate_ok hgrants)), Action.closing, hact]

variable (part put act) in
theorem reserving_refused {s : σ} (h : ¬ (part s).Grants (count * width)) :
    ∃ e, reserving part put count width act s = .error e (put s (part s)) ∧ e.IsAllocation := by
  obtain ⟨e, halloc, he⟩ := allocate_refused h
  exact ⟨e, Action.bind_error (Action.focus_error halloc), he⟩

end Reserving

end Budget

end InvertedFile
