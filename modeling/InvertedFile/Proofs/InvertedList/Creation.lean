import InvertedFile.Proofs.Budget
import InvertedFile.Proofs.InvertedList.Records

/-!
# Making a list

A list is made with the capacity its growth asks for, and two buffers are
allocated for it, the words before the ids. There is one list that can come
of this, the `blank` one of that capacity; whether it comes is up to the
budget. When one of the buffers is refused, the other is given back.

## Main results

* `create_ok_iff` — when a list is made, and which one.
* `create_error` — a list that is not made leaves the budget as it was.
* `wellFormed_blank` — the list that is made is well formed.
-/

namespace InvertedFile.InvertedList

variable {t : ElementType} {i : IdType}

/-- Bytes of the words of a list. -/
def wordBytes (t : ElementType) (spec : ListSpec) (capacity : Nat) : Nat :=
  (spec.layout.extents capacity).length * t.size

/-- Bytes of the ids of a list. -/
def idBytes (i : IdType) (capacity : Nat) : Nat :=
  capacity * i.size

/-- A list of a capacity in which nothing has been written. -/
def blank (t : ElementType) (i : IdType) (spec : ListSpec) (capacity : Nat) :
    InvertedList t i where
  spec := spec
  capacity := capacity
  data := Array.replicate (spec.layout.extents capacity).length 0
  ids := Array.replicate capacity (Id.invalid i)
  size := 0
  reserved := wordBytes t spec capacity + idBytes i capacity

theorem memoryBytes_blank (spec : ListSpec) (capacity : Nat) :
    (blank t i spec capacity).memoryBytes = wordBytes t spec capacity + idBytes i capacity := by
  simp [blank, memoryBytes, wordBytes, idBytes]

/-- The budget gives out the buffers of a list, one after the other. -/
structure Granted (t : ElementType) (i : IdType) (spec : ListSpec) (capacity : Nat)
    (b : Budget) : Prop where
  words : b.Grants (wordBytes t spec capacity)
  ids : (b.charged (wordBytes t spec capacity)).Grants (idBytes i capacity)

theorem Granted.sound {spec : ListSpec} {capacity : Nat} {b : Budget}
    (h : Granted t i spec capacity b) : (b.charged (blank t i spec capacity).reserved).Sound := by
  have hids := h.ids.sound
  rwa [Budget.charged_charged] at hids

/-- A list is made exactly when there is a capacity for it and its buffers are granted. -/
theorem create_ok_iff {spec : ListSpec} {records : Nat} {b b' : Budget} {l : InvertedList t i} :
    create t i spec records b = .ok l b' ↔ ∃ capacity,
      spec.growth.capacity? records = some capacity ∧ Granted t i spec capacity b ∧
        l = blank t i spec capacity ∧ b' = b.charged l.reserved := by
  unfold create
  cases hcapacity : spec.growth.capacity? records with
  | none =>
      refine ⟨fun h => absurd h Action.throw_ne_ok, ?_⟩
      rintro ⟨capacity, hnone, -⟩
      cases hnone
  | some capacity =>
      simp only [Action.bind_eq_ok, Action.pure_eq_ok, Action.undoing_ok, Budget.allocate_ok_iff,
        Option.some.injEq]
      constructor
      · rintro ⟨_, _, ⟨hwords, rfl, rfl⟩, _, _, ⟨hids, rfl, rfl⟩, rfl, rfl⟩
        exact ⟨capacity, rfl, ⟨hwords, hids⟩, rfl, Budget.charged_charged _ _ _⟩
      · rintro ⟨_, rfl, ⟨hwords, hids⟩, rfl, rfl⟩
        exact ⟨_, _, ⟨hwords, rfl, rfl⟩, _, _, ⟨hids, rfl, rfl⟩, rfl,
          Budget.charged_charged _ _ _⟩

/-- A list that is not made leaves the budget as it was. -/
theorem create_error {spec : ListSpec} {records : Nat} {b b' : Budget} {e : Error}
    (h : create t i spec records b = .error e b') : e.IsAllocation ∧ b' = b := by
  unfold create at h
  cases hcapacity : spec.growth.capacity? records with
  | none =>
      rw [hcapacity] at h
      cases h
      exact ⟨⟨_, _, rfl⟩, rfl⟩
  | some capacity =>
      rw [hcapacity] at h
      rcases Action.bind_eq_error.mp h with hwords | ⟨bytes, b₁, hwords, hrest⟩
      · exact Budget.allocate_error hwords
      · obtain ⟨-, rfl, rfl⟩ := Budget.allocate_ok_iff.mp hwords
        rcases Action.bind_eq_error.mp hrest with hids | ⟨_, _, -, hpure⟩
        · obtain ⟨b₂, hrefused, rfl⟩ := Action.undoing_error.mp hids
          obtain ⟨he, rfl⟩ := Budget.allocate_error hrefused
          exact ⟨he, Budget.release_charged _ _⟩
        · cases hpure

theorem wellFormed_blank {spec : ListSpec} {records capacity : Nat}
    (h : spec.growth.capacity? records = some capacity) :
    (blank t i spec capacity).WellFormed where
  capacity_eq := Or.inr ⟨records, h⟩
  size_data := Array.size_replicate
  size_ids := Array.size_replicate
  size_le := Nat.zero_le _
  reserved_eq := (memoryBytes_blank spec capacity).symm

theorem getElem?_ids_blank {spec : ListSpec} {capacity p : Nat} :
    (blank t i spec capacity).ids[p]? = if p < capacity then some (Id.invalid i) else none :=
  Array.getElem?_replicate

/-! ## Capacities that are asked for -/

/-- A list has the capacity its growth asks for. -/
def Tight (l : InvertedList t i) : Prop :=
  l.spec.growth.room? l.size = some l.capacity

theorem tight_empty (spec : ListSpec) : (empty t i spec).Tight := rfl

/-- Bytes of a list with the capacity that its growth asks for. -/
def roomBytes (t : ElementType) (i : IdType) (spec : ListSpec) (records : Nat) : Nat :=
  match spec.growth.room? records with
  | none => 0
  | some capacity => wordBytes t spec capacity + idBytes i capacity

theorem Tight.reserved_eq {l : InvertedList t i} (h : l.WellFormed) (htight : l.Tight) :
    l.reserved = roomBytes t i l.spec l.size := by
  rw [roomBytes, htight, h.reserved_eq, memoryBytes, h.size_data, h.size_ids]
  rfl

/-! ## Buffers that the host has given -/

/-- Each of the two buffers has a length that the host gives to one buffer. -/
structure Hosted (l : InvertedList t i) : Prop where
  words : l.data.size * t.size ≤ hostLimit
  ids : l.ids.size * i.size ≤ hostLimit

theorem Hosted.congr {l l' : InvertedList t i} (h : l.Hosted)
    (hdata : l'.data.size = l.data.size) (hids : l'.ids.size = l.ids.size) : l'.Hosted where
  words := hdata ▸ h.words
  ids := hids ▸ h.ids

theorem hosted_empty (spec : ListSpec) : (empty t i spec).Hosted where
  words := Nat.zero_mul t.size ▸ Nat.zero_le _
  ids := Nat.zero_mul i.size ▸ Nat.zero_le _

theorem hosted_blank {spec : ListSpec} {capacity : Nat} {b : Budget}
    (h : Granted t i spec capacity b) : (blank t i spec capacity).Hosted where
  words := by
    rw [blank, Array.size_replicate]
    exact h.words.le_hostLimit
  ids := by
    rw [blank, Array.size_replicate]
    exact h.ids.le_hostLimit

end InvertedFile.InvertedList
