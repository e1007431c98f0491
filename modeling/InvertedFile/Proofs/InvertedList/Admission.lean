import InvertedFile.Proofs.InvertedList.Creation

/-!
# Room for several new lists

Lists that are made one after the other, with nothing let go in between, are
charged one on top of the other. So whether a budget gives out all of them
depends on the sum of their bytes and not on their order; and of the host it
is only asked that it gives each buffer by itself.

## Main results

* `granted_iff` — one list: what it asks of the host and of the budget.
* `Admits.append_iff` — what is admitted at once is admitted one after the
  other.
* `admits_iff` — under a limit, the sum is all that has to fit.
-/

namespace InvertedFile.InvertedList

variable {t : ElementType} {i : IdType}

/-- The host gives out the two buffers of a list of this capacity. -/
structure HostGives (t : ElementType) (i : IdType) (spec : ListSpec) (capacity : Nat) : Prop where
  words : capacity * spec.dim * t.size ≤ hostLimit
  ids : capacity * i.size ≤ hostLimit

/-- Bytes of new lists for these numbers of records, if there is a capacity for each of them. -/
def newBytes? (t : ElementType) (i : IdType) (spec : ListSpec) (sizes : List Nat) :
    Option Nat := do
  let capacities ← sizes.mapM spec.growth.capacity?
  return (capacities.map fun capacity => capacity * (spec.dim * t.size + i.size)).sum

/-- A budget and the host give out new lists for these numbers of records, all together. -/
structure Admits (t : ElementType) (i : IdType) (b : Budget) (spec : ListSpec)
    (sizes : List Nat) (bytes : Nat) : Prop where
  bytes_eq : newBytes? t i spec sizes = some bytes
  hosted : ∀ size ∈ sizes, ∀ capacity, spec.growth.capacity? size = some capacity →
    HostGives t i spec capacity
  sound : (b.charged bytes).Sound

variable {spec : ListSpec} {sizes more : List Nat} {size capacity bytes bytes' : Nat} {b : Budget}

theorem HostGives.of_hosted {l : InvertedList t i} (hwell : l.WellFormed) (h : l.Hosted) :
    HostGives t i l.spec l.capacity where
  words := hwell.size_data_eq ▸ h.words
  ids := hwell.size_ids ▸ h.ids

theorem newBytes?_singleton : newBytes? t i spec [size] =
    (spec.growth.capacity? size).map (· * (spec.dim * t.size + i.size)) := by
  cases hcapacity : spec.growth.capacity? size <;> simp [newBytes?, hcapacity]

theorem newBytes?_append_iff : newBytes? t i spec (sizes ++ more) = some bytes ↔
    ∃ m n, newBytes? t i spec sizes = some m ∧ newBytes? t i spec more = some n ∧
      bytes = m + n := by
  unfold newBytes?
  rw [List.mapM_append]
  cases sizes.mapM spec.growth.capacity? with
  | none => simp
  | some capacities =>
      cases more.mapM spec.growth.capacity? with
      | none => simp
      | some others => simp [eq_comm]

theorem reserved_blank (h : spec.growth.capacity? size = some capacity) :
    (blank t i spec capacity).reserved = capacity * (spec.dim * t.size + i.size) := by
  have hwell := wellFormed_blank (t := t) (i := i) h
  exact hwell.reserved_eq.trans hwell.memoryBytes_eq

/-- The buffers of a list are granted when the host gives each of them and there is room for
both. -/
theorem granted_iff (h : spec.growth.capacity? size = some capacity) :
    Granted t i spec capacity b ↔ HostGives t i spec capacity ∧
      (b.charged (capacity * (spec.dim * t.size + i.size))).Sound := by
  have hwords : wordBytes t spec capacity = capacity * spec.dim * t.size := by
    have hdata := (wellFormed_blank (t := t) (i := i) h).size_data_eq
    rw [blank, Array.size_replicate] at hdata
    rw [wordBytes, hdata]
  rw [← reserved_blank h]
  constructor
  · exact fun hgranted =>
      ⟨⟨hwords ▸ hgranted.words.le_hostLimit, hgranted.ids.le_hostLimit⟩, hgranted.sound⟩
  · rintro ⟨hhost, hsound⟩
    have hboth : ((b.charged (wordBytes t spec capacity)).charged
        (idBytes i capacity)).Sound := by
      rw [Budget.charged_charged]
      exact hsound
    exact ⟨Budget.grants_iff.mpr ⟨hwords ▸ hhost.words, hboth.of_charged⟩,
      Budget.grants_iff.mpr ⟨hhost.ids, hboth⟩⟩

theorem admits_nil (h : b.Sound) : Admits t i b spec [] 0 where
  bytes_eq := rfl
  hosted := fun _ hsize => nomatch hsize
  sound := h

/-- One new list is admitted exactly when it can be made. -/
theorem admits_singleton_iff : Admits t i b spec [size] bytes ↔
    ∃ capacity, spec.growth.capacity? size = some capacity ∧ Granted t i spec capacity b ∧
      bytes = (blank t i spec capacity).reserved := by
  constructor
  · rintro ⟨hbytes, hhosted, hsound⟩
    rw [newBytes?_singleton, Option.map_eq_some_iff] at hbytes
    obtain ⟨capacity, hcapacity, rfl⟩ := hbytes
    have hhost := hhosted size (List.mem_cons_self ..) capacity hcapacity
    exact ⟨capacity, hcapacity, (granted_iff hcapacity).mpr ⟨hhost, hsound⟩,
      (reserved_blank hcapacity).symm⟩
  · rintro ⟨capacity, hcapacity, hgranted, rfl⟩
    constructor
    · rw [newBytes?_singleton, hcapacity, Option.map_some, reserved_blank hcapacity]
    · intro other hother capacity' hcapacity'
      obtain rfl := List.mem_singleton.mp hother
      obtain rfl : capacity = capacity' := Option.some.inj (hcapacity.symm.trans hcapacity')
      exact ((granted_iff hcapacity).mp hgranted).1
    · exact hgranted.sound

theorem Admits.unique (h : Admits t i b spec sizes bytes) {b' : Budget}
    (h' : Admits t i b' spec sizes bytes') : bytes = bytes' :=
  Option.some.inj (h.bytes_eq.symm.trans h'.bytes_eq)

/-- What is admitted at once is admitted one after the other. -/
theorem Admits.append_iff : Admits t i b spec (sizes ++ more) bytes ↔
    ∃ m n, Admits t i b spec sizes m ∧ Admits t i (b.charged m) spec more n ∧ bytes = m + n := by
  constructor
  · rintro ⟨hbytes, hhosted, hsound⟩
    obtain ⟨m, n, hm, hn, rfl⟩ := newBytes?_append_iff.mp hbytes
    rw [← Budget.charged_charged] at hsound
    exact ⟨m, n, ⟨hm, fun size hsize => hhosted size (List.mem_append_left _ hsize),
      hsound.of_charged⟩, ⟨hn, fun size hsize => hhosted size (List.mem_append_right _ hsize),
      hsound⟩, rfl⟩
  · rintro ⟨m, n, hfirst, hrest, rfl⟩
    refine ⟨newBytes?_append_iff.mpr ⟨m, n, hfirst.bytes_eq, hrest.bytes_eq, rfl⟩, ?_, ?_⟩
    · intro size hsize
      rcases List.mem_append.mp hsize with hsize | hsize
      · exact hfirst.hosted size hsize
      · exact hrest.hosted size hsize
    · rw [← Budget.charged_charged]
      exact hrest.sound

/-- One of several new lists takes a part of their bytes. -/
theorem le_newBytes? (h : newBytes? t i spec sizes = some bytes) (hsize : size ∈ sizes)
    (hcapacity : spec.growth.capacity? size = some capacity) :
    capacity * (spec.dim * t.size + i.size) ≤ bytes := by
  obtain ⟨before, after, rfl⟩ := List.append_of_mem hsize
  rw [← List.singleton_append] at h
  obtain ⟨m, rest, -, hrest, rfl⟩ := newBytes?_append_iff.mp h
  obtain ⟨n, others, hn, -, rfl⟩ := newBytes?_append_iff.mp hrest
  rw [newBytes?_singleton, hcapacity, Option.map_some, Option.some.injEq] at hn
  omega

/-- The host gives the buffers of lists that together are no larger than one buffer may be. -/
theorem hostGives_of_newBytes? (h : newBytes? t i spec sizes = some bytes)
    (hle : bytes ≤ hostLimit) : ∀ size ∈ sizes, ∀ capacity,
      spec.growth.capacity? size = some capacity → HostGives t i spec capacity := by
  intro size hsize capacity hcapacity
  have hpart := le_newBytes? h hsize hcapacity
  rw [Nat.mul_add, ← Nat.mul_assoc] at hpart
  exact ⟨by omega, by omega⟩

/-- Under a limit, new lists are admitted that fit and whose buffers the host gives. -/
theorem admits_iff {limit : Nat} (hlimit : b.limit = some limit) (hlt : limit < byteLimit) :
    Admits t i b spec sizes bytes ↔ newBytes? t i spec sizes = some bytes ∧
      b.inUse + bytes ≤ limit ∧ ∀ size ∈ sizes, ∀ capacity,
        spec.growth.capacity? size = some capacity → HostGives t i spec capacity := by
  rw [← Budget.sound_charged_iff hlimit hlt]
  exact ⟨fun h => ⟨h.bytes_eq, h.sound, h.hosted⟩, fun ⟨hbytes, hsound, hhosted⟩ =>
    ⟨hbytes, hhosted, hsound⟩⟩

end InvertedFile.InvertedList
