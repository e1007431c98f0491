import Mathlib.Algebra.Ring.Nat
import Mathlib.Order.Bounds.Defs
import InvertedFile.Layout.Growth

/-!
# Capacities of lists

The capacities that lists of one growth can have form a set, and the capacity
of a list that must hold a number of records is the least member of it that is
large enough. What is used of capacities elsewhere follows from that: they are
whole groups, they suffice, and every number of records between a number and
its capacity has the same capacity.

## Main results

* `capacity?_eq_some_iff` — the capacity is the least admissible one that
  suffices and is a record count.
* `capacity?_of_le`, `room?_of_le` — the capacity is the same for all numbers of
  records up to it, also across the threshold.
* `capacity?_isLeast` — the whole policy: which number of slots a list is given,
  when it is given none, and how the number depends on the records.
* `unused_lt_of_lt_threshold`, `unused_lt_of_threshold_le` — how many slots are
  left over.
-/

namespace InvertedFile.Growth

/-- The numbers of slots that lists of a growth have. -/
def Admissible : Growth → Nat → Prop
  | doubling, slots => slots ∈ [32, 64, 128, 256, 512, 1024] ∨ (0 < slots ∧ 1024 ∣ slots)
  | steady, slots => 0 < slots ∧ 32 ∣ slots

/-! ## Powers of two -/

/-- The next power of two suffices. -/
theorem le_nextPower (n : Nat) : n ≤ nextPower n := by
  unfold nextPower
  split
  · omega
  · have := Nat.lt_log2_self (n := n - 1)
    omega

/-- No power of two that suffices is less than the next one. -/
theorem nextPower_le {n k : Nat} (hn : n ≤ 2 ^ k) : nextPower n ≤ 2 ^ k := by
  unfold nextPower
  split
  · exact Nat.one_le_two_pow
  · have hlog : (n - 1).log2 < k := (Nat.log2_lt (by omega)).mpr (by omega)
    rw [Nat.one_shiftLeft]
    exact Nat.pow_le_pow_right (by decide) hlog

theorem nextPower_eq_pow (n : Nat) : ∃ k, nextPower n = 2 ^ k := by
  unfold nextPower
  split
  · exact ⟨0, rfl⟩
  · exact ⟨_, Nat.one_shiftLeft _⟩

/-- The next power of two is less than twice the number. -/
theorem nextPower_lt_two_mul {n : Nat} (hn : 1 < n) : nextPower n < 2 * n := by
  have hlog : 2 ^ (n - 1).log2 ≤ n - 1 := Nat.log2_self_le (by omega)
  rw [nextPower, if_neg (by omega), Nat.one_shiftLeft, Nat.pow_succ]
  omega

/-! ## The two regimes -/

/-- Below the threshold, lists that double have a power of two of slots. -/
private theorem doubling_small {n : Nat} (h : n < 1024) :
    let slots := min (nextPower (max n 32)) 1024
    slots ∈ [32, 64, 128, 256, 512, 1024] ∧ n ≤ slots ∧
      ∀ other ∈ [32, 64, 128, 256, 512, 1024], n ≤ other → slots ≤ other := by
  have hle := le_nextPower (max n 32)
  have htop : nextPower (max n 32) ≤ 2 ^ 10 := nextPower_le (by omega)
  obtain ⟨k, hk⟩ := nextPower_eq_pow (max n 32)
  have hk5 : 5 ≤ k := by
    apply Nat.le_of_not_lt
    intro hlt
    have := Nat.pow_le_pow_right (show 0 < 2 by decide) (show k ≤ 4 by omega)
    omega
  have hk10 : k ≤ 10 := by
    apply Nat.le_of_not_lt
    intro hlt
    have := Nat.pow_le_pow_right (show 0 < 2 by decide) (show 11 ≤ k by omega)
    omega
  have hleast : ∀ j, 5 ≤ j → n ≤ 2 ^ j → nextPower (max n 32) ≤ 2 ^ j := by
    intro j hj hn
    have := Nat.pow_le_pow_right (show 0 < 2 by decide) hj
    exact nextPower_le (by omega)
  refine ⟨?_, by omega, ?_⟩
  · rw [show min (nextPower (max n 32)) 1024 = 2 ^ k by omega]
    have hcases : k = 5 ∨ k = 6 ∨ k = 7 ∨ k = 8 ∨ k = 9 ∨ k = 10 := by omega
    rcases hcases with rfl | rfl | rfl | rfl | rfl | rfl <;> decide
  · intro other hother hn
    simp only [List.mem_cons, List.not_mem_nil, or_false] at hother
    rcases hother with rfl | rfl | rfl | rfl | rfl | rfl
    · have := hleast 5 (by decide) hn; omega
    · have := hleast 6 (by decide) hn; omega
    · have := hleast 7 (by decide) hn; omega
    · have := hleast 8 (by decide) hn; omega
    · have := hleast 9 (by decide) hn; omega
    · have := hleast 10 (by decide) hn; omega

/-- The least multiple of a number that is not below another one. -/
private theorem roundUp_spec (step n : Nat) (hstep : 0 < step) :
    step ∣ (n + (step - 1)) / step * step ∧ n ≤ (n + (step - 1)) / step * step ∧
      ∀ other, step ∣ other → n ≤ other → (n + (step - 1)) / step * step ≤ other := by
  refine ⟨Nat.dvd_mul_left _ _, ?_, ?_⟩
  · have hlt := Nat.lt_mul_div_succ (n + (step - 1)) hstep
    rw [Nat.mul_succ, Nat.mul_comm step] at hlt
    omega
  · rintro other ⟨c, rfl⟩ hn
    rw [Nat.mul_comm step c]
    apply Nat.mul_le_mul_right
    apply Nat.le_of_lt_succ
    apply Nat.div_lt_of_lt_mul
    rw [Nat.mul_succ]
    omega

/-- The number of slots before the limit of record counts is looked at. -/
def slots (g : Growth) (records : Nat) : Nat :=
  if records < g.threshold then min (nextPower (max records leastSlots)) g.threshold
  else (records + (g.threshold - 1)) / g.threshold * g.threshold

/-- A list is given the least admissible number of slots that suffices. -/
theorem slots_spec (g : Growth) (records : Nat) :
    g.Admissible (g.slots records) ∧ records ≤ g.slots records ∧
      ∀ other, g.Admissible other → records ≤ other → g.slots records ≤ other := by
  cases g with
  | doubling =>
      by_cases h : records < 1024
      · obtain ⟨hmem, hle, hleast⟩ := doubling_small h
        have hslots : doubling.slots records = min (nextPower (max records 32)) 1024 := if_pos h
        rw [hslots]
        refine ⟨Or.inl hmem, hle, ?_⟩
        rintro other (hother | ⟨hpos, hdvd⟩) hn
        · exact hleast other hother hn
        · have := Nat.le_of_dvd hpos hdvd
          omega
      · obtain ⟨hdvd, hle, hleast⟩ := roundUp_spec 1024 records (by decide)
        have hslots : doubling.slots records = (records + (1024 - 1)) / 1024 * 1024 := if_neg h
        rw [hslots]
        refine ⟨Or.inr ⟨by omega, hdvd⟩, hle, ?_⟩
        rintro other (hother | ⟨-, hother⟩) hn
        · simp only [List.mem_cons, List.not_mem_nil, or_false] at hother
          exact hleast other (by omega) hn
        · exact hleast other hother hn
  | steady =>
      by_cases h : records < 32
      · have hslots : steady.slots records = min (nextPower (max records 32)) 32 := if_pos h
        rw [hslots, Nat.max_eq_right (by omega : records ≤ 32),
          Nat.min_eq_right (le_nextPower 32)]
        refine ⟨⟨by decide, Nat.dvd_refl 32⟩, by omega, ?_⟩
        rintro other ⟨hpos, hdvd⟩ -
        exact Nat.le_of_dvd hpos hdvd
      · obtain ⟨hdvd, hle, hleast⟩ := roundUp_spec 32 records (by decide)
        have hslots : steady.slots records = (records + (32 - 1)) / 32 * 32 := if_neg h
        rw [hslots]
        exact ⟨⟨by omega, hdvd⟩, hle, fun other hother hn => hleast other hother.2 hn⟩

theorem slots_lt_of_lt_threshold {g : Growth} {records : Nat} (h : records < g.threshold) :
    g.slots records < countLimit := by
  unfold slots
  rw [if_pos h]
  have hle := Nat.min_le_right (nextPower (max records leastSlots)) g.threshold
  cases g <;> simp only [threshold, groupSize, countLimit, UInt32.size] at hle ⊢ <;> omega

/-- There is a capacity exactly when the slots it takes are a record count. -/
theorem capacity?_eq_slots (g : Growth) (records : Nat) :
    g.capacity? records = if g.slots records < countLimit then some (g.slots records) else none := by
  by_cases h : records < g.threshold
  · rw [if_pos (slots_lt_of_lt_threshold h)]
    simp only [capacity?, slots, if_pos h]
  · simp only [capacity?, slots, if_neg h]

/-! ## Capacities -/

/-- The capacity is the least admissible number of slots that suffices, if it is a record count. -/
theorem capacity?_eq_some_iff {g : Growth} {records capacity : Nat} :
    g.capacity? records = some capacity ↔
      capacity < countLimit ∧ g.Admissible capacity ∧ records ≤ capacity ∧
        ∀ other, g.Admissible other → records ≤ other → capacity ≤ other := by
  obtain ⟨hadm, hle, hleast⟩ := slots_spec g records
  rw [capacity?_eq_slots]
  constructor
  · intro h
    split at h
    · next hlt =>
        cases h
        exact ⟨hlt, hadm, hle, hleast⟩
    · cases h
  · rintro ⟨hlt, hadm', hle', hleast'⟩
    have heq : g.slots records = capacity :=
      Nat.le_antisymm (hleast _ hadm' hle') (hleast' _ hadm hle)
    rw [if_pos (heq ▸ hlt), heq]

theorem le_capacity {g : Growth} {records capacity : Nat}
    (h : g.capacity? records = some capacity) : records ≤ capacity :=
  (capacity?_eq_some_iff.mp h).2.2.1

/-- Capacities are whole groups. -/
theorem groupSize_dvd_capacity {g : Growth} {records capacity : Nat}
    (h : g.capacity? records = some capacity) : groupSize ∣ capacity := by
  have hadm := (capacity?_eq_some_iff.mp h).2.1
  cases g with
  | doubling =>
      rcases hadm with hmem | ⟨-, hdvd⟩
      · simp only [List.mem_cons, List.not_mem_nil, or_false] at hmem
        simp only [groupSize]
        omega
      · exact Nat.dvd_trans (by decide) hdvd
  | steady => exact hadm.2

/-- All numbers of records between a number and its capacity have the same capacity. -/
theorem capacity?_of_le {g : Growth} {records more capacity : Nat}
    (h : g.capacity? records = some capacity) (hle : records ≤ more) (hmore : more ≤ capacity) :
    g.capacity? more = some capacity := by
  obtain ⟨hlt, hadm, -, hleast⟩ := capacity?_eq_some_iff.mp h
  exact capacity?_eq_some_iff.mpr
    ⟨hlt, hadm, hmore, fun other hother hn => hleast other hother (Nat.le_trans hle hn)⟩

/-- There is no capacity exactly when every admissible number of slots that suffices is too large to
be a record count. -/
theorem capacity?_eq_none_iff {g : Growth} {records : Nat} :
    g.capacity? records = none ↔
      ∀ slots, g.Admissible slots → records ≤ slots → countLimit ≤ slots := by
  obtain ⟨hadm, hle, hleast⟩ := slots_spec g records
  rw [capacity?_eq_slots]
  constructor
  · intro h other hother hn
    have hlimit : countLimit ≤ g.slots records := by
      by_contra hlt
      rw [if_pos (Nat.not_le.mp hlt)] at h
      cases h
    exact Nat.le_trans hlimit (hleast other hother hn)
  · intro h
    exact if_neg (Nat.not_lt.mpr (h _ hadm hle))

/-- Fewer records need no more slots. -/
theorem exists_capacity?_le {g : Growth} {fewer records capacity : Nat} (hle : fewer ≤ records)
    (h : g.capacity? records = some capacity) :
    ∃ less ≤ capacity, g.capacity? fewer = some less := by
  obtain ⟨hlt, hadm, hsuffices, -⟩ := capacity?_eq_some_iff.mp h
  have hless : g.slots fewer ≤ capacity :=
    (slots_spec g fewer).2.2 capacity hadm (Nat.le_trans hle hsuffices)
  refine ⟨g.slots fewer, hless, ?_⟩
  rw [capacity?_eq_slots, if_pos (Nat.lt_of_le_of_lt hless hlt)]

/-- **The capacity is the least admissible one.** A list that must hold a number of records is given
the least admissible number of slots that suffices and is a record count, and none exactly when
there is no such number. It follows that a capacity suffices, that it is a whole number of groups
which extents cover exactly, that it is the capacity of every number of records between the one
asked for and itself, and that fewer records never have a greater one. -/
theorem capacity?_isLeast (g : Growth) (records : Nat) :
    (∀ capacity, g.capacity? records = some capacity ↔
      IsLeast {slots | g.Admissible slots ∧ records ≤ slots ∧ slots < countLimit} capacity) ∧
    (g.capacity? records = none ↔
      ¬ ∃ slots, g.Admissible slots ∧ records ≤ slots ∧ slots < countLimit) ∧
    ∀ capacity, g.capacity? records = some capacity →
      records ≤ capacity ∧ groupSize ∣ capacity ∧
      g.capacity? capacity = some capacity ∧
      (∀ more, records ≤ more → more ≤ capacity → g.capacity? more = some capacity) ∧
      (∀ fewer ≤ records, ∃ less ≤ capacity, g.capacity? fewer = some less) ∧
      ∀ layout : Layout, (layout.extents capacity).rows = capacity := by
  refine ⟨fun capacity => ⟨?_, ?_⟩, ?none, fun capacity h => ?derived⟩
  · intro h
    obtain ⟨hlt, hadm, hle, hleast⟩ := capacity?_eq_some_iff.mp h
    exact ⟨⟨hadm, hle, hlt⟩, fun other hother => hleast other hother.1 hother.2.1⟩
  · rintro ⟨⟨hadm, hle, hlt⟩, hleast⟩
    refine capacity?_eq_some_iff.mpr ⟨hlt, hadm, hle, fun other hother hn => ?_⟩
    -- a number of slots that is no record count is greater than one that is
    by_cases hcount : other < countLimit
    · exact hleast ⟨hother, hn, hcount⟩
    · omega
  case none =>
    simp only [capacity?_eq_none_iff, not_exists, not_and, Nat.not_lt]
  case derived =>
    have hle := le_capacity h
    have hdvd := groupSize_dvd_capacity h
    exact ⟨hle, hdvd, capacity?_of_le h hle (Nat.le_refl _), fun more => capacity?_of_le h,
      fun fewer hfewer => exists_capacity?_le hfewer h,
      fun layout => layout.rows_extents_of_dvd hdvd⟩

/-- The greatest capacity, and the first number of records that has none. -/
example : doubling.capacity? 4294966272 = some 4294966272 ∧
    doubling.capacity? 4294966273 = none := by decide

/-! ## Rooms -/

/-- The capacity of a list that has been given room for a number of records. A list without
records has never been given any. -/
def room? (g : Growth) (records : Nat) : Option Nat :=
  if records = 0 then some 0 else g.capacity? records

theorem room?_zero (g : Growth) : g.room? 0 = some 0 := rfl

theorem room?_of_pos {g : Growth} {records : Nat} (h : 0 < records) :
    g.room? records = g.capacity? records :=
  if_neg (Nat.ne_of_gt h)

theorem room?_of_le {g : Growth} {records more capacity : Nat}
    (h : g.room? records = some capacity) (hle : records ≤ more) (hmore : more ≤ capacity) :
    g.room? more = some capacity := by
  unfold room? at h ⊢
  by_cases hzero : records = 0
  · rw [if_pos hzero, Option.some.injEq] at h
    rw [if_pos (by omega), h]
  · rw [if_neg hzero] at h
    rw [if_neg (by omega)]
    exact capacity?_of_le h hle hmore

/-! ## Unused slots -/

/-- Below the threshold fewer slots are left over than there are records, or than a group has. -/
theorem unused_lt_of_lt_threshold {g : Growth} {records capacity : Nat}
    (h : g.room? records = some capacity) (hlt : records < g.threshold) :
    capacity - records < max records leastSlots := by
  by_cases hzero : records = 0
  · rw [room?, if_pos hzero, Option.some.injEq] at h
    rw [← h, hzero]
    decide
  · rw [room?, if_neg hzero, capacity?, if_pos hlt, Option.some.injEq] at h
    have hslots : capacity ≤ nextPower (max records leastSlots) := h ▸ Nat.min_le_left _ _
    by_cases hfew : records ≤ leastSlots
    · -- a power of two itself: the least number of slots
      rw [Nat.max_eq_right hfew] at hslots ⊢
      have hpower : nextPower leastSlots = leastSlots := by decide
      omega
    · rw [Nat.max_eq_left (by omega)] at hslots ⊢
      have hdouble : nextPower records < 2 * records :=
        nextPower_lt_two_mul (by simp only [leastSlots, groupSize] at hfew; omega)
      omega

/-- From the threshold on fewer slots are left over than a list grows by. -/
theorem unused_lt_of_threshold_le {g : Growth} {records capacity : Nat}
    (h : g.room? records = some capacity) (hle : g.threshold ≤ records) :
    capacity - records < g.threshold := by
  have hpos : 0 < g.threshold := by cases g <;> decide
  have hslots : g.slots records =
      (records + (g.threshold - 1)) / g.threshold * g.threshold := if_neg (Nat.not_lt.mpr hle)
  rw [room?_of_pos (by omega), capacity?_eq_slots] at h
  split at h
  · rw [Option.some.injEq, hslots] at h
    have hround := Nat.div_mul_le_self (records + (g.threshold - 1)) g.threshold
    omega
  · cases h

end InvertedFile.Growth
