import Mathlib.Data.List.Basic
import InvertedFile.InvertedList.Records
import InvertedFile.Proofs.Interleave.Movement
import InvertedFile.Proofs.Layout.Capacity

/-!
# The records of a list, one by one

`recordOf` and `published` are lists made from a buffer. Here they are read
element by element, which is how two of them are compared: a record is known
by the elements at its places, and the published records by the ids and the
records of the published slots.

A list that is well formed has room for every slot of its capacity, so that
nothing is lost when its records are gathered.

## Main results

* `getElem?_published` — the published records, by slot.
* `published_cut` — a list that is cut publishes its first records.
* `recordOf_congr`, `recordOf_eq_flatRecord` — when two buffers, or a buffer
  and a flat batch, hold the same record.
* `WellFormed.rows_eq`, `WellFormed.covers` — the slots of a well-formed list
  lie inside its buffers.
-/

namespace InvertedFile

theorem getElem?_filterMap_range {β : Type} {f : Nat → Option β} {n : Nat}
    (h : ∀ k < n, (f k).isSome) (p : Nat) :
    ((List.range n).filterMap f)[p]? = if p < n then f p else none := by
  induction n with
  | zero => rfl
  | succ n ih =>
      have ih := ih fun k hk => h k (by omega)
      have hlength : ((List.range n).filterMap f).length = n := by
        rw [List.length_filterMap_eq_countP, List.countP_eq_length.mpr, List.length_range]
        intro k hk
        exact h k (by have := List.mem_range.mp hk; omega)
      obtain ⟨b, hb⟩ := Option.isSome_iff_exists.mp (h n (by omega))
      rw [List.range_succ, List.filterMap_append, List.getElem?_append, hlength, ih]
      rcases Nat.lt_trichotomy p n with hlt | rfl | hgt
      · rw [if_pos hlt, if_pos hlt, if_pos (by omega)]
      · rw [if_neg (by omega), if_pos (by omega), Nat.sub_self]
        simp [hb]
      · rw [if_neg (by omega), if_neg (by omega), List.getElem?_eq_none]
        simp [hb]
        omega

theorem length_filterMap_range {β : Type} {f : Nat → Option β} {n : Nat}
    (h : ∀ k < n, (f k).isSome) : ((List.range n).filterMap f).length = n := by
  rw [List.length_filterMap_eq_countP, List.countP_eq_length.mpr, List.length_range]
  intro k hk
  exact h k (List.mem_range.mp hk)

/-- Record `k` of a flat batch. -/
def flatRecord {α : Type} (dim : Nat) (codes : Array α) (k : Nat) : List α :=
  (codes.extract (k * dim) ((k + 1) * dim)).toList

theorem getElem?_flatRecord {α : Type} {dim : Nat} {codes : Array α} {k d : Nat} (hd : d < dim) :
    (flatRecord dim codes k)[d]? = codes[k * dim + d]? := by
  have hnext : (k + 1) * dim = k * dim + dim := Nat.succ_mul k dim
  rw [flatRecord, Array.getElem?_toList, Array.getElem?_extract]
  by_cases h : d < min ((k + 1) * dim) codes.size - k * dim
  · rw [if_pos h]
  · rw [if_neg h, Array.getElem?_eq_none (by omega)]

theorem length_flatRecord {α : Type} {dim : Nat} {codes : Array α} {k : Nat}
    (h : (k + 1) * dim ≤ codes.size) : (flatRecord dim codes k).length = dim := by
  have hnext : (k + 1) * dim = k * dim + dim := Nat.succ_mul k dim
  rw [flatRecord, Array.length_toList, Array.size_extract]
  omega

theorem flatRecord_eq_take {α : Type} (dim : Nat) (codes : Array α) (k : Nat) :
    flatRecord dim codes k = (codes.toList.drop (k * dim)).take dim := by
  have hnext : (k + 1) * dim - k * dim = dim := by
    rw [Nat.succ_mul, Nat.add_sub_cancel_left]
  rw [flatRecord, Array.toList_extract, List.extract_eq_take_drop, hnext]

namespace Extents

variable {α : Type}

/-- The columns of a record that lies in the buffer. -/
theorem getElem?_recordOf {e : Extents} {data : Array α} {p d : Nat}
    (h : ∀ d < e.dim, Interleave.position e.dim e.veclen p d < data.size) (hd : d < e.dim) :
    (e.recordOf data p)[d]? = data[Interleave.position e.dim e.veclen p d]? := by
  rw [recordOf, getElem?_filterMap_range, if_pos hd]
  intro d hd
  rw [Array.getElem?_eq_getElem (h d hd)]
  rfl

/-- Records with the same elements at their places are one record. -/
theorem recordOf_congr {e f : Extents} {a b : Array α} {p q : Nat} (hdim : e.dim = f.dim)
    (h : ∀ d < e.dim, a[Interleave.position e.dim e.veclen p d]? =
      b[Interleave.position f.dim f.veclen q d]?) :
    e.recordOf a p = f.recordOf b q := by
  unfold recordOf
  rw [← hdim]
  apply List.filterMap_congr
  intro d hd
  rw [h d (List.mem_range.mp hd), hdim]

/-- A record of a buffer that has the elements of a list at its places is that list. -/
theorem recordOf_eq {e : Extents} {a : Array α} {p : Nat} {xs : List α}
    (hlength : xs.length = e.dim)
    (h : ∀ d < e.dim, a[Interleave.position e.dim e.veclen p d]? = xs[d]?) :
    e.recordOf a p = xs := by
  have hsome : ∀ d < e.dim, (a[Interleave.position e.dim e.veclen p d]?).isSome := by
    intro d hd
    rw [h d hd, List.getElem?_eq_getElem (by omega)]
    rfl
  apply List.ext_getElem?
  intro d
  rw [recordOf, getElem?_filterMap_range hsome]
  by_cases hd : d < e.dim
  · rw [if_pos hd, h d hd]
  · rw [if_neg hd, List.getElem?_eq_none (by omega)]

theorem recordOf_eq_flatRecord {e : Extents} {a codes : Array α} {p k : Nat}
    (hcodes : (k + 1) * e.dim ≤ codes.size)
    (h : ∀ d < e.dim, a[Interleave.position e.dim e.veclen p d]? = codes[k * e.dim + d]?) :
    e.recordOf a p = flatRecord e.dim codes k :=
  recordOf_eq (length_flatRecord hcodes) fun d hd => by rw [h d hd, getElem?_flatRecord hd]

end Extents

namespace Layout

theorem veclen_extents (l : Layout) (records : Nat) : (l.extents records).veclen = l.veclen :=
  rfl

theorem veclen_extents_pos (l : Layout) (records : Nat) : 0 < (l.extents records).veclen :=
  l.veclen_pos

theorem dim_extents_pos (l : Layout) (records : Nat) : 0 < (l.extents records).dim := by
  rw [dim_extents]
  exact l.dim_pos

end Layout

namespace InvertedList

variable {t : ElementType} {i : IdType}

/-- The records of a flat batch with their ids. -/
def batch (dim : Nat) (codes : Array (Word t)) (ids : Array (Id i)) :
    List (Id i × List (Word t)) :=
  (List.range ids.size).filterMap fun k => ids[k]?.map fun id => (id, flatRecord dim codes k)

theorem getElem?_batch (dim : Nat) (codes : Array (Word t)) (ids : Array (Id i)) (k : Nat) :
    (batch dim codes ids)[k]? = ids[k]?.map fun id => (id, flatRecord dim codes k) := by
  rw [batch, getElem?_filterMap_range]
  · by_cases hk : k < ids.size
    · rw [if_pos hk]
    · rw [if_neg hk, Array.getElem?_eq_none (by omega)]
      rfl
  · intro k hk
    simp [hk]

theorem length_batch (dim : Nat) (codes : Array (Word t)) (ids : Array (Id i)) :
    (batch dim codes ids).length = ids.size :=
  length_filterMap_range fun k hk => by simp [hk]

/-- A batch of one record more in front. -/
theorem batch_cons {dim : Nat} {columns : List (Word t)} (hcolumns : columns.length = dim)
    (codes : List (Word t)) (id : Id i) (ids : List (Id i)) :
    batch dim (columns ++ codes).toArray (id :: ids).toArray =
      (id, columns) :: batch dim codes.toArray ids.toArray := by
  apply List.ext_getElem?
  intro k
  rw [getElem?_batch]
  cases k with
  | zero =>
      rw [flatRecord_eq_take, Nat.zero_mul, List.drop_zero, List.take_left' hcolumns]
      rfl
  | succ k =>
      have hdrop : (k + 1) * dim = columns.length + k * dim := by
        rw [hcolumns, Nat.succ_mul, Nat.add_comm]
      have hrest : flatRecord dim (columns ++ codes).toArray (k + 1) =
          flatRecord dim codes.toArray k := by
        rw [flatRecord_eq_take, flatRecord_eq_take, hdrop, ← List.drop_drop, List.drop_left]
      rw [List.getElem?_cons_succ, getElem?_batch, hrest, List.getElem?_toArray,
        List.getElem?_toArray, List.getElem?_cons_succ]

theorem dim_extents (l : InvertedList t i) : l.extents.dim = l.spec.dim :=
  l.spec.layout.dim_extents l.capacity

theorem veclen_extents (l : InvertedList t i) : l.extents.veclen = l.spec.veclen :=
  rfl

namespace WellFormed

variable {l : InvertedList t i}

theorem groupSize_dvd (h : l.WellFormed) : groupSize ∣ l.capacity := by
  rcases h.capacity_eq with hzero | ⟨records, hcapacity⟩
  · rw [hzero]
    exact Nat.dvd_zero groupSize
  · exact Growth.groupSize_dvd_capacity hcapacity

theorem capacity_lt (h : l.WellFormed) : l.capacity < countLimit := by
  rcases h.capacity_eq with hzero | ⟨records, hcapacity⟩
  · rw [hzero]
    decide
  · exact Growth.capacity?_lt hcapacity

theorem size_lt (h : l.WellFormed) : l.size < countLimit :=
  Nat.lt_of_le_of_lt h.size_le h.capacity_lt

theorem rows_eq (h : l.WellFormed) : l.extents.rows = l.capacity :=
  l.spec.layout.rows_extents_of_dvd h.groupSize_dvd

theorem size_data_eq (h : l.WellFormed) : l.data.size = l.capacity * l.spec.dim := by
  rw [h.size_data, Extents.length_eq_rows_mul_dim, h.rows_eq, dim_extents]

/-- The bytes of a list are those of its slots. -/
theorem memoryBytes_eq (h : l.WellFormed) :
    l.memoryBytes = l.capacity * (l.spec.dim * t.size + i.size) := by
  rw [memoryBytes, h.size_data_eq, h.size_ids, Nat.mul_add, Nat.mul_assoc]

theorem covers (h : l.WellFormed) {p : Nat} (hp : p < l.capacity) :
    Interleave.Covers l.spec.dim p l.data := by
  have hcovers := Interleave.covers_of_extents h.size_data (h.rows_eq.symm ▸ hp)
  rwa [dim_extents] at hcovers

/-- Every column of every slot has its place in the buffer. -/
theorem position_lt (h : l.WellFormed) {p d : Nat} (hp : p < l.capacity) (hd : d < l.spec.dim) :
    Interleave.position l.spec.dim l.spec.veclen p d < l.data.size := by
  have hlt := Interleave.position_lt l.spec.layout.veclen_pos l.spec.layout.veclen_dvd_dim
    (h.rows_eq.symm ▸ hp : p < l.extents.rows) hd
  rwa [h.size_data, Extents.length, Extents.groupLength, dim_extents]

/-- A column of a record stands where the order of the words has it. -/
theorem getElem?_record (h : l.WellFormed) {p d : Nat} (hp : p < l.capacity)
    (hd : d < l.spec.dim) :
    (l.extents.recordOf l.data p)[d]? =
      l.data[Interleave.position l.spec.dim l.spec.veclen p d]? := by
  have hin : ∀ d < l.extents.dim,
      Interleave.position l.extents.dim l.extents.veclen p d < l.data.size := by
    rw [dim_extents, veclen_extents]
    exact fun d hd => h.position_lt hp hd
  rw [Extents.getElem?_recordOf hin (l.dim_extents.symm ▸ hd), dim_extents, veclen_extents]

theorem isSome_slot (h : l.WellFormed) {p : Nat} (hp : p < l.size) : (l.ids[p]?).isSome := by
  have hlt : p < l.ids.size := by
    have := h.size_le
    rw [h.size_ids]
    omega
  simp [hlt]

end WellFormed

/-- The published records, by slot. -/
theorem getElem?_published {l : InvertedList t i} (h : l.WellFormed) (p : Nat) :
    l.published[p]? =
      if p < l.size then l.ids[p]?.map fun id => (id, l.extents.recordOf l.data p) else none := by
  rw [published, getElem?_filterMap_range]
  intro p hp
  rw [Option.isSome_map]
  exact h.isSome_slot hp

theorem length_published {l : InvertedList t i} (h : l.WellFormed) :
    l.published.length = l.size :=
  length_filterMap_range fun p hp => by
    rw [Option.isSome_map]
    exact h.isSome_slot hp

/-! ## Fewer records -/

theorem setSize_ok {l : InvertedList t i} {size : Nat} (hroom : size ≤ l.capacity) :
    setSize size l = .ok () { l with size } := by
  change ((ensure (size ≤ l.capacity) _ : Action _ Unit) >>= _) l = _
  rw [Action.bind_ok (Action.ensure_ok hroom l)]
  rfl

theorem setSize_error {l : InvertedList t i} {size : Nat} (hroom : ¬ size ≤ l.capacity) :
    setSize size l = .error (.outOfBounds .listSize size l.capacity) l := by
  change ((ensure (size ≤ l.capacity) _ : Action _ Unit) >>= _) l = _
  rw [Action.bind_error (Action.ensure_error hroom _)]

theorem wellFormed_cut {l : InvertedList t i} (h : l.WellFormed) {keep : Nat}
    (hkeep : keep ≤ l.size) : ({ l with size := keep } : InvertedList t i).WellFormed where
  capacity_eq := h.capacity_eq
  size_data := h.size_data
  size_ids := h.size_ids
  size_le := Nat.le_trans hkeep h.size_le
  reserved_eq := h.reserved_eq

/-- A list that is cut publishes its first records. -/
theorem published_cut {l : InvertedList t i} (h : l.WellFormed) {keep : Nat}
    (hkeep : keep ≤ l.size) :
    ({ l with size := keep } : InvertedList t i).published = l.published.take keep := by
  apply List.ext_getElem?
  intro p
  rw [getElem?_published (wellFormed_cut h hkeep), List.getElem?_take]
  by_cases hp : p < keep
  · rw [if_pos hp, if_pos hp, getElem?_published h, if_pos (by omega)]
    rfl
  · rw [if_neg hp, if_neg hp]

end InvertedList

end InvertedFile
