import InvertedFile.Proofs.Interleave.Unpacking
import InvertedFile.Proofs.InvertedList.View

/-!
# One sequence of records, read in many ways

A view is read by the record, by the chunk of a record, by the batch and by the
whole group, and its ids are read beside them. Each of these reads finds its
places in the buffer by a computation of its own. What they show is one
sequence of records, the published ones as far as the view goes, and `Shows`
says how each read is a part of it.

A read looks at its range first. It refuses what reaches behind the view, and
where it does not refuse, it succeeds: there is no range that the checks let
through and the buffer cannot serve.

## Main results

* `View.Shows` — the reads of a view show one sequence of records.
* `View.Refuses` — the reads of a view refuse what it does not cover.
* `View.shows`, `View.refuses` — so do the reads of every view of a well-formed
  list.
-/

namespace InvertedFile

/-! ## Records side by side -/

namespace Interleave

variable {α : Type} {dim : Nat}

private theorem getElem?_flatten_lists {rows : List (List α)}
    (hwidth : ∀ row ∈ rows, row.length = dim) (r : Nat) {d : Nat} (hd : d < dim) :
    rows.flatten[r * dim + d]? = rows[r]?.bind (·[d]?) := by
  -- along the records, each of which is as wide as a step of the place
  induction rows generalizing r with
  | nil => rfl
  | cons row rest ih =>
      have hrow : row.length = dim := hwidth row (List.mem_cons_self ..)
      rw [List.flatten_cons]
      cases r with
      | zero =>
          rw [List.getElem?_append_left (by omega), Nat.zero_mul, Nat.zero_add]
          rfl
      | succ r =>
          have hplace : (r + 1) * dim + d - row.length = r * dim + d := by
            rw [Nat.succ_mul, hrow]
            omega
          rw [List.getElem?_append_right (by rw [Nat.succ_mul]; omega), hplace,
            ih (fun row' hrow' => hwidth row' (List.mem_cons_of_mem row hrow')) r]
          rfl

/-- A column of one of the records that stand side by side. -/
theorem getElem?_flatten_rows {rows : Array (Array α)}
    (hwidth : ∀ row ∈ rows, row.size = dim) (r : Nat) {d : Nat} (hd : d < dim) :
    rows.flatten[r * dim + d]? = rows[r]?.bind (·[d]?) := by
  have hlists : ∀ row ∈ rows.toList.map Array.toList, row.length = dim := by
    intro row hrow
    obtain ⟨row, hmem, rfl⟩ := List.mem_map.mp hrow
    exact hwidth row (Array.mem_toList_iff.mp hmem)
  rw [← Array.getElem?_toList, Array.toList_flatten, getElem?_flatten_lists hlists r hd,
    List.getElem?_map, Array.getElem?_toList]
  cases rows[r]? <;> simp

theorem size_flatten_rows {rows : Array (Array α)}
    (hwidth : ∀ row ∈ rows, row.size = dim) : rows.flatten.size = rows.size * dim := by
  have hwidths : rows.map Array.size = Array.replicate rows.size dim := by
    apply Array.ext
    · simp
    · intro p hp hp'
      simpa using hwidth _ (Array.getElem_mem _)
  rw [Array.size_flatten, hwidths]
  simp

end Interleave

namespace View

variable {t : ElementType} {i : IdType}

/-- Records of the complete groups of a view. -/
def grouped (v : View t i) : Nat :=
  v.size / groupSize * groupSize

/-- The reads of a view show these records under these ids, and no others. -/
structure Shows (v : View t i) (ids : Array (Id i)) (records : Array (Array (Word t))) : Prop where
  size_records : records.size = v.size
  /-- The records are the first ones that are published. -/
  published_eq : v.list.published.take v.size = ids.toList.zip (records.toList.map Array.toList)
  ids_eq : v.ids = .ok ids
  record_eq : ∀ (p : Nat) (flat : Array (Word t)), records[p]? = some flat →
    v.record p = .ok flat
  /-- A chunk is cut out of its record. -/
  chunk_eq : ∀ (p : Nat) (flat : Array (Word t)), records[p]? = some flat →
    ∀ c < v.dim / v.veclen,
      v.chunk p c = .ok (flat.extract (c * v.veclen) ((c + 1) * v.veclen))
  /-- A batch holds its records side by side, and unpacking it from the buffer gives the same. -/
  unpack_eq : ∀ start n out, start + n ≤ v.size → out.size = n * v.dim →
    v.unpack start out = .ok () (records.extract start (start + n)).flatten ∧
      Interleave.unpack v.list.extents start v.list.data out =
        .ok () (records.extract start (start + n)).flatten
  /-- The complete groups are what packing their records makes, and end before all others. -/
  completeGroups_eq : ∃ groups, v.completeGroups = .ok groups ∧
    (∀ data : Array (Word t), data.size = (v.list.spec.layout.extents v.grouped).length →
      Interleave.pack (v.list.spec.layout.extents v.grouped) 0
        (records.extract 0 v.grouped).flatten data = .ok () groups) ∧
    ∀ p d, v.size ≤ p → groups.size ≤ Interleave.position v.dim v.veclen p d

/-- The reads of a view refuse what the view does not cover, and nothing else. -/
structure Refuses (v : View t i) : Prop where
  record_eq_error : ∀ p e, v.record p = .error e ↔
    v.size < p + 1 ∧ e = .outOfBounds .publishedRecords (p + 1) v.size
  chunk_eq_error : ∀ p c e, v.chunk p c = .error e ↔
    v.size < p + 1 ∧ e = .outOfBounds .publishedRecords (p + 1) v.size ∨
      p + 1 ≤ v.size ∧ v.dim / v.veclen ≤ c ∧
        e = .outOfBounds .chunks (c + 1) (v.dim / v.veclen)
  /-- What is refused is not written to. -/
  unpack_eq_error : ∀ start out e after, v.unpack start out = .error e after ↔ after = out ∧
    (out.size % v.dim ≠ 0 ∧ e = .invalid (.partialOutput out.size v.dim) ∨
      out.size % v.dim = 0 ∧ v.size < start + out.size / v.dim ∧
        e = .outOfBounds .publishedRecords (start + out.size / v.dim) v.size)

/-! ## The records a view goes to -/

variable {v : View t i}

theorem dim_pos (v : View t i) : 0 < v.dim :=
  v.list.spec.layout.dim_pos

theorem veclen_pos (v : View t i) : 0 < v.veclen :=
  v.list.spec.layout.veclen_pos

theorem veclen_dvd_dim (v : View t i) : v.veclen ∣ v.dim :=
  v.list.spec.layout.veclen_dvd_dim

theorem grouped_le (v : View t i) : v.grouped ≤ v.size :=
  Nat.div_mul_le_self _ _

theorem position_lt_grouped {p d : Nat} (hp : p < v.grouped) (hd : d < v.dim) :
    Interleave.position v.dim v.veclen p d < v.grouped * v.dim := by
  rw [grouped, Nat.mul_assoc]
  exact Interleave.position_lt v.veclen_pos v.veclen_dvd_dim hp hd

theorem grouped_le_position (v : View t i) {p : Nat} (hp : v.grouped ≤ p) (d : Nat) :
    v.grouped * v.dim ≤ Interleave.position v.dim v.veclen p d := by
  rw [grouped, Nat.mul_assoc]
  exact Interleave.le_position hp d

/-- Record `p` of the list of a view. -/
def row (v : View t i) (p : Nat) : Array (Word t) :=
  (v.list.extents.recordOf v.list.data p).toArray

/-- The records up to the size of a view. -/
def rows (v : View t i) : Array (Array (Word t)) :=
  Array.ofFn (n := v.size) fun p => v.row p

theorem size_rows (v : View t i) : v.rows.size = v.size :=
  Array.size_ofFn

theorem getElem?_rows {p : Nat} (hp : p < v.size) : v.rows[p]? = some (v.row p) := by
  simp [rows, hp]

theorem lt_of_getElem?_rows {p : Nat} {flat : Array (Word t)} (h : v.rows[p]? = some flat) :
    p < v.size ∧ flat = v.row p := by
  have hp : p < v.size := by
    rw [← size_rows]
    exact (Array.getElem?_eq_some_iff.mp h).1
  exact ⟨hp, Option.some.inj (h.symm.trans (getElem?_rows hp))⟩

/-- A record is known by its columns. -/
theorem eq_row {p : Nat} {flat : Array (Word t)} (hsize : flat.size = v.dim)
    (hcell : ∀ d < v.dim, flat[d]? = v.list.data[Interleave.position v.dim v.veclen p d]?) :
    flat = v.row p := by
  have hrecord : v.list.extents.recordOf v.list.data p = flat.toList := by
    apply Extents.recordOf_eq
    · rw [v.list.dim_extents]
      exact hsize
    · intro d hd
      rw [v.list.dim_extents] at hd ⊢
      rw [Array.getElem?_toList]
      exact (hcell d hd).symm
  rw [row, hrecord]

section Covered

variable (h : v.list.WellFormed) (hcapacity : v.size ≤ v.list.capacity)

include h in
theorem getElem?_row {p d : Nat} (hp : p < v.list.capacity) (hd : d < v.dim) :
    (v.row p)[d]? = v.list.data[Interleave.position v.dim v.veclen p d]? := by
  rw [row, List.getElem?_toArray]
  exact h.getElem?_record hp hd

include h in
theorem size_row {p : Nat} (hp : p < v.list.capacity) : (v.row p).size = v.dim := by
  have hsome : ∀ d < v.list.extents.dim, (v.list.data[Interleave.position v.list.extents.dim
      v.list.extents.veclen p d]?).isSome := by
    intro d hd
    rw [v.list.dim_extents] at hd
    rw [v.list.dim_extents, v.list.veclen_extents,
      Array.getElem?_eq_getElem (h.position_lt hp hd)]
    rfl
  exact (length_filterMap_range hsome).trans v.list.dim_extents

include h in
/-- A chunk stands in one piece, which is a piece of its record. -/
theorem extract_chunk {p c : Nat} (hp : p < v.list.capacity) (hc : c < v.dim / v.veclen) :
    Buffer.slice v.list.data (Interleave.position v.dim v.veclen p (c * v.veclen)) v.veclen =
      .ok ((v.row p).extract (c * v.veclen) ((c + 1) * v.veclen)) := by
  have hplace : Interleave.chunkPosition v.dim v.veclen p (c * v.veclen) =
      Interleave.position v.dim v.veclen p (c * v.veclen) :=
    Interleave.chunkPosition_eq_position p c v.veclen_pos
  have hinside := (h.covers hp).chunk_le v.veclen_dvd_dim v.veclen_pos hc
  have hlast : (c + 1) * v.veclen ≤ (v.row p).size := by
    rw [size_row h hp, Nat.succ_mul]
    exact Interleave.chunk_le_of_lt v.veclen_dvd_dim hc
  have hnext : (c + 1) * v.veclen = c * v.veclen + v.veclen := Nat.succ_mul c v.veclen
  rw [← hplace, Buffer.slice_eq_ok hinside]
  congr 1
  apply Array.ext_getElem?
  intro j
  rw [Array.getElem?_extract, Array.getElem?_extract]
  by_cases hj : j < v.veclen
  · rw [if_pos (by omega), if_pos (by omega),
      getElem?_row h hp (Interleave.chunk_column_lt v.veclen_dvd_dim hc hj),
      Interleave.position_chunk v.dim p c hj]
  · rw [if_neg (by omega), if_neg (by omega)]

include h hcapacity

theorem size_of_mem_rows {flat : Array (Word t)} (hflat : flat ∈ v.rows) : flat.size = v.dim := by
  obtain ⟨p, hp⟩ := Array.mem_iff_getElem?.mp hflat
  obtain ⟨hlt, rfl⟩ := lt_of_getElem?_rows hp
  exact size_row h (Nat.lt_of_lt_of_le hlt hcapacity)

theorem size_of_mem_extract {start stop : Nat} :
    ∀ flat ∈ v.rows.extract start stop, flat.size = v.dim := by
  intro flat hflat
  obtain ⟨k, hk⟩ := Array.mem_iff_getElem?.mp hflat
  rw [Array.getElem?_extract] at hk
  split at hk
  · exact size_of_mem_rows h hcapacity (Array.mem_of_getElem? hk)
  · cases hk

/-- A column of a batch of records of the view. -/
theorem getElem?_flatten_rows {start n r d : Nat} (hrange : start + n ≤ v.size) (hr : r < n)
    (hd : d < v.dim) :
    (v.rows.extract start (start + n)).flatten[r * v.dim + d]? =
      v.list.data[Interleave.position v.dim v.veclen (start + r) d]? := by
  have hp : start + r < v.size := by omega
  rw [Interleave.getElem?_flatten_rows (size_of_mem_extract h hcapacity) r hd, Array.getElem?_extract,
    size_rows, if_pos (by omega), getElem?_rows hp, Option.bind_some,
    getElem?_row h (Nat.lt_of_lt_of_le hp hcapacity) hd]

theorem size_flatten_rows {start n : Nat} (hrange : start + n ≤ v.size) :
    (v.rows.extract start (start + n)).flatten.size = n * v.dim := by
  rw [Interleave.size_flatten_rows (size_of_mem_extract h hcapacity), Array.size_extract, size_rows,
    Nat.min_eq_left hrange, Nat.add_sub_cancel_left]

/-- What is unpacked from the buffer are the records of the view. -/
theorem eq_flatten_rows {start n : Nat} {out out' : Array (Word t)}
    (hrange : start + n ≤ v.size) (hout : out.size = n * v.dim)
    (hunpacked : Interleave.Unpacked v.dim v.veclen start n v.list.data out out') :
    out' = (v.rows.extract start (start + n)).flatten := by
  refine Interleave.eq_of_rows v.dim_pos (hunpacked.size_eq.trans hout)
    (size_flatten_rows h hcapacity hrange) fun r hr d hd => ?_
  rw [hunpacked.row hr hd, getElem?_flatten_rows h hcapacity hrange hr hd]

/-! ## The reads, one by one -/

theorem record_ok {p : Nat} (hp : p < v.size) : v.record p = .ok (v.row p) := by
  have hwidth : v.dim ≤ (Array.replicate v.dim (0 : Word t)).size :=
    Nat.le_of_eq Array.size_replicate.symm
  obtain ⟨flat, hunpack, hsize, hcell⟩ := Interleave.unpackRecord_ok v.veclen_pos v.veclen_dvd_dim
    hwidth (h.covers (Nat.lt_of_lt_of_le hp hcapacity))
  have hrow : flat = v.row p := by
    refine eq_row (hsize.trans Array.size_replicate) fun d hd => ?_
    rw [hcell d, if_pos hd]
  refine Except.bind_eq_ok.mpr ⟨(), (v.checkPublished_eq_ok_iff p 1).mpr hp, ?_⟩
  simp only [hunpack, hrow]
  rfl

theorem chunk_ok {p c : Nat} (hp : p < v.size) (hc : c < v.dim / v.veclen) :
    v.chunk p c = .ok ((v.row p).extract (c * v.veclen) ((c + 1) * v.veclen)) := by
  refine Except.bind_eq_ok.mpr ⟨(), (v.checkPublished_eq_ok_iff p 1).mpr hp, ?_⟩
  refine Except.bind_eq_ok.mpr ⟨(), Except.ensure_eq_ok.mpr hc, ?_⟩
  exact extract_chunk h (Nat.lt_of_lt_of_le hp hcapacity) hc

theorem unpack_ok {start n : Nat} {out : Array (Word t)} (hrange : start + n ≤ v.size)
    (hout : out.size = n * v.dim) :
    v.unpack start out = .ok () (v.rows.extract start (start + n)).flatten := by
  obtain ⟨out', hrun, hunpacked⟩ := InvertedList.unpack_ok h hcapacity hrange hout
  rw [← eq_flatten_rows h hcapacity hrange hout hunpacked]
  exact hrun

/-- Unpacking the buffer of the list gives what unpacking the view does. -/
theorem interleave_unpack_ok {start n : Nat} {out : Array (Word t)} (hrange : start + n ≤ v.size)
    (hout : out.size = n * v.dim) :
    Interleave.unpack v.list.extents start v.list.data out =
      .ok () (v.rows.extract start (start + n)).flatten := by
  have hdim : v.list.extents.dim = v.dim := v.list.dim_extents
  have hroom : start + n ≤ v.list.extents.rows := by
    rw [h.rows_eq]
    omega
  have hwhole : out.size = n * v.list.extents.dim := by
    rw [hdim]
    exact hout
  obtain ⟨out', hrun, hunpacked⟩ := Interleave.unpack_ok (e := v.list.extents)
    (v.list.spec.layout.veclen_extents_pos _) (v.list.spec.layout.dim_extents_pos _) h.size_data
    hwhole hroom
  rw [hdim, v.list.veclen_extents] at hunpacked
  rw [hrun, eq_flatten_rows h hcapacity hrange hout hunpacked]

/-- The complete groups are the first places of the buffer. -/
theorem completeGroups_ok :
    v.completeGroups = .ok (v.list.data.extract 0 (v.grouped * v.dim)) := by
  have hrun := InvertedList.completeGroups_ok h hcapacity
  rw [Nat.zero_add, Extents.groupLength, Layout.dim_extents, Nat.mul_comm, ← Nat.mul_assoc] at hrun
  exact hrun

theorem groups_le : v.grouped * v.dim ≤ v.list.data.size := by
  rw [h.size_data_eq]
  exact Nat.mul_le_mul_right _ (Nat.le_trans v.grouped_le hcapacity)

theorem getElem?_groups (k : Nat) :
    (v.list.data.extract 0 (v.grouped * v.dim))[k]? =
      if k < v.grouped * v.dim then v.list.data[k]? else none := by
  rw [Array.getElem?_extract, Nat.min_eq_left (groups_le h hcapacity), Nat.sub_zero,
    Nat.zero_add]

/-- A buffer of the length of the complete groups that the records of the complete groups are packed
into holds the complete groups, whatever it has held. -/
theorem eq_groups {data packed : Array (Word t)} (hsize : data.size = v.grouped * v.dim)
    (hpacked : Interleave.Packed v.dim v.veclen 0 v.grouped
      (v.rows.extract 0 (0 + v.grouped)).flatten data packed) :
    packed = v.list.data.extract 0 (v.grouped * v.dim) := by
  have hrange : 0 + v.grouped ≤ v.size := by
    rw [Nat.zero_add]
    exact v.grouped_le
  refine Interleave.eq_of_cells v.veclen_pos v.veclen_dvd_dim v.dim_pos fun q d hd => ?_
  rw [hpacked.cell q d hd, getElem?_groups h hcapacity]
  by_cases hq : q < v.grouped
  · rw [if_pos (position_lt_grouped hq hd), if_pos ⟨Nat.zero_le q, by omega⟩, Nat.sub_zero,
      getElem?_flatten_rows h hcapacity hrange hq hd, Nat.zero_add]
  · -- a later record has no place in either of the two
    have hplace := v.grouped_le_position (Nat.le_of_not_lt hq) d
    rw [if_neg (by omega), if_neg (by omega)]
    exact Array.getElem?_eq_none (hsize.symm ▸ hplace)

/-- Packing the records of the complete groups makes the complete groups. -/
theorem pack_groups {data : Array (Word t)}
    (hsize : data.size = (v.list.spec.layout.extents v.grouped).length) :
    Interleave.pack (v.list.spec.layout.extents v.grouped) 0
      (v.rows.extract 0 v.grouped).flatten data =
        .ok () (v.list.data.extract 0 (v.grouped * v.dim)) := by
  let e := v.list.spec.layout.extents v.grouped
  have hdim : e.dim = v.dim := v.list.spec.layout.dim_extents v.grouped
  have hrows : e.rows = v.grouped := v.list.spec.layout.rows_extents_of_dvd (Nat.dvd_mul_left _ _)
  have hrange : 0 + v.grouped ≤ v.size := by
    rw [Nat.zero_add]
    exact v.grouped_le
  have hcodes : (v.rows.extract 0 (0 + v.grouped)).flatten.size = v.grouped * e.dim := by
    rw [size_flatten_rows h hcapacity hrange, hdim]
  have hlength : data.size = v.grouped * v.dim := by
    rw [hsize, Extents.length_eq_rows_mul_dim]
    exact congrArg₂ _ hrows hdim
  obtain ⟨packed, hrun, hpacked⟩ := Interleave.pack_ok (e := e)
    (v.list.spec.layout.veclen_extents_pos _) (v.list.spec.layout.dim_extents_pos _) hsize hcodes
    (Nat.le_of_eq (by rw [hrows, Nat.zero_add]) : 0 + v.grouped ≤ e.rows)
  rw [hdim] at hpacked
  rw [eq_groups h hcapacity hlength hpacked, Nat.zero_add] at hrun
  exact hrun

end Covered

/-! ## What is refused -/

theorem checkPublished_eq_error {start n : Nat} (hbehind : v.size < start + n) :
    v.checkPublished start n = .error (.outOfBounds .publishedRecords (start + n) v.size) :=
  if_neg (Nat.not_le.mpr hbehind)

theorem record_refused {p : Nat} (hp : v.size < p + 1) :
    v.record p = .error (.outOfBounds .publishedRecords (p + 1) v.size) := by
  rw [record, checkPublished_eq_error hp]
  rfl

theorem chunk_refused {p c : Nat} (hp : v.size < p + 1) :
    v.chunk p c = .error (.outOfBounds .publishedRecords (p + 1) v.size) := by
  rw [chunk, checkPublished_eq_error hp]
  rfl

theorem chunk_behind {p c : Nat} (hp : p + 1 ≤ v.size) (hc : v.dim / v.veclen ≤ c) :
    v.chunk p c = .error (.outOfBounds .chunks (c + 1) (v.dim / v.veclen)) := by
  have hchecked := (v.checkPublished_eq_ok_iff p 1).mpr hp
  simp only [chunk, hchecked, ensure_neg (Nat.not_lt.mpr hc)]
  rfl

theorem unpack_partial {out : Array (Word t)} (hout : out.size % v.dim ≠ 0) (start : Nat) :
    v.unpack start out = .error (.invalid (.partialOutput out.size v.dim)) out := by
  change ((ensure (out.size % v.dim = 0) _ : Action _ Unit) >>= _) out = _
  rw [Action.bind_error (Action.ensure_error hout _)]

theorem unpack_refused {start : Nat} {out : Array (Word t)} (hout : out.size % v.dim = 0)
    (hbehind : v.size < start + out.size / v.dim) :
    v.unpack start out =
      .error (.outOfBounds .publishedRecords (start + out.size / v.dim) v.size) out := by
  change ((ensure (out.size % v.dim = 0) _ : Action _ Unit) >>= _) out = _
  rw [Action.bind_ok (Action.ensure_ok hout out)]
  change (Action.ofExcept (v.checkPublished start (out.size / v.dim)) >>= _) out = _
  rw [Action.bind_error (Action.ofExcept_error (checkPublished_eq_error hbehind) out)]

/-! ## All reads together -/

/-- The records of a view are the first published ones. -/
theorem take_published (h : v.list.WellFormed) (hsize : v.size ≤ v.list.size) :
    v.list.published.take v.size =
      (v.list.ids.extract 0 (0 + v.size)).toList.zip (v.rows.toList.map Array.toList) := by
  have hcapacity : v.size ≤ v.list.capacity := Nat.le_trans hsize h.size_le
  apply List.ext_getElem?
  intro p
  rw [List.getElem?_take, InvertedList.getElem?_published h]
  by_cases hp : p < v.size
  · have hlt : p < v.list.size := Nat.lt_of_lt_of_le hp hsize
    obtain ⟨id, hid⟩ := Option.isSome_iff_exists.mp (h.isSome_slot hlt)
    rw [if_pos hp, if_pos hlt, hid]
    refine (List.getElem?_zip_eq_some.mpr ⟨?_, ?_⟩).symm
    · rw [Array.getElem?_toList, Array.getElem?_extract, h.size_ids, if_pos (by omega),
        Nat.zero_add]
      exact hid
    · rw [List.getElem?_map, Array.getElem?_toList, getElem?_rows hp]
      rfl
  · rw [if_neg hp, List.getElem?_eq_none]
    rw [List.length_zip, List.length_map, Array.length_toList, Array.length_toList, size_rows]
    omega

/-- A view of a well-formed list shows its published records, as far as it goes. -/
theorem shows (h : v.list.WellFormed) (hsize : v.size ≤ v.list.size) :
    ∃ ids records, v.Shows ids records := by
  have hcapacity : v.size ≤ v.list.capacity := Nat.le_trans hsize h.size_le
  refine ⟨v.list.ids.extract 0 (0 + v.size), v.rows, ?_⟩
  constructor
  case size_records => exact v.size_rows
  case published_eq => exact take_published h hsize
  case ids_eq => exact InvertedList.ids_ok h hcapacity
  case record_eq =>
    intro p flat hflat
    obtain ⟨hp, rfl⟩ := lt_of_getElem?_rows hflat
    exact record_ok h hcapacity hp
  case chunk_eq =>
    intro p flat hflat c hc
    obtain ⟨hp, rfl⟩ := lt_of_getElem?_rows hflat
    exact chunk_ok h hcapacity hp hc
  case unpack_eq =>
    intro start count out hrange hout
    exact ⟨unpack_ok h hcapacity hrange hout, interleave_unpack_ok h hcapacity hrange hout⟩
  case completeGroups_eq =>
    refine ⟨_, completeGroups_ok h hcapacity, fun data hdata => pack_groups h hcapacity hdata,
      fun p d hp => ?_⟩
    calc (v.list.data.extract 0 (v.grouped * v.dim)).size
        ≤ v.grouped * v.dim := by
          rw [Array.size_extract]
          omega
      _ ≤ Interleave.position v.dim v.veclen p d :=
          v.grouped_le_position (Nat.le_trans v.grouped_le hp) d

/-- A view of a well-formed list refuses what it does not cover. -/
theorem refuses (h : v.list.WellFormed) (hcapacity : v.size ≤ v.list.capacity) : v.Refuses := by
  constructor
  case record_eq_error =>
    intro p e
    by_cases hp : p < v.size
    · have hin : ¬ v.size < p + 1 := by omega
      simp [record_ok h hcapacity hp, hin]
    · have hbehind : v.size < p + 1 := by omega
      simp [record_refused hbehind, hbehind, eq_comm]
  case chunk_eq_error =>
    intro p c e
    by_cases hp : p < v.size
    · have hin : ¬ v.size < p + 1 := by omega
      by_cases hc : c < v.dim / v.veclen
      · have hin' : ¬ v.dim / v.veclen ≤ c := Nat.not_le.mpr hc
        simp [chunk_ok h hcapacity hp hc, hin, hin']
      · have hbehind : v.dim / v.veclen ≤ c := Nat.not_lt.mp hc
        simp [chunk_behind hp hbehind, hin, hbehind, Nat.succ_le_of_lt hp, eq_comm]
    · have hbehind : v.size < p + 1 := by omega
      have hout : ¬ p + 1 ≤ v.size := Nat.not_le.mpr hbehind
      simp [chunk_refused hbehind, hbehind, hout, eq_comm]
  case unpack_eq_error =>
    intro start out e after
    by_cases hwhole : out.size % v.dim = 0
    · have hout : out.size = out.size / v.dim * v.dim :=
        (Nat.div_mul_cancel (Nat.dvd_of_mod_eq_zero hwhole)).symm
      by_cases hrange : start + out.size / v.dim ≤ v.size
      · have hin : ¬ v.size < start + out.size / v.dim := Nat.not_lt.mpr hrange
        simp [unpack_ok h hcapacity hrange hout, hwhole, hin]
      · have hbehind : v.size < start + out.size / v.dim := Nat.not_le.mp hrange
        simp [unpack_refused hwhole hbehind, hwhole, hbehind, eq_comm, and_comm]
    · simp [unpack_partial hwhole, hwhole, eq_comm, and_comm]

end View

end InvertedFile
