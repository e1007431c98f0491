import InvertedFile.Proofs.InvertedList.RoundTrip

/-!
# What is stored depends on what is published

The encoding of a list reads its buffers, and the buffers hold more than the
published records: what an earlier size had published, what a writer has put
behind the records and not published, and what a copy of whole groups has
carried along. None of it is stored. Two lists that publish the same records
are stored by the same action, with the same buffers charged and the same bytes
written, whatever their layouts, their capacities and their unused slots.

The argument compares two runs. The encoding sees of a list its size, the ids
of its first records and these records in the flat order, and for each of the
three there is a lemma that two lists agree on it. `recordBytes` then tells the
bytes themselves, as a function of ids and records in which no list occurs.

## Main results

* `storedIds_congr`, `flatRecords_congr` — what the encoding sees of a list.
* `writeRecord_congr` — lists with the same published records are stored alike.
* `IsImage.flatten_eq`, `written_of_writeRecord` — the bytes that are written.
-/

namespace InvertedFile

/-- A flat batch is known by its records. -/
theorem eq_of_flatRecord {α : Type} {dim n : Nat} {flat flat' : Array α} (hdim : 0 < dim)
    (hsize : flat.size = n * dim) (hsize' : flat'.size = n * dim)
    (h : ∀ r < n, flatRecord dim flat' r = flatRecord dim flat r) : flat' = flat :=
  Interleave.eq_of_rows hdim hsize' hsize fun r hr d hd => by
    rw [← getElem?_flatRecord hd, h r hr, getElem?_flatRecord hd]

namespace InvertedList

variable {t : ElementType} {i : IdType}

/-! ## Two lists with the same published records -/

section Published

variable {l l' : InvertedList t i}

theorem size_congr (hl : l.WellFormed) (hl' : l'.WellFormed)
    (hpublished : l'.published = l.published) : l'.size = l.size := by
  rw [← length_published hl, ← length_published hl', hpublished]

/-- The published slots hold the same ids and records. -/
theorem slot_congr (hl : l.WellFormed) (hl' : l'.WellFormed)
    (hpublished : l'.published = l.published) {p : Nat} (hp : p < l.size) :
    l'.ids[p]? = l.ids[p]? ∧ l'.extents.recordOf l'.data p = l.extents.recordOf l.data p := by
  have hp' : p < l'.size := (size_congr hl hl' hpublished).symm ▸ hp
  have hslot := getElem?_published hl' p
  rw [hpublished, getElem?_published hl, if_pos hp, if_pos hp'] at hslot
  obtain ⟨id, hid⟩ := Option.isSome_iff_exists.mp (hl.isSome_slot hp)
  obtain ⟨id', hid'⟩ := Option.isSome_iff_exists.mp (hl'.isSome_slot hp')
  rw [hid, hid', Option.map_some, Option.map_some, Option.some.injEq, Prod.mk.injEq] at hslot
  exact ⟨by rw [hid, hid', hslot.1], hslot.2.symm⟩

theorem storedIds_congr (hl : l.WellFormed) (hl' : l'.WellFormed)
    (hpublished : l'.published = l.published) (length : Nat) :
    l'.storedIds length = l.storedIds length := by
  have hids : l'.imageIds length = l.imageIds length := by
    apply Array.ext_getElem?
    intro p
    by_cases hp : p < length
    · rw [getElem?_imageIds hl' hp, getElem?_imageIds hl hp, size_congr hl hl' hpublished]
      by_cases hlive : p < l.size
      · rw [if_pos hlive, if_pos hlive, (slot_congr hl hl' hpublished hlive).1]
      · rw [if_neg hlive, if_neg hlive]
    · rw [Array.getElem?_eq_none (by rw [size_imageIds hl']; omega),
        Array.getElem?_eq_none (by rw [size_imageIds hl]; omega)]
  rw [storedIds_ok hl', storedIds_ok hl, hids]

/-- The flat order of the first records, record by record. -/
private theorem flatRecords_of_size_le (hl : l.WellFormed) {n : Nat} (hn : n ≤ l.size) :
    ∃ flat, flatRecords l.data l.extents n = .ok flat ∧ flat.size = n * l.spec.dim ∧
      ∀ r < n, flatRecord l.spec.dim flat r = l.extents.recordOf l.data r := by
  obtain ⟨flat, hflat, hsize, hcell⟩ := flatRecords_ok (l.spec.layout.veclen_extents_pos _)
    (l.spec.layout.dim_extents_pos _) hl.size_data
    (hl.rows_eq.symm ▸ Nat.le_trans hn hl.size_le)
  rw [← extents] at hflat hcell hsize
  refine ⟨flat, hflat, l.dim_extents ▸ hsize, ?_⟩
  intro r hr
  have hlast : (r + 1) * l.extents.dim ≤ flat.size := hsize.symm ▸ Nat.mul_le_mul_right _ hr
  have hrecord := Extents.recordOf_eq_flatRecord hlast fun d hd => (hcell r hr d hd).symm
  rw [hrecord, dim_extents]

/-- The published records come out in the same flat order, from whatever layout. -/
theorem flatRecords_congr (hl : l.WellFormed) (hl' : l'.WellFormed)
    (hdim : l'.spec.dim = l.spec.dim) (hpublished : l'.published = l.published) {n : Nat}
    (hn : n ≤ l.size) :
    flatRecords l'.data l'.extents n = flatRecords l.data l.extents n := by
  obtain ⟨flat, hflat, hsize, hrecord⟩ := flatRecords_of_size_le hl hn
  obtain ⟨flat', hflat', hsize', hrecord'⟩ := flatRecords_of_size_le hl'
    ((size_congr hl hl' hpublished).symm ▸ hn)
  rw [hdim] at hsize' hrecord'
  have hpos : 0 < l.spec.dim := l.spec.layout.dim_pos
  have hsame : flat' = flat := by
    refine eq_of_flatRecord hpos hsize hsize' fun r hr => ?_
    rw [hrecord r hr, hrecord' r hr]
    exact (slot_congr hl hl' hpublished (Nat.lt_of_lt_of_le hr hn)).2
  rw [hflat, hflat', hsame]

/-- The same is copied out of lists with the same published records. -/
theorem gather_congr (hl : l.WellFormed) (hl' : l'.WellFormed)
    (hdim : l'.spec.dim = l.spec.dim) (hpublished : l'.published = l.published) (length : Nat) :
    l'.gather length = l.gather length := by
  have hflat := flatRecords_congr hl hl' hdim hpublished (Nat.min_le_right length l.size)
  simp only [gather, hdim, size_congr hl hl' hpublished, dim_extents,
    storedIds_congr hl hl' hpublished, hflat]

/-- Lists with the same published records are stored by the same action. -/
theorem writeRecord_congr (hl : l.WellFormed) (hl' : l'.WellFormed)
    (hdim : l'.spec.dim = l.spec.dim) (hpublished : l'.published = l.published)
    (store : ListSpec) (length : Option UInt32) :
    l'.writeRecord store length = l.writeRecord store length := by
  simp only [writeRecord, imageLength, hdim, size_congr hl hl' hpublished,
    gather_congr hl hl' hdim hpublished]

end Published

/-! ## The bytes -/

/-- Records in the order of a layout. All else in the last group is zero. -/
def arranged (store : Layout) (records : List (List (Word t))) : Array (Word t) :=
  Array.ofFn fun k : Fin (store.extents records.length).length =>
    (records[Interleave.recordAt store.dim store.veclen k]?.bind
      fun record => record[Interleave.columnAt store.dim store.veclen k]?).getD 0

theorem size_arranged (store : Layout) (records : List (List (Word t))) :
    (arranged store records).size = (store.extents records.length).length :=
  Array.size_ofFn

theorem getElem?_arranged {store : Layout} {records : List (List (Word t))} {k : Nat}
    (hk : k < (store.extents records.length).length) :
    (arranged store records)[k]? =
      some ((records[Interleave.recordAt store.dim store.veclen k]?.bind
        fun record => record[Interleave.columnAt store.dim store.veclen k]?).getD 0) := by
  rw [arranged, Array.getElem?_ofFn, dif_pos hk]

/-- The bytes that stand for records under ids. -/
def recordBytes (store : Layout) (slots : List (Id i × List (Word t))) : Bytes :=
  if slots.isEmpty then LittleEndian.encode 4 0
  else (recordFields (slots.map Prod.fst).toArray (store.extents slots.length)
    (arranged store (slots.map Prod.snd))).flatten

/-- The ids of an image are those of its records. -/
theorem imageIds_eq_padded {l : InvertedList t i} (h : l.WellFormed) (length : Nat) :
    l.imageIds length = ((l.padded length).map Prod.fst).toArray := by
  apply Array.toList_inj.mp
  apply List.ext_getElem?
  intro p
  rw [Array.getElem?_toList, List.getElem?_map]
  by_cases hp : p < length
  · rw [getElem?_imageIds h hp, getElem?_padded h hp]
    by_cases hlive : p < l.size
    · rw [if_pos hlive, if_pos hlive, Option.map_map]
      exact Option.map_id_apply.symm
    · rw [if_neg hlive, if_neg hlive]
      rfl
  · rw [Array.getElem?_eq_none (by rw [size_imageIds h]; omega),
      List.getElem?_eq_none (by rw [length_padded h]; omega)]
    rfl

/-- A column of a record of an image, published or not. -/
theorem column_padded {l : InvertedList t i} (h : l.WellFormed) {length p d : Nat}
    (hd : d < l.spec.dim) :
    (((l.padded length).map Prod.snd)[p]?.bind fun record => record[d]?).getD 0 =
      if p < min length l.size then
        l.data[Interleave.position l.spec.dim l.spec.veclen p d]?.getD 0
      else 0 := by
  rw [List.getElem?_map]
  by_cases hp : p < length
  · rw [getElem?_padded h hp]
    by_cases hlive : p < l.size
    · obtain ⟨id, hid⟩ := Option.isSome_iff_exists.mp (h.isSome_slot hlive)
      rw [if_pos hlive, if_pos (by omega), hid]
      show ((l.extents.recordOf l.data p)[d]?).getD 0 = _
      rw [h.getElem?_record (Nat.lt_of_lt_of_le hlive h.size_le) hd]
    · rw [if_neg hlive, if_neg (by omega)]
      show ((List.replicate l.spec.dim (0 : Word t))[d]?).getD 0 = 0
      rw [List.getElem?_replicate, if_pos hd, Option.getD_some]
  · rw [List.getElem?_eq_none (by rw [length_padded h]; omega), if_neg (by omega)]
    rfl

/-- The words of an image are its records in the order of the store. -/
theorem ImageWords.eq_arranged {l : InvertedList t i} (h : l.WellFormed) {store : Layout}
    (hdim : store.dim = l.spec.dim) {length : Nat} {words : Array (Word t)}
    (hwords : ImageWords l store length words) :
    words = arranged store ((l.padded length).map Prod.snd) := by
  have hlength : ((l.padded length).map Prod.snd).length = length := by
    rw [List.length_map, length_padded h]
  apply Array.ext_getElem?
  intro k
  by_cases hk : k < (store.extents length).length
  · have hplace : k < (store.extents length).groups * (groupSize * store.dim) := by
      rw [Extents.length, Extents.groupLength, store.dim_extents] at hk
      exact hk
    have hrow : Interleave.recordAt store.dim store.veclen k < (store.extents length).rows :=
      Interleave.recordAt_lt hplace
    have hcolumn := Interleave.columnAt_lt store.veclen_pos store.veclen_dvd_dim store.dim_pos k
    have hcell := hwords.cell _ hrow _ hcolumn
    rw [Interleave.position_recordAt_columnAt store.veclen_pos store.veclen_dvd_dim
      store.dim_pos k] at hcell
    have hbound : k < words.size := hwords.size_eq.symm ▸ hk
    have hword : words[k]? = some words[k] := Array.getElem?_eq_getElem hbound
    rw [getElem?_arranged (hlength.symm ▸ hk), column_padded h (hdim ▸ hcolumn), hword]
    rw [hword] at hcell
    split at hcell
    · next hlive => rw [if_pos hlive, ← hcell, Option.getD_some]
    · next hblank => rw [if_neg hblank, hcell]
  · rw [Array.getElem?_eq_none (by rw [hwords.size_eq]; omega),
      Array.getElem?_eq_none (by rw [size_arranged, hlength]; omega)]

/-- An image is the bytes of the records that are stored, and nothing else of the list is in it. -/
theorem IsImage.flatten_eq {l : InvertedList t i} (h : l.WellFormed) {store : Layout}
    (hdim : store.dim = l.spec.dim) {length : Nat} {fields : List Bytes}
    (himage : IsImage l store length fields) :
    fields.flatten = recordBytes store (l.padded length) := by
  have hlength := length_padded h length
  cases himage with
  | empty =>
      rw [recordBytes, if_pos (List.isEmpty_iff_length_eq_zero.mpr hlength)]
      rfl
  | @records _ words hpos hwords =>
      have hsome : ¬ (l.padded length).isEmpty := by
        rw [List.isEmpty_iff_length_eq_zero, hlength]
        omega
      rw [recordBytes, if_neg hsome, hlength, imageIds_eq_padded h, hwords.eq_arranged h hdim]

/-- The image of a list as it is. -/
theorem IsImage.flatten_eq_published {l : InvertedList t i} (h : l.WellFormed) {store : Layout}
    (hdim : store.dim = l.spec.dim) {fields : List Bytes} (himage : IsImage l store l.size fields) :
    fields.flatten = recordBytes store l.published := by
  rw [himage.flatten_eq h hdim, padded_size h]

/-- What is written of a list are the bytes of its published records, as far as they are wanted. -/
theorem written_of_writeRecord {l : InvertedList t i} (h : l.WellFormed) {store : ListSpec}
    {length : Option UInt32} {tr out : Transfer Sink}
    (hwrite : l.writeRecord store length tr = .ok () out) :
    out.stream.written =
      tr.stream.written ++ recordBytes store.layout (l.padded (l.imageLength length)) := by
  obtain ⟨hdim, fields, himage, hwritten⟩ := image_of_writeRecord h hwrite
  rw [hwritten, himage.flatten_eq h hdim]

end InvertedList

end InvertedFile
