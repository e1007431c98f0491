import InvertedFile.Proofs.InvertedList.Loading
import InvertedFile.Proofs.InvertedList.Saving

/-!
# Writing a list and reading it again

Three layouts meet when a stored list is read: the one it had, the one it is
stored in and the one it is read into. None of the three shows in its records.
What is read are the published records as far as they are wanted, and where
more are wanted, zero records under the id of an unused slot.

The writer lays the words out in the order of the store and the reader takes
them out of it, each in coordinates of its own. `ImageWords.recordOf` brings
the two together: it says which record of the list the image holds at a place.

## Main results

* `readRecord_of_image` — an image reads back whenever the buffers are granted.
* `readRecord_writeRecord` — so does what has been written, with anything
  behind it.
-/

namespace InvertedFile.InvertedList

variable {t : ElementType} {i : IdType}

/-- The buffers that reading a number of records takes are granted. -/
def ReadingGranted (t : ElementType) (i : IdType) (device : ListSpec) (store : Layout)
    (length : Nat) (b : Budget) : Prop :=
  length = 0 ∨ ∃ capacity, device.growth.capacity? length = some capacity ∧
    StoredGranted t i device store length capacity b

/-- The published records as far as `length` of them are wanted, and zero records without an id
where there are not as many. -/
def padded (l : InvertedList t i) (length : Nat) : List (Id i × List (Word t)) :=
  l.published.take length ++
    List.replicate (length - l.size) (Id.invalid i, List.replicate l.spec.dim 0)

/-- `after` is what is read in the layout of `device` where `l` was stored with `length` records. -/
structure ReadsBack (l : InvertedList t i) (device : ListSpec) (length : Nat)
    (after : InvertedList t i) : Prop where
  spec_eq : after.spec = device
  size_eq : after.size = length
  published_eq : after.published = l.padded length
  unused : ∀ p < after.capacity, length ≤ p → after.ids[p]? = some (Id.invalid i)
  capacity_zero : length = 0 → after.capacity = 0
  capacity_pos : 0 < length → device.growth.capacity? length = some after.capacity
  wellFormed : after.WellFormed

theorem ReadsBack.tight {l after : InvertedList t i} {device : ListSpec} {length : Nat}
    (h : l.ReadsBack device length after) : after.Tight := by
  rw [Tight, h.spec_eq, h.size_eq]
  by_cases hzero : length = 0
  · rw [h.capacity_zero hzero, hzero, Growth.room?_zero]
  · have hpos := Nat.pos_of_ne_zero hzero
    rw [Growth.room?_of_pos hpos, h.capacity_pos hpos]

theorem imageLength_lt {l : InvertedList t i} (h : l.WellFormed) (length : Option UInt32) :
    l.imageLength length < countLimit := by
  cases length with
  | none => exact h.size_lt
  | some n => exact n.toNat_lt

theorem getElem?_padded {l : InvertedList t i} (h : l.WellFormed) {length p : Nat}
    (hp : p < length) :
    (l.padded length)[p]? =
      if p < l.size then l.ids[p]?.map fun id => (id, l.extents.recordOf l.data p)
      else some (Id.invalid i, List.replicate l.spec.dim 0) := by
  have htake : (l.published.take length).length = min length l.size := by
    rw [List.length_take, length_published h]
  rw [padded, List.getElem?_append, htake]
  by_cases hlive : p < l.size
  · rw [if_pos (by omega), List.getElem?_take_of_lt hp, getElem?_published h, if_pos hlive,
      if_pos hlive]
  · rw [if_neg (by omega), if_neg hlive, List.getElem?_replicate, if_pos (by omega)]

theorem length_padded {l : InvertedList t i} (h : l.WellFormed) (length : Nat) :
    (l.padded length).length = length := by
  rw [padded, List.length_append, List.length_take, length_published h, List.length_replicate]
  omega

/-- A list that is stored as it is. -/
theorem padded_size {l : InvertedList t i} (h : l.WellFormed) : l.padded l.size = l.published := by
  rw [padded, Nat.sub_self, List.replicate_zero, List.append_nil,
    List.take_of_length_le (Nat.le_of_eq (length_published h))]

/-- The record at a place of an image: a published one, or zeros. -/
theorem ImageWords.recordOf {l : InvertedList t i} {store : Layout} (hdim : store.dim = l.spec.dim)
    {length : Nat} {words : Array (Word t)}
    (hwords : ImageWords l store length words) {p : Nat} (hp : p < length) :
    (store.extents length).recordOf words p =
      if p < l.size then l.extents.recordOf l.data p else List.replicate l.spec.dim 0 := by
  have hstoreDim : (store.extents length).dim = store.dim := store.dim_extents length
  have hrow : p < (store.extents length).rows :=
    Nat.lt_of_lt_of_le hp (store.le_rows_extents length)
  by_cases hlive : p < l.size
  · rw [if_pos hlive]
    apply Extents.recordOf_congr
    · rw [hstoreDim, hdim, dim_extents]
    · intro d hd
      rw [hstoreDim] at hd ⊢
      rw [Layout.veclen_extents, hwords.cell p hrow d hd, if_pos (by omega), dim_extents]
      rfl
  · rw [if_neg hlive]
    apply Extents.recordOf_eq
    · rw [List.length_replicate, hstoreDim, hdim]
    · intro d hd
      rw [hstoreDim] at hd ⊢
      rw [Layout.veclen_extents, hwords.cell p hrow d hd, if_neg (by omega),
        List.getElem?_replicate, if_pos (hdim ▸ hd)]

/-- A list made of the ids and the words of an image is what the image is of. -/
theorem Stored.readsBack {l after : InvertedList t i} (h : l.WellFormed) {store : Layout}
    {device : ListSpec} (hstore : store.dim = l.spec.dim) (hdevice : store.dim = device.dim)
    {length capacity : Nat} (hlength : 0 < length) {words : Array (Word t)}
    (hwords : ImageWords l store length words)
    (hcapacity : device.growth.capacity? length = some capacity)
    (hstored : Stored device store capacity (l.imageIds length) words after) :
    l.ReadsBack device length after := by
  have hids := size_imageIds h length
  have hcapacityIds : device.growth.capacity? (l.imageIds length).size = some capacity := by
    rw [hids]
    exact hcapacity
  refine
    { spec_eq := hstored.spec_eq
      size_eq := hstored.size_eq.trans hids
      published_eq := ?_
      unused := ?_
      capacity_zero := fun hzero => absurd hzero (Nat.ne_of_gt hlength)
      capacity_pos := fun _ => hstored.capacity_eq ▸ hcapacity
      wellFormed := hstored.wellFormed hcapacityIds }
  · apply List.ext_getElem?
    intro p
    rw [hstored.published_eq hcapacityIds hdevice, hids]
    by_cases hp : p < length
    · rw [getElem?_imageIds h hp, getElem?_padded h hp, hwords.recordOf hstore hp]
      by_cases hlive : p < l.size
      · simp only [if_pos hlive]
      · simp only [if_neg hlive, Option.map_some]
    · rw [Array.getElem?_eq_none (by omega), List.getElem?_eq_none (by rw [length_padded h]; omega)]
      rfl
  · intro p hp hpast
    rw [hstored.id p (hstored.capacity_eq ▸ hp), hids, if_neg (Nat.not_lt.mpr hpast)]

theorem readsBack_empty {l : InvertedList t i} (device : ListSpec) :
    l.ReadsBack device 0 (empty t i device) where
  spec_eq := rfl
  size_eq := rfl
  published_eq := by
    rw [published_empty, padded, List.take_zero, Nat.zero_sub, List.replicate_zero,
      List.append_nil]
  unused := fun p hp _ => absurd hp (Nat.not_lt_zero p)
  capacity_zero := fun _ => rfl
  capacity_pos := fun hpos => absurd hpos (Nat.lt_irrefl 0)
  wellFormed := wellFormed_empty device

/-- An image reads back when the buffers are granted, and is read to its end when they are not. -/
theorem readRecord_of_image {l : InvertedList t i} (h : l.WellFormed) {store device : ListSpec}
    (hstore : store.dim = l.spec.dim) (hdevice : store.dim = device.dim) {length : Nat}
    (hlength : length < countLimit) {fields : List Bytes}
    (himage : IsImage l store.layout length fields) (b : Budget) (tail : Bytes)
    (ending : Ending) :
    (¬ ReadingGranted t i device store.layout length b ∧ ∃ e,
        readRecord t i store device
            { budget := b, stream := { bytes := fields.flatten ++ tail, ending } } =
          .error e { budget := b, stream := { bytes := tail, ending } } ∧ e.IsAllocation) ∨
      ReadingGranted t i device store.layout length b ∧ ∃ after,
        readRecord t i store device
            { budget := b, stream := { bytes := fields.flatten ++ tail, ending } } =
          .ok after
            { budget := b.charged after.reserved, stream := { bytes := tail, ending } } ∧
        l.ReadsBack device length after := by
  cases himage with
  | empty =>
      right
      refine ⟨Or.inl rfl, empty t i device, ?_, readsBack_empty device⟩
      rw [List.flatten_cons, List.flatten_nil, List.append_nil]
      exact readRecord_empty hdevice b tail ending
  | @records _ words hpos hwords =>
      have hids := size_imageIds h length
      have hsize : words.size = (store.layout.extents (l.imageIds length).size).length := by
        rw [hids]
        exact hwords.size_eq
      have hread := readRecord_fields hdevice (hids.symm ▸ hpos) (hids.symm ▸ hlength) hsize b tail
        ending
      rw [hids] at hread
      rw [hread]
      rcases ofStored_cases hdevice hsize b with
        ⟨⟨e, he, hallocation⟩, hrefused⟩ | ⟨capacity, after, hcapacity, hgranted, hok, hstored⟩
      · left
        refine ⟨?_, e, Action.focus_error he, hallocation⟩
        rintro (hzero | ⟨capacity, hcapacity, hgranted⟩)
        · exact absurd hzero (Nat.ne_of_gt hpos)
        · rw [hids] at hrefused
          exact hrefused capacity hcapacity hgranted
      · right
        rw [hids] at hcapacity hgranted
        refine ⟨Or.inr ⟨capacity, hcapacity, hgranted⟩, after, Action.focus_ok hok, ?_⟩
        exact hstored.readsBack h hstore hdevice hpos hwords hcapacity

/-- What has been written of a list reads back, with anything behind it: the buffers of the reader
are all it takes, and it reads no further than was written. -/
theorem readRecord_writeRecord {l : InvertedList t i} (h : l.WellFormed) {store device : ListSpec}
    (hdevice : device.dim = l.spec.dim) (length : Option UInt32) {tr tr' : Transfer Sink}
    (hwrite : l.writeRecord store length tr = .ok () tr') {record : Bytes}
    (hrecord : tr'.stream.written = tr.stream.written ++ record) (b : Budget) (tail : Bytes)
    (ending : Ending) :
    (¬ ReadingGranted t i device store.layout (l.imageLength length) b ∧ ∃ e,
        readRecord t i store device
            { budget := b, stream := { bytes := record ++ tail, ending } } =
          .error e { budget := b, stream := { bytes := tail, ending } } ∧ e.IsAllocation) ∨
      ReadingGranted t i device store.layout (l.imageLength length) b ∧ ∃ after,
        readRecord t i store device
            { budget := b, stream := { bytes := record ++ tail, ending } } =
          .ok after
            { budget := b.charged after.reserved, stream := { bytes := tail, ending } } ∧
        l.ReadsBack device (l.imageLength length) after := by
  have hstore : store.dim = l.spec.dim := by
    apply Decidable.byContradiction
    intro hne
    rw [writeRecord_dim hne] at hwrite
    cases hwrite
  rcases writeRecord_cases h hstore length tr with ⟨e, he, -⟩ | ⟨-, fields, himage, hrun⟩
  · rw [he] at hwrite
    cases hwrite
  · have hput : Sink.putAll fields tr.stream = .ok () tr'.stream := by
      rw [hrun] at hwrite
      obtain ⟨stream, hput, rfl⟩ := Action.focus_eq_ok.mp hwrite
      exact hput
    have hfields : record = fields.flatten := by
      have hwritten := Sink.putAll_ok hput
      rw [hrecord] at hwritten
      exact List.append_cancel_left hwritten
    rw [hfields]
    exact readRecord_of_image h hstore (hstore.trans hdevice.symm) (imageLength_lt h length)
      himage b tail ending

/-- Records of four columns, in chunks of `2 ^ k`. -/
def fourColumns (k : Nat) (hdvd : 2 ^ k ∣ 4) (growth : Growth) : ListSpec where
  layout :=
    { dim := 4
      veclen := 2 ^ k
      dim_pos := by decide
      dim_lt := by decide
      veclen_isPowerOfTwo := ⟨k, rfl⟩
      veclen_dvd_dim := hdvd }
  growth := growth

/-- A list of one record. -/
def single : InvertedList .u8 .i32 where
  spec := fourColumns 0 (by decide) .steady
  capacity := 32
  data := ((((Array.replicate 128 0).set! 0 1).set! 32 2).set! 64 3).set! 96 4
  ids := (Array.replicate 32 (Id.invalid .i32)).set! 0 7
  size := 1
  reserved := 256

set_option maxRecDepth 4000 in
/-- One record is stored with room for three, in a second layout, and read into a third one. -/
theorem readRecord_single : ∃ tr' after,
    single.writeRecord (fourColumns 1 (by decide) .steady) (some 3)
        { budget := .new none, stream := .empty none } = .ok () tr' ∧
      readRecord .u8 .i32 (fourColumns 1 (by decide) .steady) (fourColumns 2 (by decide) .doubling)
          { budget := .new none
            stream := { bytes := tr'.stream.written ++ [255], ending := .endOfInput } } =
        .ok after
          { budget := Budget.charged (.new none) after.reserved
            stream := { bytes := [255], ending := .endOfInput } } ∧
      after.published = [(7, [1, 2, 3, 4]), (Id.invalid .i32, [0, 0, 0, 0]),
        (Id.invalid .i32, [0, 0, 0, 0])] := by
  have hwell : single.WellFormed :=
    ⟨Or.inr ⟨1, rfl⟩, by decide +kernel, by decide +kernel, by decide, by decide +kernel⟩
  have hdevice : (fourColumns 2 (by decide) .doubling).dim = single.spec.dim := rfl
  have hwrite : single.writeRecord (fourColumns 1 (by decide) .steady) (some 3)
      { budget := .new none, stream := .empty none } = .ok ()
        (Action.final (single.writeRecord (fourColumns 1 (by decide) .steady) (some 3))
          { budget := .new none, stream := .empty none }) := rfl
  have hgranted : ReadingGranted .u8 .i32 (fourColumns 2 (by decide) .doubling)
      (fourColumns 1 (by decide) .steady).layout (single.imageLength (some 3)) (.new none) :=
    Or.inr ⟨32, rfl, ⟨⟨by decide, by decide, nofun⟩, ⟨by decide, by decide, nofun⟩⟩,
      Or.inr ⟨by decide, by decide, nofun⟩⟩
  rcases readRecord_writeRecord hwell hdevice (some 3) hwrite (List.nil_append _).symm (.new none)
      [255] .endOfInput with
    ⟨hrefused, -⟩ | ⟨-, after, hread, hback⟩
  · exact absurd hgranted hrefused
  · refine ⟨_, after, hwrite, hread, ?_⟩
    rw [hback.published_eq]
    decide +kernel

end InvertedFile.InvertedList
