import InvertedFile.InvertedList.Record
import InvertedFile.Proofs.InvertedList.Copy
import InvertedFile.Proofs.Stream

/-!
# The image of a list

What is written for a list is fixed by its published records, the layout it is
stored in and the number of records: the published ids and records as far as
they are wanted, then ids of unused slots and zero records. `ImageWords` says
that of the words, in coordinates, and `IsImage` of the whole record.

The buffers that the encoding takes are charged before the first byte is
written and given back in any case: two while the ids and the records are
copied out of the list, one more for the words. So the encoding is refused
without a byte written, or it is nothing but the writing of the image.

## Main results

* `gather_ok`, `gather_refused` — what is copied out of a list, and when it is
  not.
* `writeRecord_cases` — a list is refused, or its image is written.
* `IsImage.unique` — a list has one image.
* `image_of_writeRecord` — what is written is the image.
* `budget_writeRecord` — whatever comes of it, the budget is as before.
-/

namespace InvertedFile.InvertedList

variable {t : ElementType} {i : IdType}

/-- The ids of an image of `length` records. -/
def imageIds (l : InvertedList t i) (length : Nat) : Array (Id i) :=
  l.ids.extract 0 (min length l.size) ++
    Array.replicate (length - min length l.size) (Id.invalid i)

/-- The words of an image of `length` records in a layout: the published records, then zeros. -/
structure ImageWords (l : InvertedList t i) (store : Layout) (length : Nat)
    (words : Array (Word t)) : Prop where
  size_eq : words.size = (store.extents length).length
  cell : ∀ p < (store.extents length).rows, ∀ d < store.dim,
    words[Interleave.position store.dim store.veclen p d]? =
      if p < min length l.size then
        l.data[Interleave.position l.spec.dim l.spec.veclen p d]?
      else some 0

/-- The fields of the image of a list with a number of records in a layout. -/
inductive IsImage (l : InvertedList t i) (store : Layout) : Nat → List Bytes → Prop where
  | empty : IsImage l store 0 [LittleEndian.encode 4 0]
  | records {length : Nat} {words : Array (Word t)} (hlength : 0 < length)
      (hwords : ImageWords l store length words) :
      IsImage l store length (recordFields (l.imageIds length) (store.extents length) words)

/-- The buffers that the encoding of a list takes are granted: its ids, its records in the flat
order and its words in the order of the store. -/
structure EncodingGranted (l : InvertedList t i) (store : Layout) (length : Nat) (b : Budget) :
    Prop where
  ids : b.Grants (length * i.size)
  flat : (b.charged (length * i.size)).Grants (min length l.size * l.spec.dim * t.size)
  words : ((b.charged (length * i.size)).charged (min length l.size * l.spec.dim * t.size)).Grants
    ((store.extents length).length * t.size)

/-- A hosted list can be encoded in its own layout when twice its bytes can be counted. -/
theorem encodingGranted_of_room {l : InvertedList t i} (h : l.WellFormed) (hhosted : l.Hosted)
    {b : Budget} (hlimit : b.limit = none) (hroom : b.inUse + 2 * l.memoryBytes < byteLimit) :
    EncodingGranted l l.spec.layout l.size b := by
  have hids : l.size * i.size ≤ l.ids.size * i.size := by
    rw [h.size_ids]
    exact Nat.mul_le_mul_right _ h.size_le
  have hflat : min l.size l.size * l.spec.dim * t.size ≤ l.data.size * t.size := by
    rw [Nat.min_self, h.size_data_eq]
    exact Nat.mul_le_mul_right _ (Nat.mul_le_mul_right _ h.size_le)
  have hwords : (l.spec.layout.extents l.size).length * t.size ≤ l.data.size * t.size := by
    rw [h.size_data]
    apply Nat.mul_le_mul_right
    rw [Extents.length, Extents.length, Extents.groupLength, Extents.groupLength,
      l.spec.layout.dim_extents, extents, l.spec.layout.dim_extents]
    apply Nat.mul_le_mul_right
    exact Nat.div_le_div_right (Nat.add_le_add_right h.size_le _)
  have hhostWords := hhosted.words
  have hhostIds := hhosted.ids
  have hnone : ∀ (c : Budget), c.limit = none → ∀ bytes, ∀ limit ∈ c.limit,
      c.inUse + bytes ≤ limit := by
    intro c hc bytes limit hmem
    rw [hc] at hmem
    cases hmem
  rw [memoryBytes] at hroom
  refine ⟨⟨by omega, by omega, hnone b hlimit _⟩,
    ⟨?_, by omega, hnone (b.charged _) hlimit _⟩,
    ⟨?_, by omega, hnone ((b.charged _).charged _) hlimit _⟩⟩
  · show b.inUse + l.size * i.size + _ < byteLimit
    omega
  · show b.inUse + l.size * i.size + min l.size l.size * l.spec.dim * t.size + _ < byteLimit
    omega

theorem size_imageIds {l : InvertedList t i} (h : l.WellFormed) (length : Nat) :
    (l.imageIds length).size = length := by
  have hsize := h.size_le
  rw [imageIds, Array.size_append, Array.size_extract, Array.size_replicate, h.size_ids]
  omega

theorem getElem?_imageIds {l : InvertedList t i} (h : l.WellFormed) {length p : Nat}
    (hp : p < length) :
    (l.imageIds length)[p]? = if p < l.size then l.ids[p]? else some (Id.invalid i) := by
  have hsize := h.size_le
  have hids := h.size_ids
  have hlive : (l.ids.extract 0 (min length l.size)).size = min length l.size := by
    rw [Array.size_extract]
    omega
  rw [imageIds, Array.getElem?_append, hlive]
  by_cases hpub : p < l.size
  · rw [if_pos (by omega), if_pos hpub, Array.getElem?_extract, if_pos (by omega), Nat.zero_add]
  · rw [if_neg (by omega), if_neg hpub, Array.getElem?_replicate, if_pos (by omega)]

theorem storedIds_ok {l : InvertedList t i} (h : l.WellFormed) (length : Nat) :
    l.storedIds length = .ok (l.imageIds length) := by
  have hsize := h.size_le
  have hslice : 0 + min length l.size ≤ l.ids.size := by
    rw [h.size_ids]
    omega
  have hlive : (l.ids.extract 0 (0 + min length l.size)).size = min length l.size := by
    rw [Array.size_extract]
    omega
  rw [storedIds, Buffer.slice_eq_ok hslice]
  show Except.ok _ = _
  rw [hlive, Nat.zero_add]
  rfl

/-- The records of a flat batch are put between zeros. -/
theorem storedWords_ok {l : InvertedList t i} {store : Layout} (hdim : store.dim = l.spec.dim)
    {length : Nat} {flat : Array (Word t)}
    (hsize : flat.size = min length l.size * l.spec.dim)
    (hcell : ∀ r < min length l.size, ∀ d < l.spec.dim, flat[r * l.spec.dim + d]? =
      l.data[Interleave.position l.spec.dim l.spec.veclen r d]?) :
    ∃ words, storedWords (store.extents length) flat = .ok words ∧
      ImageWords l store length words := by
  have hextents : (store.extents length).dim = store.dim := store.dim_extents length
  have hblank : (Array.replicate (store.extents length).length (0 : Word t)).size =
      (store.extents length).length := Array.size_replicate
  have hroom : 0 + min length l.size ≤ (store.extents length).rows := by
    rw [Nat.zero_add]
    exact Nat.le_trans (Nat.min_le_left _ _) (store.le_rows_extents length)
  obtain ⟨words, hpack, hpacked⟩ := Interleave.pack_ok (store.veclen_extents_pos length)
    (store.dim_extents_pos length) hblank (by rw [hsize, hextents, hdim]) hroom
  refine ⟨words, ?_, hpacked.size_eq.trans hblank, ?_⟩
  · rw [storedWords, hpack]
  · intro p hp d hd
    have hplaced := hpacked.cell p d (hextents.symm ▸ hd)
    rw [hextents, store.veclen_extents] at hplaced
    rw [hplaced]
    by_cases hlive : p < min length l.size
    · rw [if_pos (by omega), if_pos hlive, Nat.sub_zero, hdim, hcell p hlive d (hdim ▸ hd)]
    · have hlt := Interleave.position_lt store.veclen_pos store.veclen_dvd_dim hp hd
      rw [if_neg (by omega), if_neg hlive, Array.getElem?_replicate, if_pos]
      rw [Extents.length, Extents.groupLength, hextents]
      exact hlt

/-! ## What is copied out -/

/-- What is copied out of a list for an image, when the two buffers for it are granted. -/
theorem gather_ok {l : InvertedList t i} (h : l.WellFormed) {length : Nat} (hlength : length ≠ 0)
    {flat : Array (Word t)} (hflat : flatRecords l.data l.extents (min length l.size) = .ok flat)
    {b : Budget} (hids : b.Grants (length * i.size))
    (hbatch : (b.charged (length * i.size)).Grants (min length l.size * l.spec.dim * t.size)) :
    l.gather length b = .ok
      { length, ids := l.imageIds length, flat,
        bytes := length * i.size + min length l.size * l.spec.dim * t.size }
      (b.charged (length * i.size + min length l.size * l.spec.dim * t.size)) := by
  rw [← Budget.charged_charged, gather, if_neg hlength, Action.bind_ok (Budget.allocate_ok hids)]
  apply Action.undoing_ok.mpr
  rw [Action.bind_ok (Action.ofExcept_ok (storedIds_ok h length) _), dim_extents,
    Action.bind_ok (Budget.allocate_ok hbatch)]
  apply Action.undoing_ok.mpr
  rw [Action.bind_ok (Action.ofExcept_ok hflat _)]
  rfl

/-- When one of the two buffers is refused, nothing stays charged. -/
theorem gather_refused {l : InvertedList t i} (h : l.WellFormed) {length : Nat}
    (hlength : length ≠ 0) {b : Budget}
    (hrefused : ¬ (b.Grants (length * i.size) ∧
      (b.charged (length * i.size)).Grants (min length l.size * l.spec.dim * t.size))) :
    ∃ e, l.gather length b = .error e b ∧ e.IsAllocation := by
  rw [gather, if_neg hlength]
  by_cases hids : b.Grants (length * i.size)
  swap
  · obtain ⟨e, hallocate, he⟩ := Budget.allocate_refused hids
    exact ⟨e, Action.bind_error hallocate, he⟩
  obtain ⟨e, hallocate, he⟩ := Budget.allocate_refused fun hbatch => hrefused ⟨hids, hbatch⟩
  refine ⟨e, ?_, he⟩
  rw [Action.bind_ok (Budget.allocate_ok hids)]
  refine Action.undoing_error.mpr ⟨_, ?_, Budget.release_charged b _⟩
  rw [Action.bind_ok (Action.ofExcept_ok (storedIds_ok h length) _), dim_extents,
    Action.bind_error hallocate]

/-! ## What is written -/

/-- The encoding of `length` records in a layout: what is copied out of the list is written. -/
def encode (l : InvertedList t i) (store : Layout) (length : Nat) :
    Action (Transfer Sink) Unit := do
  let draft ← Transfer.budgeted (l.gather length)
  draft.write store

/-- Behind the check of the widths a list is encoded. -/
theorem writeRecord_eq {l : InvertedList t i} {store : ListSpec} (hdim : store.dim = l.spec.dim)
    (length : Option UInt32) (tr : Transfer Sink) :
    l.writeRecord store length tr = l.encode store.layout (l.imageLength length) tr :=
  Action.bind_ok (Action.ensure_ok hdim tr)

/-- Of no records nothing is copied out, and their number is written. -/
theorem encode_zero (l : InvertedList t i) (store : Layout) (tr : Transfer Sink) :
    l.encode store 0 tr = Transfer.streamed (Sink.put (LittleEndian.encode 4 0)) tr := by
  have hgather : Transfer.budgeted (l.gather 0) tr =
      .ok { length := 0, ids := #[], flat := #[], bytes := 0 }
        { tr with budget := tr.budget.charged 0 } :=
    Transfer.budgeted_ok rfl
  rw [encode, Action.bind_ok hgather]
  exact Transfer.closing_streamed rfl

/-- The run of an encoding whose buffers are granted. -/
theorem encode_ok {l : InvertedList t i} (h : l.WellFormed) {store : Layout} {length : Nat}
    (hlength : length ≠ 0) {flat words : Array (Word t)}
    (hflat : flatRecords l.data l.extents (min length l.size) = .ok flat)
    (hwords : storedWords (store.extents length) flat = .ok words) {tr : Transfer Sink}
    (hgranted : EncodingGranted l store length tr.budget) :
    l.encode store length tr = Transfer.streamed
      (Sink.putAll (recordFields (l.imageIds length) (store.extents length) words)) tr := by
  have hgather := gather_ok h hlength hflat hgranted.ids hgranted.flat
  rw [encode, Action.bind_ok (Transfer.budgeted_ok hgather)]
  apply Transfer.closing_streamed
  rw [if_neg hlength]
  apply Transfer.reserving_streamed
  · exact Budget.charged_charged tr.budget _ _ ▸ hgranted.words
  · rw [Action.bind_ok (Action.ofExcept_ok hwords _)]

/-- The run of an encoding of which one buffer is refused, the first, the second or the third. -/
theorem encode_refused {l : InvertedList t i} (h : l.WellFormed) {store : Layout}
    {length : Nat} (hlength : length ≠ 0) {flat : Array (Word t)}
    (hflat : flatRecords l.data l.extents (min length l.size) = .ok flat) {tr : Transfer Sink}
    (hgranted : ¬ EncodingGranted l store length tr.budget) :
    ∃ e, l.encode store length tr = .error e tr ∧ e.IsAllocation := by
  by_cases hgathered : tr.budget.Grants (length * i.size) ∧
      (tr.budget.charged (length * i.size)).Grants (min length l.size * l.spec.dim * t.size)
  · obtain ⟨hids, hbatch⟩ := hgathered
    rw [encode, Action.bind_ok (Transfer.budgeted_ok (gather_ok h hlength hflat hids hbatch))]
    apply Transfer.closing_refused
    rw [if_neg hlength]
    apply Transfer.reserving_refused
    exact fun hwords => hgranted
      ⟨hids, hbatch, (Budget.charged_charged tr.budget _ _).symm ▸ hwords⟩
  · obtain ⟨e, hgather, he⟩ := gather_refused h hlength hgathered
    exact ⟨e, Action.bind_error (Transfer.budgeted_error hgather), he⟩

theorem streamed_put (field : Bytes) (tr : Transfer Sink) :
    Transfer.streamed (Sink.put field) tr = Transfer.streamed (Sink.putAll [field]) tr := by
  have hput : Sink.putAll [field] tr.stream = Sink.put field tr.stream := by
    change (Sink.put field >>= fun _ => pure ()) tr.stream = _
    cases hrun : Sink.put field tr.stream with
    | ok u s => rw [Action.bind_ok hrun]; rfl
    | error e s => rw [Action.bind_error hrun]
  rw [Transfer.streamed, Transfer.streamed, Action.focus, Action.focus, hput]

/-- A list is refused, or its image is written. -/
theorem writeRecord_cases {l : InvertedList t i} (h : l.WellFormed) {store : ListSpec}
    (hdim : store.dim = l.spec.dim) (length : Option UInt32) (tr : Transfer Sink) :
    (∃ e, l.writeRecord store length tr = .error e tr ∧ e.IsAllocation ∧
        l.imageLength length ≠ 0 ∧
        ¬ EncodingGranted l store.layout (l.imageLength length) tr.budget) ∨
      (l.imageLength length ≠ 0 →
        EncodingGranted l store.layout (l.imageLength length) tr.budget) ∧
      ∃ fields, IsImage l store.layout (l.imageLength length) fields ∧
        l.writeRecord store length tr = Transfer.streamed (Sink.putAll fields) tr := by
  rw [writeRecord_eq hdim]
  generalize l.imageLength length = len
  by_cases hzero : len = 0
  · subst hzero
    right
    refine ⟨fun hne => absurd rfl hne, _, .empty, ?_⟩
    rw [encode_zero, streamed_put]
  · have hlive : min len l.size ≤ l.extents.rows := by
      rw [h.rows_eq]
      exact Nat.le_trans (Nat.min_le_right _ _) h.size_le
    obtain ⟨flat, hflat, hsize, hcell⟩ := flatRecords_ok (l.spec.layout.veclen_extents_pos _)
      (l.spec.layout.dim_extents_pos _) h.size_data hlive
    have hextents : (l.spec.layout.extents l.capacity).dim = l.spec.dim := l.dim_extents
    rw [hextents] at hsize hcell
    by_cases hgranted : EncodingGranted l store.layout len tr.budget
    · obtain ⟨words, hwords, himage⟩ := storedWords_ok hdim hsize hcell
      right
      refine ⟨fun _ => hgranted, _, .records (Nat.pos_of_ne_zero hzero) himage, ?_⟩
      exact encode_ok h hzero hflat hwords hgranted
    · obtain ⟨e, he, hallocation⟩ := encode_refused h hzero hflat hgranted
      exact Or.inl ⟨e, he, hallocation, hzero, hgranted⟩

/-- A list has one image of a length in a layout. -/
theorem IsImage.unique {l : InvertedList t i} {store : Layout} {length : Nat}
    {fields fields' : List Bytes} (h : IsImage l store length fields)
    (h' : IsImage l store length fields') : fields' = fields := by
  cases h with
  | empty =>
      cases h' with
      | empty => rfl
      | records hlength _ => exact absurd hlength (Nat.lt_irrefl 0)
  | @records _ words hlength hwords =>
      cases h' with
      | empty => exact absurd hlength (Nat.lt_irrefl 0)
      | @records _ words' _ hwords' =>
          have hsame : words' = words := by
            apply Array.ext_getElem?
            intro k
            by_cases hk : k < (store.extents length).length
            · rw [Extents.length, Extents.groupLength, store.dim_extents] at hk
              have hrow : Interleave.recordAt store.dim store.veclen k <
                  (store.extents length).rows :=
                Interleave.recordAt_lt hk
              have hcolumn := Interleave.columnAt_lt store.veclen_pos store.veclen_dvd_dim
                store.dim_pos k
              have hplace := Interleave.position_recordAt_columnAt store.veclen_pos
                store.veclen_dvd_dim store.dim_pos k
              rw [← hplace, hwords.cell _ hrow _ hcolumn, hwords'.cell _ hrow _ hcolumn]
            · rw [Array.getElem?_eq_none (by rw [hwords'.size_eq]; omega),
                Array.getElem?_eq_none (by rw [hwords.size_eq]; omega)]
          rw [hsame]

/-- A list is not stored in a layout of another width, and nothing is written. -/
theorem writeRecord_dim {l : InvertedList t i} {store : ListSpec} (hdim : store.dim ≠ l.spec.dim)
    (length : Option UInt32) (tr : Transfer Sink) :
    l.writeRecord store length tr = .error (.invalid (.storeDim l.spec.dim store.dim)) tr :=
  Action.bind_error (Action.ensure_error hdim _)

/-- What a successful run has written is the image of the list. -/
theorem image_of_writeRecord {l : InvertedList t i} (h : l.WellFormed) {store : ListSpec}
    {length : Option UInt32} {tr out : Transfer Sink}
    (hwrite : l.writeRecord store length tr = .ok () out) :
    store.dim = l.spec.dim ∧ ∃ fields, IsImage l store.layout (l.imageLength length) fields ∧
      out.stream.written = tr.stream.written ++ fields.flatten := by
  have hdim : store.dim = l.spec.dim := by
    by_contra hne
    rw [writeRecord_dim hne] at hwrite
    cases hwrite
  refine ⟨hdim, ?_⟩
  rcases writeRecord_cases h hdim length tr with ⟨e, he, -⟩ | ⟨-, fields, himage, hrun⟩
  · rw [he] at hwrite
    cases hwrite
  · rw [hrun] at hwrite
    obtain ⟨stream, hput, rfl⟩ := Action.focus_eq_ok.mp hwrite
    exact ⟨fields, himage, Sink.putAll_ok hput⟩

/-- The budget is as before when a list has been written, or has not. -/
theorem budget_writeRecord {l : InvertedList t i} (h : l.WellFormed) (store : ListSpec)
    (length : Option UInt32) (tr : Transfer Sink) :
    (Action.final (l.writeRecord store length) tr).budget = tr.budget := by
  by_cases hdim : store.dim = l.spec.dim
  · rcases writeRecord_cases h hdim length tr with ⟨e, he, -⟩ | ⟨-, fields, -, hwrite⟩
    · rw [Action.final_error he]
    · rw [Action.final, hwrite, Transfer.streamed, Action.focus]
      cases Sink.putAll fields tr.stream with
      | ok u s => rfl
      | error e s => rfl
  · rw [Action.final_error (writeRecord_dim hdim length tr)]

end InvertedFile.InvertedList
