import InvertedFile.InvertedList.Record
import InvertedFile.Proofs.InvertedList.Copy
import InvertedFile.Proofs.Reads

/-!
# A list from its image

The ids and the words of an image become a list in the layout of the reader:
the words are copied where the layouts agree, and otherwise put there by way
of the flat order. `Stored` says what comes of it, in the coordinates of both
layouts, and `ofStored_cases` that it comes of it whenever the buffers are
granted, however the ids and the words have been come by.

Reading an image is reading its fields in their order. A list that has been
read is well formed and has no more room than it needs, whatever the bytes
were, and the budget is charged with its buffers and nothing else.

## Main results

* `ofStored_ok`, `ofStored_refused` — a list is made of ids and words when its
  buffers are granted, and otherwise nothing is.
* `reads_arrays` — the arrays of an image read back.
* `readRecord_cases` — what comes of reading any bytes.
-/

namespace InvertedFile.InvertedList

variable {t : ElementType} {i : IdType}

/-- The buffers of a list that is made of stored words are granted, and the flat buffer where the
words must change their order. -/
structure StoredGranted (t : ElementType) (i : IdType) (device : ListSpec) (store : Layout)
    (length capacity : Nat) (b : Budget) : Prop where
  list : Granted t i device capacity b
  flat : store = device.layout ∨
    (b.charged (blank t i device capacity).reserved).Grants (length * store.dim * t.size)

/-- `after` is a list of the given ids and words, all of them published. -/
structure Stored (device : ListSpec) (store : Layout) (capacity : Nat) (ids : Array (Id i))
    (words : Array (Word t)) (after : InvertedList t i) : Prop where
  spec_eq : after.spec = device
  capacity_eq : after.capacity = capacity
  reserved_eq : after.reserved = (blank t i device capacity).reserved
  size_eq : after.size = ids.size
  size_data : after.data.size = (blank t i device capacity).data.size
  size_ids : after.ids.size = (blank t i device capacity).ids.size
  cell : ∀ p < ids.size, ∀ d < device.dim,
    after.data[Interleave.position device.dim device.veclen p d]? =
      words[Interleave.position store.dim store.veclen p d]?
  id : ∀ p < capacity, after.ids[p]? = if p < ids.size then ids[p]? else some (Id.invalid i)

/-- The words of an image go into a list. -/
private theorem storedWords_into {device : ListSpec} {store : Layout}
    (hdim : store.dim = device.dim) {n capacity : Nat} {words : Array (Word t)}
    (hcapacity : device.growth.capacity? n = some capacity)
    (hwords : words.size = (store.extents n).length) {b : Budget}
    (hflat : store = device.layout ∨ b.Grants (n * store.dim * t.size)) :
    ∃ data, (if store = device.layout then
        Action.ofExcept ((blank t i device capacity).withWords words)
      else repack words (store.extents n) n (blank t i device capacity) : Action Budget _) b =
        .ok { blank t i device capacity with data } b ∧
      data.size = (blank t i device capacity).data.size ∧
      ∀ p < n, ∀ d < device.dim, data[Interleave.position device.dim device.veclen p d]? =
        words[Interleave.position store.dim store.veclen p d]? := by
  have hblank := wellFormed_blank (t := t) (i := i) hcapacity
  have hroom : n ≤ capacity := Growth.le_capacity hcapacity
  have hextents : (store.extents n).dim = store.dim := store.dim_extents n
  by_cases hlayout : store = device.layout
  · subst hlayout
    have hlength : words.size ≤ (blank t i device capacity).data.size := by
      rw [hwords, hblank.size_data, Extents.length_eq_rows_mul_dim,
        Extents.length_eq_rows_mul_dim, hextents, dim_extents, hblank.rows_eq]
      apply Nat.mul_le_mul_right
      obtain ⟨groups, hgroups⟩ := Growth.groupSize_dvd_capacity hcapacity
      show (n + (groupSize - 1)) / groupSize * groupSize ≤ capacity
      simp only [groupSize] at hgroups ⊢
      omega
    refine ⟨Buffer.overwrite (blank t i device capacity).data 0 words.toList, ?_,
      Buffer.size_overwrite _ _ _, ?_⟩
    · rw [if_pos rfl]
      apply Action.ofExcept_ok
      rw [withWords, Buffer.store_eq_ok (by rwa [Nat.zero_add])]
    · intro p hp d hd
      have hin : p < (device.layout.extents n).rows :=
        Nat.lt_of_lt_of_le hp (device.layout.le_rows_extents n)
      have hlt : Interleave.position device.dim device.veclen p d < words.size := by
        rw [hwords, Extents.length, Extents.groupLength, hextents]
        exact Interleave.position_lt device.layout.veclen_pos device.layout.veclen_dvd_dim hin hd
      rw [Buffer.getElem?_overwrite, Array.length_toList, if_pos (by omega), Nat.sub_zero,
        Array.getElem?_toList]
      rfl
  · have hgrants := hflat.resolve_left hlayout
    rw [← hextents] at hgrants
    obtain ⟨data, hrepack, hsize, hcell⟩ := repack_ok (e := store.extents n)
      (store.veclen_extents_pos n) (store.dim_extents_pos n) hwords (store.le_rows_extents n)
      hblank (hextents.trans hdim) hroom hgrants
    refine ⟨data, ?_, hsize, ?_⟩
    · rw [if_neg hlayout]
      exact hrepack
    · intro p hp d hd
      have hplaced := hcell p d (by rwa [hextents, hdim])
      rw [hextents, if_pos hp, hdim] at hplaced
      rw [hdim]
      exact hplaced

/-- The ids of an image go into a list, which then publishes all its records. -/
private theorem storedIds_into {device : ListSpec} {capacity : Nat} {ids : Array (Id i)}
    (hcapacity : device.growth.capacity? ids.size = some capacity) (data : Array (Word t)) :
    ({ blank t i device capacity with data } : InvertedList t i).withIds ids =
        .ok { blank t i device capacity with
          data
          ids := Buffer.overwrite (blank t i device capacity).ids 0 ids.toList } ∧
      ({ blank t i device capacity with
          data
          ids := Buffer.overwrite (blank t i device capacity).ids 0 ids.toList } :
        InvertedList t i).withSize ids.size = .ok { blank t i device capacity with
          data
          ids := Buffer.overwrite (blank t i device capacity).ids 0 ids.toList
          size := ids.size } := by
  have hroom : ids.size ≤ capacity := Growth.le_capacity hcapacity
  constructor
  · have hstore : 0 + ids.size ≤ (blank t i device capacity).ids.size := by
      rw [blank, Array.size_replicate, Nat.zero_add]
      exact hroom
    rw [withIds, Buffer.store_eq_ok hstore]
  · have hdest : ids.size ≤ ({ blank t i device capacity with
        data
        ids := Buffer.overwrite (blank t i device capacity).ids 0 ids.toList } :
          InvertedList t i).capacity := hroom
    rw [withSize, setSize_ok hdest]

section OfStored

variable {device : ListSpec} {store : Layout} {ids : Array (Id i)} {words : Array (Word t)}
  {capacity : Nat} {b : Budget}

/-- A list is made of ids and words when its buffers are granted. -/
theorem ofStored_ok (hdim : store.dim = device.dim)
    (hwords : words.size = (store.extents ids.size).length)
    (hcapacity : device.growth.capacity? ids.size = some capacity)
    (hgranted : StoredGranted t i device store ids.size capacity b) :
    ∃ after, ofStored device store ids words b = .ok after (b.charged after.reserved) ∧
      Stored device store capacity ids words after := by
  have hcreate : create t i device ids.size b =
      .ok (blank t i device capacity) (b.charged (blank t i device capacity).reserved) :=
    create_ok_iff.mpr ⟨capacity, hcapacity, hgranted.list, rfl, rfl⟩
  obtain ⟨data, hrun, hsize, hcell⟩ :=
    storedWords_into (i := i) hdim hcapacity hwords hgranted.flat
  obtain ⟨hids, hpublish⟩ := storedIds_into (t := t) hcapacity data
  refine ⟨{ blank t i device capacity with
    data
    ids := Buffer.overwrite (blank t i device capacity).ids 0 ids.toList
    size := ids.size }, ?_, ?_⟩
  · rw [ofStored, Action.bind_ok hcreate]
    refine Action.undoing_ok.mpr ?_
    by_cases hlayout : store = device.layout
    · rw [if_pos hlayout] at hrun ⊢
      exact (Action.bind_ok hrun).trans ((Action.bind_ok (Action.ofExcept_ok hids _)).trans
        (Action.ofExcept_ok hpublish _))
    · rw [if_neg hlayout] at hrun ⊢
      exact (Action.bind_ok hrun).trans ((Action.bind_ok (Action.ofExcept_ok hids _)).trans
        (Action.ofExcept_ok hpublish _))
  · refine ⟨rfl, rfl, rfl, rfl, hsize, Buffer.size_overwrite _ _ _, hcell, ?_⟩
    intro p hp
    have hroom : ids.size ≤ capacity := Growth.le_capacity hcapacity
    have hblankIds : (blank t i device capacity).ids.size = capacity := Array.size_replicate
    show (Buffer.overwrite (blank t i device capacity).ids 0 ids.toList)[p]? = _
    rw [Buffer.getElem?_overwrite, Array.length_toList, hblankIds]
    by_cases hin : p < ids.size
    · rw [if_pos (by omega), if_pos hin, Nat.sub_zero, Array.getElem?_toList]
    · rw [if_neg (by omega), if_neg hin, getElem?_ids_blank, if_pos hp]

/-- Where the flat buffer is refused the new list is given back. -/
theorem ofStored_refused (hcapacity : device.growth.capacity? ids.size = some capacity)
    (hlist : Granted t i device capacity b) (hlayout : store ≠ device.layout)
    (hgrants : ¬ (b.charged (blank t i device capacity).reserved).Grants
      (ids.size * store.dim * t.size)) :
    ∃ e, ofStored device store ids words b = .error e b ∧ e.IsAllocation := by
  have hcreate : create t i device ids.size b =
      .ok (blank t i device capacity) (b.charged (blank t i device capacity).reserved) :=
    create_ok_iff.mpr ⟨capacity, hcapacity, hlist, rfl, rfl⟩
  rw [← store.dim_extents ids.size] at hgrants
  obtain ⟨e, hrefused, he⟩ := repack_refused words (blank t i device capacity) hgrants
  refine ⟨e, ?_, he⟩
  rw [ofStored, Action.bind_ok hcreate]
  refine Action.undoing_error.mpr ⟨_, ?_, Budget.release_charged _ _⟩
  rw [if_neg hlayout]
  exact Action.bind_error hrefused

/-- A list is made of ids and words when there is a capacity for it and its buffers are granted,
and otherwise nothing is. -/
theorem ofStored_cases (hdim : store.dim = device.dim)
    (hwords : words.size = (store.extents ids.size).length) (b : Budget) :
    ((∃ e, ofStored device store ids words b = .error e b ∧ e.IsAllocation) ∧
        ∀ capacity, device.growth.capacity? ids.size = some capacity →
          ¬ StoredGranted t i device store ids.size capacity b) ∨
      ∃ capacity after, device.growth.capacity? ids.size = some capacity ∧
        StoredGranted t i device store ids.size capacity b ∧
        ofStored device store ids words b = .ok after (b.charged after.reserved) ∧
        Stored device store capacity ids words after := by
  cases hcreate : create t i device ids.size b with
  | error e b' =>
      obtain ⟨he, rfl⟩ := create_error hcreate
      left
      refine ⟨⟨e, Action.bind_error hcreate, he⟩, ?_⟩
      intro capacity hcapacity hgranted
      have hok := create_ok_iff.mpr ⟨capacity, hcapacity, hgranted.list, rfl, rfl⟩
      rw [hcreate] at hok
      cases hok
  | ok dest b' =>
      obtain ⟨capacity, hcapacity, hlist, rfl, rfl⟩ := create_ok_iff.mp hcreate
      by_cases hflat : store = device.layout ∨
          (b.charged (blank t i device capacity).reserved).Grants
            (ids.size * store.dim * t.size)
      · right
        obtain ⟨after, hrun, hstored⟩ := ofStored_ok hdim hwords hcapacity ⟨hlist, hflat⟩
        exact ⟨capacity, after, hcapacity, ⟨hlist, hflat⟩, hrun, hstored⟩
      · left
        obtain ⟨hlayout, hgrants⟩ := not_or.mp hflat
        refine ⟨ofStored_refused hcapacity hlist hlayout hgrants, ?_⟩
        intro other hother hgranted
        rw [hcapacity] at hother
        cases hother
        exact hflat hgranted.flat

end OfStored

namespace Stored

variable {device : ListSpec} {store : Layout} {capacity : Nat} {ids : Array (Id i)}
  {words : Array (Word t)} {after : InvertedList t i}

theorem wellFormed (h : Stored device store capacity ids words after)
    (hcapacity : device.growth.capacity? ids.size = some capacity) : after.WellFormed := by
  have hblank := wellFormed_blank (t := t) (i := i) hcapacity
  constructor
  · rw [h.capacity_eq, h.spec_eq]
    exact hblank.capacity_eq
  · rw [h.size_data, hblank.size_data, extents, extents, h.spec_eq, h.capacity_eq]
    rfl
  · rw [h.size_ids, h.capacity_eq]
    exact hblank.size_ids
  · rw [h.size_eq, h.capacity_eq]
    exact Growth.le_capacity hcapacity
  · rw [h.reserved_eq, hblank.reserved_eq, memoryBytes, memoryBytes, h.size_data, h.size_ids]

theorem tight (h : Stored device store capacity ids words after)
    (hcapacity : device.growth.capacity? ids.size = some capacity) (hpos : 0 < ids.size) :
    after.Tight := by
  rw [Tight, h.spec_eq, h.size_eq, h.capacity_eq, Growth.room?_of_pos hpos, hcapacity]

/-- The records that are published are those that the words hold in the order of the store. -/
theorem published_eq (h : Stored device store capacity ids words after)
    (hcapacity : device.growth.capacity? ids.size = some capacity)
    (hdim : store.dim = device.dim) (p : Nat) :
    after.published[p]? = ids[p]?.map fun id =>
      (id, (store.extents ids.size).recordOf words p) := by
  have hwell := h.wellFormed hcapacity
  have hroom : ids.size ≤ capacity := Growth.le_capacity hcapacity
  rw [getElem?_published hwell, h.size_eq]
  by_cases hp : p < ids.size
  · have hafterDim : after.extents.dim = store.dim := by
      rw [dim_extents, h.spec_eq, hdim]
    have hstoreDim : (store.extents ids.size).dim = store.dim := store.dim_extents _
    have hrecord : after.extents.recordOf after.data p =
        (store.extents ids.size).recordOf words p := by
      apply Extents.recordOf_congr (hafterDim.trans hstoreDim.symm)
      intro d hd
      rw [hafterDim] at hd ⊢
      rw [hstoreDim, veclen_extents, h.spec_eq, hdim]
      have hcell := h.cell p hp d (hdim ▸ hd)
      rw [hdim] at hcell
      exact hcell
    rw [if_pos hp, h.id p (by omega), if_pos hp, hrecord]
  · rw [if_neg hp, Array.getElem?_eq_none (by omega)]
    rfl

theorem hosted (h : Stored device store capacity ids words after) {b : Budget}
    (hgranted : Granted t i device capacity b) : after.Hosted :=
  (hosted_blank hgranted).congr h.size_data h.size_ids

end Stored

/-! ## Reading the arrays -/

theorem reads_extents {extents : List Nat} (h : ∀ extent ∈ extents, extent < 256 ^ 4) :
    Source.Reads (readExtents extents.length) (extents.flatMap (LittleEndian.encode 4)) extents := by
  induction extents with
  | nil => exact Source.Reads.pure []
  | cons extent rest ih =>
      have hfirst := Source.reads_number (h extent (List.mem_cons_self ..))
      have hrest := ih fun e he => h e (List.mem_cons_of_mem extent he)
      rw [List.flatMap_cons]
      exact hfirst.bind (hrest.map fun more => extent :: more)

/-- A rank that is read fits into its byte. -/
theorem toNat_rank {rank : Nat} (h : rank ≤ greatestRank) : (UInt8.ofNat rank).toNat = rank := by
  rw [UInt8.toNat_ofNat', Nat.mod_eq_of_lt]
  exact Nat.lt_of_le_of_lt h (by decide)

/-- A descriptor is read where it is the expected one. -/
theorem reads_descriptor (role : ArrayRole) (t : ElementType) {extents : List Nat}
    (hrank : extents.length ≤ greatestRank) (h : ∀ extent ∈ extents, extent < 256 ^ 4) :
    Source.Reads (readDescriptor role t extents) (descriptor t extents) () := by
  have hbytes : descriptor t extents = [t.tag] ++ ([UInt8.ofNat extents.length] ++
      ([] ++ (extents.flatMap (LittleEndian.encode 4) ++ ([] ++ [])))) := by
    rw [List.append_nil, List.append_nil]
    rfl
  rw [hbytes]
  refine (Source.reads_byte t.tag).bind ?_
  simp only [UInt8.ofNat_toNat, ElementType.ofTag?_tag]
  refine (Source.reads_byte _).bind ?_
  rw [toNat_rank hrank]
  refine (Source.reads_ensure hrank _).bind ?_
  refine (reads_extents h).bind ?_
  refine Source.Reads.bind (Source.reads_ensure trivial _) ?_
  exact Source.reads_ensure rfl _

/-- The extents of a record fit into the fields of its descriptors. -/
theorem extent_lt (store : Layout) {length : Nat} (hlength : length < countLimit) :
    ∀ extent ∈ (store.extents length).toList, extent < 256 ^ 4 := by
  have hchunks := Nat.div_le_self store.dim store.veclen
  have hveclen := store.veclen_le_dim
  have hdim := store.dim_lt
  simp only [Layout.extents, Extents.toList, List.mem_cons, List.not_mem_nil, or_false,
    forall_eq_or_imp, forall_eq, groupSize, countLimit, UInt32.size] at *
  omega

/-- The ids and the words of a record read back. -/
theorem reads_arrays {store : Layout} {ids : Array (Id i)} {words : Array (Word t)}
    (hlength : ids.size < countLimit) (hwords : words.size = (store.extents ids.size).length) :
    Source.Reads (readArrays t i store ids.size)
      (descriptor i.element [ids.size] ++ (Word.encodeAll ids ++
        (descriptor t (store.extents ids.size).toList ++ Word.encodeAll words))) (ids, words) := by
  have hextent : ∀ extent ∈ [ids.size], extent < 256 ^ 4 := by
    intro extent hmem
    rw [List.mem_singleton.mp hmem]
    exact hlength
  have hone : [ids.size].length ≤ greatestRank := show 1 ≤ 8 by decide
  have hfour : (store.extents ids.size).toList.length ≤ greatestRank := show 4 ≤ 8 by decide
  refine (reads_descriptor .indices i.element hone hextent).bind ?_
  refine (Source.reads_words ids).bind ?_
  refine (reads_descriptor .data t hfour (extent_lt store hlength)).bind ?_
  rw [← hwords]
  exact (Source.reads_words words).map fun words => (ids, words)

/-- The arrays that are read have the lengths that the number of records asks for. -/
theorem size_of_readArrays {store : Layout} {length : Nat} {s s' : Source} {ids : Array (Id i)}
    {words : Array (Word t)} (h : readArrays t i store length s = .ok (ids, words) s') :
    ids.size = length ∧ words.size = (store.extents length).length := by
  obtain ⟨_, s₁, -, h⟩ := Action.bind_eq_ok.mp h
  obtain ⟨ids', s₂, hids, h⟩ := Action.bind_eq_ok.mp h
  obtain ⟨_, s₃, -, h⟩ := Action.bind_eq_ok.mp h
  obtain ⟨words', s₄, hwords, h⟩ := Action.bind_eq_ok.mp h
  cases h
  exact ⟨Source.size_of_words hids, Source.size_of_words hwords⟩

/-! ## Reading a record -/

/-- The image of a list without records reads back. -/
theorem readRecord_empty {store device : ListSpec} (hdim : store.dim = device.dim) (b : Budget)
    (tail : Bytes) (ending : Ending) :
    readRecord t i store device
        { budget := b, stream := { bytes := LittleEndian.encode 4 0 ++ tail, ending } } =
      .ok (empty t i device) { budget := b, stream := { bytes := tail, ending } } := by
  have hzero : (0 : Nat) < 256 ^ 4 := by decide
  rw [readRecord, Action.bind_ok (Action.ensure_ok hdim _),
    Action.bind_ok (Transfer.streamed_ok (Source.reads_number hzero tail ending))]
  rfl

/-- The fields of a record, one behind the other. -/
theorem flatten_recordFields (ids : Array (Id i)) (e : Extents) (words : Array (Word t)) :
    (recordFields ids e words).flatten = LittleEndian.encode 4 ids.size ++
      (descriptor i.element [ids.size] ++ (Word.encodeAll ids ++
        (descriptor t e.toList ++ Word.encodeAll words))) := by
  simp only [recordFields, List.flatten_cons, List.flatten_nil, List.append_nil]

/-- The image of records is read up to its end, and then it is up to the buffers. -/
theorem readRecord_fields {store device : ListSpec} (hdim : store.dim = device.dim)
    {ids : Array (Id i)} {words : Array (Word t)} (hpos : 0 < ids.size)
    (hlength : ids.size < countLimit)
    (hwords : words.size = (store.layout.extents ids.size).length) (b : Budget) (tail : Bytes)
    (ending : Ending) :
    readRecord t i store device
        { budget := b
          stream :=
            { bytes := (recordFields ids (store.layout.extents ids.size) words).flatten ++ tail
              ending } } =
      Transfer.budgeted (ofStored device store.layout ids words)
        { budget := b, stream := { bytes := tail, ending } } := by
  have hcount : ids.size < 256 ^ 4 := hlength
  rw [flatten_recordFields, List.append_assoc, readRecord,
    Action.bind_ok (Action.ensure_ok hdim _),
    Action.bind_ok (Transfer.streamed_ok (Source.reads_number hcount _ ending)),
    if_neg (Nat.ne_of_gt hpos),
    Action.bind_ok (Transfer.streamed_ok (reads_arrays hlength hwords tail ending))]

/-- A list that has been read is well formed and has no more room than it needs, whatever the bytes
were. -/
structure Loaded (device : ListSpec) (l : InvertedList t i) : Prop where
  spec_eq : l.spec = device
  wellFormed : l.WellFormed
  tight : l.Tight
  hosted : l.Hosted

theorem loaded_empty (device : ListSpec) : Loaded device (empty t i device) where
  spec_eq := rfl
  wellFormed := wellFormed_empty device
  tight := tight_empty device
  hosted := hosted_empty device

/-- A list that is read is charged to the budget, and one that is not read leaves it as it was. -/
theorem readRecord_cases (store device : ListSpec) {tr : Transfer Source}
    (hbudget : tr.budget.Sound) :
    (∃ e tr', readRecord t i store device tr = .error e tr' ∧ tr'.budget = tr.budget) ∨
      ∃ l tr', readRecord t i store device tr = .ok l tr' ∧
        tr'.budget = tr.budget.charged l.reserved ∧ tr'.budget.Sound ∧ Loaded device l := by
  by_cases hdim : store.dim = device.dim
  swap
  · left
    refine ⟨_, tr, Action.bind_error (Action.ensure_error hdim _), rfl⟩
  rw [readRecord, Action.bind_ok (Action.ensure_ok hdim _)]
  cases hcount : Source.number 4 tr.stream with
  | error e s => exact Or.inl ⟨e, _, Action.bind_error (Transfer.streamed_error hcount), rfl⟩
  | ok length s =>
      rw [Action.bind_ok (Transfer.streamed_ok hcount)]
      by_cases hzero : length = 0
      · rw [if_pos hzero]
        exact Or.inr ⟨_, _, rfl, rfl, hbudget, loaded_empty device⟩
      · rw [if_neg hzero]
        cases harrays : readArrays t i store.layout length s with
        | error e s' =>
            exact Or.inl ⟨e, _, Action.bind_error (Transfer.streamed_error harrays), rfl⟩
        | ok arrays s' =>
            obtain ⟨ids, words⟩ := arrays
            obtain ⟨rfl, hwords⟩ := size_of_readArrays harrays
            rw [Action.bind_ok (Transfer.streamed_ok harrays)]
            rcases ofStored_cases (i := i) hdim hwords tr.budget with
              ⟨⟨e, he, -⟩, -⟩ | ⟨capacity, l, hcapacity, hgranted, hl, hstored⟩
            · exact Or.inl ⟨e, _, Action.focus_error he, rfl⟩
            · refine Or.inr ⟨l, _, Action.focus_ok hl, rfl, ?_, hstored.spec_eq,
                hstored.wellFormed hcapacity, hstored.tight hcapacity (Nat.pos_of_ne_zero hzero),
                hstored.hosted hgranted.list⟩
              rw [hstored.reserved_eq]
              exact hgranted.list.sound

end InvertedFile.InvertedList
