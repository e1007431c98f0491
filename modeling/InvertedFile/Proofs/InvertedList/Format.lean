import InvertedFile.Proofs.InvertedList.Canonical

/-!
# The format of a record

The reader of a record says in which order it looks at the bytes. This module
says which bytes there are to look at. `IsRecord` is the format: the number of
records, and where it is not zero the ids and the words, each behind its
descriptor. `RecordDefect` is everything else, each constructor a place at which
the format can break off, with what must have stood before it and the error it
is told by. Neither of the two mentions a reader.

What the reader does follows from three facts: it reads the format, it refuses
a defect with the error of the defect, and there are no bytes that neither
start with a record nor have a defect. The last one is a walk through the
fields. At each of them the field is there, and the walk goes on behind it, or
it has come upon the defect.

The words of a record are taken as they are, also where no record stands. Such
words do not come back: the list has no place for them, and zeros are stored in
their stead.

## Main results

* `descriptor_or_defect`, `record_or_defect` — all bytes have the form, or one
  defect.
* `DescriptorDefect.refuses`, `RecordDefect.refuses` — a defect is refused with
  its error.
* `read_of_record` — what a record makes of a reader's list.
* `readRecord_accepts_exactly_records` — which bytes are read, what becomes of
  them, and which error the others end in.
-/

namespace InvertedFile.InvertedList

open Source

variable {t : ElementType} {i : IdType}

/-! ## Descriptors -/

/-- What keeps bytes from starting with the descriptor of an array, and the error that tells it.
The type is not looked at before all extents are there. -/
inductive DescriptorDefect (role : ArrayRole) (expected : ElementType) (extents : List Nat)
    (ending : Ending) : Bytes → Error → Prop where
  | noTag : DescriptorDefect role expected extents ending [] ending.error
  | unknownTag {tag : UInt8} {rest : Bytes} (h : ∀ found : ElementType, found.tag ≠ tag) :
      DescriptorDefect role expected extents ending (tag :: rest)
        (.malformed (.unknownTag tag role))
  | noRank {found : ElementType} :
      DescriptorDefect role expected extents ending [found.tag] ending.error
  | rank {found : ElementType} {rank : UInt8} {rest : Bytes} (h : greatestRank < rank.toNat) :
      DescriptorDefect role expected extents ending (found.tag :: rank :: rest)
        (.malformed (.rank role rank.toNat))
  | shortExtents {found : ElementType} {rank : UInt8} {rest : Bytes}
      (hrank : rank.toNat ≤ greatestRank) (h : rest.length < 4 * rank.toNat) :
      DescriptorDefect role expected extents ending (found.tag :: rank :: rest) ending.error
  | otherType {found : ElementType} {others : List Nat} {rest : Bytes}
      (hrank : others.length ≤ greatestRank) (hfit : ∀ extent ∈ others, extent < 256 ^ 4)
      (h : found ≠ expected) :
      DescriptorDefect role expected extents ending (descriptor found others ++ rest)
        (.incompatible (.arrayType role expected found))
  | otherExtents {others : List Nat} {rest : Bytes}
      (hrank : others.length ≤ greatestRank) (hfit : ∀ extent ∈ others, extent < 256 ^ 4)
      (h : others ≠ extents) :
      DescriptorDefect role expected extents ending (descriptor expected others ++ rest)
        (.incompatible (.arrayExtents role extents others))

/-- There are bytes for a number of extents at the front, or there are too few. -/
theorem starts_with_extents (rank : Nat) (bytes : Bytes) :
    bytes.length < 4 * rank ∨ ∃ (extents : List Nat) (rest : Bytes), extents.length = rank ∧
      (∀ extent ∈ extents, extent < 256 ^ 4) ∧
      bytes = extents.flatMap (LittleEndian.encode 4) ++ rest := by
  induction rank generalizing bytes with
  | zero => exact Or.inr ⟨[], bytes, rfl, nofun, rfl⟩
  | succ rank ih =>
      rcases starts_with_number 4 bytes with hshort | ⟨extent, behind, hlt, rfl⟩
      · left
        omega
      rcases ih behind with hshort | ⟨extents, rest, hlength, hfit, rfl⟩
      · left
        rw [List.length_append, LittleEndian.length_encode]
        omega
      · right
        refine ⟨extent :: extents, rest, by rw [List.length_cons, hlength],
          List.forall_mem_cons.mpr ⟨hlt, hfit⟩, ?_⟩
        rw [List.flatMap_cons, List.append_assoc]

theorem refuses_extents {rank : Nat} {bytes : Bytes} (h : bytes.length < 4 * rank)
    (ending : Ending) : Refuses (readExtents rank) bytes ending ending.error := by
  induction rank generalizing bytes with
  | zero => exact absurd h (Nat.not_lt_zero _)
  | succ rank ih =>
      rcases starts_with_number 4 bytes with hshort | ⟨extent, behind, hlt, rfl⟩
      · exact (refuses_number hshort ending).bind
      · rw [List.length_append, LittleEndian.length_encode] at h
        exact .behind (reads_number hlt) (ih (by omega)).bind

/-- The extents are read before the type is compared. -/
private theorem reads_to_extents {found : ElementType} {rank : UInt8}
    (hrank : rank.toNat ≤ greatestRank) {role : ArrayRole} {expected : ElementType}
    {extents : List Nat} {rest : Bytes} {ending : Ending} {e : Error}
    (h : Refuses (do
      let foundExtents ← readExtents rank.toNat
      ensure (found = expected) (.incompatible (.arrayType role expected found))
      ensure (foundExtents = extents)
        (.incompatible (.arrayExtents role extents foundExtents))) rest ending e) :
    Refuses (readDescriptor role expected extents) (found.tag :: rank :: rest) ending e := by
  refine .behind_byte ?_
  simp only [UInt8.ofNat_toNat, ElementType.ofTag?_tag]
  exact .behind_byte (.check hrank h)

/-- A whole descriptor is read before it is compared. -/
private theorem reads_to_comparison {found : ElementType} {others : List Nat}
    (hrank : others.length ≤ greatestRank) (hfit : ∀ extent ∈ others, extent < 256 ^ 4)
    {role : ArrayRole} {expected : ElementType} {extents : List Nat} {rest : Bytes}
    {ending : Ending} {e : Error}
    (h : Refuses (do
      ensure (found = expected) (.incompatible (.arrayType role expected found))
      ensure (others = extents)
        (.incompatible (.arrayExtents role extents others))) rest ending e) :
    Refuses (readDescriptor role expected extents) (descriptor found others ++ rest) ending e := by
  have hread := toNat_rank hrank
  have hbyte : (UInt8.ofNat others.length).toNat ≤ greatestRank := hread.symm ▸ hrank
  refine reads_to_extents hbyte ?_
  rw [hread]
  exact .behind (reads_extents hfit) h

/-- A defect of a descriptor is refused with its error. -/
theorem DescriptorDefect.refuses {role : ArrayRole} {expected : ElementType} {extents : List Nat}
    {ending : Ending} {bytes : Bytes} {e : Error}
    (h : DescriptorDefect role expected extents ending bytes e) :
    Refuses (readDescriptor role expected extents) bytes ending e := by
  cases h with
  | noTag => exact (refuses_number (by decide) ending).bind
  | @unknownTag tag _ h =>
      refine .behind_byte ?_
      have hnone : ElementType.ofTag? tag = none := by
        rw [Option.eq_none_iff_forall_ne_some]
        exact fun found hfound => h found (ElementType.tag_of_ofTag? hfound)
      simp only [UInt8.ofNat_toNat, hnone]
      exact refuses_throw _ _ _
  | noRank =>
      refine .behind_byte ?_
      simp only [UInt8.ofNat_toNat, ElementType.ofTag?_tag]
      exact (refuses_number (by decide) ending).bind
  | rank h =>
      refine .behind_byte ?_
      simp only [UInt8.ofNat_toNat, ElementType.ofTag?_tag]
      exact .behind_byte (refuses_ensure (Nat.not_le.mpr h) _ _ _).bind
  | shortExtents hrank h => exact reads_to_extents hrank (refuses_extents h ending).bind
  | otherType hrank hfit h =>
      exact reads_to_comparison hrank hfit (refuses_ensure h _ _ _).bind
  | otherExtents hrank hfit h =>
      exact reads_to_comparison hrank hfit (.check rfl (refuses_ensure h _ _ _))

/-- Bytes start with the descriptor of an array, or there is a defect in them. -/
theorem descriptor_or_defect (role : ArrayRole) (expected : ElementType) (extents : List Nat)
    (ending : Ending) (bytes : Bytes) :
    (∃ rest, bytes = descriptor expected extents ++ rest) ∨
      ∃ e, DescriptorDefect role expected extents ending bytes e := by
  match bytes with
  | [] => exact Or.inr ⟨_, .noTag⟩
  | tag :: bytes =>
  by_cases hknown : ∃ found : ElementType, found.tag = tag
  swap
  · exact Or.inr ⟨_, .unknownTag fun found h => hknown ⟨found, h⟩⟩
  obtain ⟨found, rfl⟩ := hknown
  match bytes with
  | [] => exact Or.inr ⟨_, .noRank⟩
  | rank :: bytes =>
  by_cases hrank : rank.toNat ≤ greatestRank
  swap
  · exact Or.inr ⟨_, .rank (Nat.lt_of_not_le hrank)⟩
  rcases starts_with_extents rank.toNat bytes with hshort | ⟨others, rest, hlength, hfit, rfl⟩
  · exact Or.inr ⟨_, .shortExtents hrank hshort⟩
  have hsame : found.tag :: rank :: (others.flatMap (LittleEndian.encode 4) ++ rest) =
      descriptor found others ++ rest := by
    rw [descriptor, hlength, UInt8.ofNat_toNat]
    rfl
  rw [hsame]
  rw [← hlength] at hrank
  by_cases htype : found = expected
  swap
  · exact Or.inr ⟨_, .otherType hrank hfit htype⟩
  by_cases hextents : others = extents
  swap
  · rw [htype]
    exact Or.inr ⟨_, .otherExtents hrank hfit hextents⟩
  rw [htype, hextents]
  exact Or.inl ⟨rest, rfl⟩

/-! ## Records -/

/-- The bytes are the record of these ids and words in a layout: its number of records, and unless
there are none the descriptor of the ids, the ids, the descriptor of the words and the words. -/
inductive IsRecord (store : Layout) : Bytes → Array (Id i) → Array (Word t) → Prop where
  | empty : IsRecord store (LittleEndian.encode 4 0) #[] #[]
  | records {ids : Array (Id i)} {words : Array (Word t)} (hpos : 0 < ids.size)
      (hlt : ids.size < countLimit) (hwords : words.size = (store.extents ids.size).length) :
      IsRecord store
        (LittleEndian.encode 4 ids.size ++ (descriptor i.element [ids.size] ++
          (Word.encodeAll ids ++
            (descriptor t (store.extents ids.size).toList ++ Word.encodeAll words)))) ids words

/-- What keeps bytes from starting with a record, and the error that tells it: a field that is cut
short, or a defect of one of the two descriptors behind the fields before it. -/
inductive RecordDefect (t : ElementType) (i : IdType) (store : Layout) (ending : Ending) :
    Bytes → Error → Prop where
  | shortLength {bytes : Bytes} (h : bytes.length < 4) :
      RecordDefect t i store ending bytes ending.error
  | idsDescriptor {length : Nat} {rest : Bytes} {e : Error} (hpos : 0 < length)
      (hlt : length < countLimit)
      (h : DescriptorDefect .indices i.element [length] ending rest e) :
      RecordDefect t i store ending (LittleEndian.encode 4 length ++ rest) e
  | shortIds {length : Nat} {rest : Bytes} (hpos : 0 < length) (hlt : length < countLimit)
      (h : rest.length < length * i.size) :
      RecordDefect t i store ending
        (LittleEndian.encode 4 length ++ (descriptor i.element [length] ++ rest)) ending.error
  | wordsDescriptor {ids : Array (Id i)} {rest : Bytes} {e : Error} (hpos : 0 < ids.size)
      (hlt : ids.size < countLimit)
      (h : DescriptorDefect .data t (store.extents ids.size).toList ending rest e) :
      RecordDefect t i store ending
        (LittleEndian.encode 4 ids.size ++ (descriptor i.element [ids.size] ++
          (Word.encodeAll ids ++ rest))) e
  | shortWords {ids : Array (Id i)} {rest : Bytes} (hpos : 0 < ids.size) (hlt : ids.size < countLimit)
      (h : rest.length < (store.extents ids.size).length * t.size) :
      RecordDefect t i store ending
        (LittleEndian.encode 4 ids.size ++ (descriptor i.element [ids.size] ++
          (Word.encodeAll ids ++ (descriptor t (store.extents ids.size).toList ++ rest))))
        ending.error

/-- Bytes start with a record, or there is a defect in them. -/
theorem record_or_defect (t : ElementType) (i : IdType) (store : Layout) (ending : Ending)
    (bytes : Bytes) :
    (∃ record tail, ∃ ids : Array (Id i), ∃ words : Array (Word t),
        bytes = record ++ tail ∧ IsRecord store record ids words) ∨
      ∃ e, RecordDefect t i store ending bytes e := by
  rcases starts_with_number 4 bytes with hshort | ⟨length, rest, hlt, rfl⟩
  · exact Or.inr ⟨_, .shortLength hshort⟩
  by_cases hzero : length = 0
  · rw [hzero]
    exact Or.inl ⟨_, rest, #[], #[], rfl, .empty⟩
  have hpos := Nat.pos_of_ne_zero hzero
  rcases descriptor_or_defect .indices i.element [length] ending rest with
    ⟨rest, rfl⟩ | ⟨e, hdefect⟩
  swap
  · exact Or.inr ⟨e, .idsDescriptor hpos hlt hdefect⟩
  rcases starts_with_words i.element length rest with hshort | ⟨ids, rest, rfl, rfl⟩
  · exact Or.inr ⟨_, .shortIds hpos hlt hshort⟩
  rcases descriptor_or_defect .data t (store.extents ids.size).toList ending rest with
    ⟨rest, rfl⟩ | ⟨e, hdefect⟩
  swap
  · exact Or.inr ⟨e, .wordsDescriptor hpos hlt hdefect⟩
  rcases starts_with_words t (store.extents ids.size).length rest with
    hshort | ⟨words, tail, hwords, rfl⟩
  · exact Or.inr ⟨_, .shortWords hpos hlt hshort⟩
  refine Or.inl ⟨_, tail, ids, words, ?_, .records hpos hlt hwords⟩
  simp only [List.append_assoc]

/-- What the arrays are refused for, the record is refused for. -/
private theorem refuses_record_of_arrays {store device : ListSpec} (hdim : store.dim = device.dim)
    {length : Nat} {rest : Bytes} {ending : Ending} {e : Error} (hpos : 0 < length)
    (hlt : length < countLimit) (h : Refuses (readArrays t i store.layout length) rest ending e)
    (b : Budget) :
    ∃ left, readRecord t i store device
        { budget := b, stream := { bytes := LittleEndian.encode 4 length ++ rest, ending } } =
      .error e { budget := b, stream := left } := by
  obtain ⟨left, hleft⟩ := h
  refine ⟨left, ?_⟩
  rw [readRecord, Action.bind_ok (Action.ensure_ok hdim _),
    Action.bind_ok (Transfer.streamed_ok (reads_number hlt rest ending)),
    if_neg (Nat.ne_of_gt hpos)]
  exact Action.bind_error (Transfer.streamed_error hleft)

/-- A defect of a record is refused with its error, and nothing has been charged. -/
theorem RecordDefect.refuses {store device : ListSpec} (hdim : store.dim = device.dim)
    {ending : Ending} {bytes : Bytes} {e : Error}
    (h : RecordDefect t i store.layout ending bytes e) (b : Budget) :
    ∃ left, readRecord t i store device { budget := b, stream := { bytes, ending } } =
      .error e { budget := b, stream := left } := by
  have hids : ∀ {length : Nat}, length < countLimit →
      Reads (readDescriptor .indices i.element [length]) (descriptor i.element [length]) () := by
    intro length hlt
    exact reads_descriptor .indices i.element (show 1 ≤ 8 by decide)
      (List.forall_mem_singleton.mpr hlt)
  cases h with
  | shortLength h =>
      obtain ⟨left, hleft⟩ := refuses_number h ending
      refine ⟨left, ?_⟩
      rw [readRecord, Action.bind_ok (Action.ensure_ok hdim _)]
      exact Action.bind_error (Transfer.streamed_error hleft)
  | idsDescriptor hpos hlt h => exact refuses_record_of_arrays hdim hpos hlt h.refuses.bind b
  | shortIds hpos hlt h =>
      refine refuses_record_of_arrays hdim hpos hlt ?_ b
      exact .behind (hids hlt) (refuses_words h ending).bind
  | @wordsDescriptor ids rest e hpos hlt h =>
      refine refuses_record_of_arrays hdim hpos hlt ?_ b
      exact .behind (hids hlt) (.behind (reads_words ids) h.refuses.bind)
  | @shortWords ids rest hpos hlt h =>
      have hfour : (store.layout.extents ids.size).toList.length ≤ greatestRank :=
        show 4 ≤ 8 by decide
      have hwords := reads_descriptor .data t hfour (extent_lt store.layout hlt)
      refine refuses_record_of_arrays hdim hpos hlt ?_ b
      exact .behind (hids hlt) (.behind (reads_words ids)
        (.behind hwords (refuses_words h ending).bind))

/-- No defect is told as a refused buffer. -/
theorem RecordDefect.not_isAllocation {store : Layout} {ending : Ending} {bytes : Bytes}
    {e : Error} (h : RecordDefect t i store ending bytes e) : ¬ e.IsAllocation := by
  have hending : ¬ ending.error.IsAllocation := by
    rintro ⟨_, _, h⟩
    cases ending <;> cases h
  have hdescriptor : ∀ {role expected extents rest},
      DescriptorDefect role expected extents ending rest e → ¬ e.IsAllocation := by
    intro role expected extents rest h
    cases h with
    | noTag | noRank | shortExtents => exact hending
    | unknownTag | rank | otherType | otherExtents => rintro ⟨_, _, h⟩; cases h
  cases h with
  | shortLength | shortIds | shortWords => exact hending
  | idsDescriptor _ _ h | wordsDescriptor _ _ h => exact hdescriptor h

/-! ## What a record encodes -/

/-- The ids of a record, each with its words in the order of the columns. -/
def recordSlots (store : Layout) (ids : Array (Id i)) (words : Array (Word t)) :
    List (Id i × List (Word t)) :=
  ids.toList.mapIdx fun p id => (id, (store.extents ids.size).recordOf words p)

/-- Words in the order of a layout, with zeros for the records from `n` on. -/
def clearedFrom (store : Layout) (n : Nat) (words : Array (Word t)) : Array (Word t) :=
  words.mapIdx fun k word => if Interleave.recordAt store.dim store.veclen k < n then word else 0

theorem length_recordSlots (store : Layout) (ids : Array (Id i)) (words : Array (Word t)) :
    (recordSlots store ids words).length = ids.size := by
  rw [recordSlots, List.length_mapIdx, Array.length_toList]

theorem getElem?_recordSlots (store : Layout) (ids : Array (Id i)) (words : Array (Word t))
    (p : Nat) : (recordSlots store ids words)[p]? =
      ids[p]?.map fun id => (id, (store.extents ids.size).recordOf words p) := by
  rw [recordSlots, List.getElem?_mapIdx, Array.getElem?_toList]

/-- The ids that are stored for the slots of a record are its ids. -/
theorem ids_recordSlots (store : Layout) (ids : Array (Id i)) (words : Array (Word t)) :
    ((recordSlots store ids words).map Prod.fst).toArray = ids := by
  apply Array.ext_getElem?
  intro p
  rw [List.getElem?_toArray, List.getElem?_map, getElem?_recordSlots, Option.map_map]
  exact Option.map_id_apply

/-- The words that are stored for the slots of a record are its words, where there are records. -/
theorem arranged_recordSlots {store : Layout} {ids : Array (Id i)} {words : Array (Word t)}
    (hwords : words.size = (store.extents ids.size).length) :
    arranged store ((recordSlots store ids words).map Prod.snd) =
      clearedFrom store ids.size words := by
  have hlength : ((recordSlots store ids words).map Prod.snd).length = ids.size := by
    rw [List.length_map, length_recordSlots]
  apply Array.ext_getElem?
  intro k
  rw [clearedFrom, Array.getElem?_mapIdx]
  by_cases hk : k < (store.extents ids.size).length
  swap
  · rw [Array.getElem?_eq_none (by rw [size_arranged, hlength]; omega),
      Array.getElem?_eq_none (by omega)]
    rfl
  have hbound : k < words.size := hwords.symm ▸ hk
  have hcolumn := Interleave.columnAt_lt store.veclen_pos store.veclen_dvd_dim store.dim_pos k
  have hplace := Interleave.position_recordAt_columnAt store.veclen_pos store.veclen_dvd_dim
    store.dim_pos k
  rw [getElem?_arranged (hlength.symm ▸ hk), List.getElem?_map, getElem?_recordSlots,
    Array.getElem?_eq_getElem hbound, Option.map_some]
  by_cases hrow : Interleave.recordAt store.dim store.veclen k < ids.size
  · have hinside : ∀ d < (store.extents ids.size).dim,
        Interleave.position (store.extents ids.size).dim (store.extents ids.size).veclen
          (Interleave.recordAt store.dim store.veclen k) d < words.size := by
      intro d hd
      rw [store.dim_extents] at hd
      rw [hwords, Extents.length, Extents.groupLength, store.dim_extents, store.veclen_extents]
      exact Interleave.position_lt store.veclen_pos store.veclen_dvd_dim
        (Nat.lt_of_lt_of_le hrow (store.le_rows_extents ids.size)) hd
    rw [if_pos hrow, Array.getElem?_eq_getElem hrow, Option.map_some, Option.map_some,
      Option.bind_some, Extents.getElem?_recordOf hinside (store.dim_extents _ ▸ hcolumn),
      store.dim_extents, store.veclen_extents, hplace, Array.getElem?_eq_getElem hbound,
      Option.getD_some]
  · rw [if_neg hrow, Array.getElem?_eq_none (Nat.le_of_not_lt hrow)]
    rfl

/-- The slots of a record are stored as this record, with zeros where it has no records. -/
theorem isRecord_recordBytes {store : Layout} {record : Bytes} {ids : Array (Id i)}
    {words : Array (Word t)} (h : IsRecord store record ids words) :
    IsRecord store (recordBytes store (recordSlots store ids words)) ids
      (clearedFrom store ids.size words) := by
  cases h with
  | empty => exact .empty
  | records hpos hlt hwords =>
      have hsome : ¬ (recordSlots store ids words).isEmpty := by
        rw [List.isEmpty_iff_length_eq_zero, length_recordSlots]
        exact Nat.ne_of_gt hpos
      rw [recordBytes, if_neg hsome, length_recordSlots, ids_recordSlots,
        arranged_recordSlots hwords, flatten_recordFields]
      exact .records hpos hlt ((Array.size_mapIdx ..).trans hwords)

/-! ## Reading any bytes -/

/-- A list that has been made of a record: its slots are those of the record, and stored in the
same layout it is the same record, with zeros where the record has no records. -/
structure MadeOf (store device : ListSpec) (ids : Array (Id i)) (words : Array (Word t))
    (l : InvertedList t i) : Prop where
  loaded : Loaded device l
  published_eq : l.published = recordSlots store.layout ids words
  stored : ∀ b : Budget, (0 < ids.size → EncodingGranted l store.layout ids.size b) →
    ∃ out, l.writeRecord store none { budget := b, stream := .empty none } = .ok () out ∧
      IsRecord store.layout out.stream.written ids (clearedFrom store.layout ids.size words)

theorem MadeOf.size_eq {store device : ListSpec} {ids : Array (Id i)} {words : Array (Word t)}
    {l : InvertedList t i} (h : MadeOf store device ids words l) : l.size = ids.size := by
  rw [← length_published h.loaded.wellFormed, h.published_eq, length_recordSlots]

/-- A list with the slots of a record is stored as this record. -/
theorem madeOf_of_published {store device : ListSpec} (hdim : store.dim = device.dim)
    {record : Bytes} {ids : Array (Id i)} {words : Array (Word t)}
    (h : IsRecord store.layout record ids words) {l : InvertedList t i} (hloaded : Loaded device l)
    (hpublished : l.published = recordSlots store.layout ids words) :
    MadeOf store device ids words l := by
  refine ⟨hloaded, hpublished, fun b hgranted => ?_⟩
  have hl := hloaded.wellFormed
  have hwidth : store.dim = l.spec.dim := hloaded.spec_eq ▸ hdim
  have hsize : l.size = ids.size := by
    rw [← length_published hl, hpublished, length_recordSlots]
  rw [← hsize] at hgranted
  rcases writeRecord_cases hl hwidth none { budget := b, stream := .empty none } with
    ⟨e, -, -, hsome, hrefused⟩ | ⟨-, fields, himage, hrun⟩
  · exact absurd (hgranted (Nat.pos_of_ne_zero hsome)) hrefused
  · obtain ⟨out, hput, -⟩ := Sink.putAll_unlimited fields (s := .empty none) rfl
    refine ⟨{ budget := b, stream := out }, hrun.trans (Transfer.streamed_ok hput), ?_⟩
    have hwritten := Sink.putAll_ok hput
    rw [Sink.written_empty, List.nil_append, himage.flatten_eq_published hl hwidth,
      hpublished] at hwritten
    show IsRecord store.layout out.written ids _
    rw [hwritten]
    exact isRecord_recordBytes h

/-- A record is read to its end, and then it is up to the buffers whether a list is made of it. -/
theorem read_of_record {store device : ListSpec} (hdim : store.dim = device.dim) {record : Bytes}
    {ids : Array (Id i)} {words : Array (Word t)} (h : IsRecord store.layout record ids words)
    (b : Budget) (tail : Bytes) (ending : Ending) :
    (ReadingGranted t i device store.layout ids.size b → ∃ l,
        readRecord t i store device
            { budget := b, stream := { bytes := record ++ tail, ending } } =
          .ok l { budget := b.charged l.reserved, stream := { bytes := tail, ending } } ∧
        MadeOf store device ids words l) ∧
      (¬ ReadingGranted t i device store.layout ids.size b → ∃ e,
        readRecord t i store device
            { budget := b, stream := { bytes := record ++ tail, ending } } =
          .error e { budget := b, stream := { bytes := tail, ending } } ∧ e.IsAllocation) := by
  cases h with
  | empty =>
      refine ⟨fun _ => ⟨empty t i device, readRecord_empty hdim b tail ending, ?_⟩,
        fun hrefused => absurd (Or.inl rfl) hrefused⟩
      exact madeOf_of_published hdim .empty (loaded_empty device) (published_empty device)
  | records hpos hlt hwords =>
      have hread := readRecord_fields hdim hpos hlt hwords b tail ending
      rw [flatten_recordFields] at hread
      rw [hread]
      rcases ofStored_cases (i := i) hdim hwords b with
        ⟨⟨e, he, hallocation⟩, hrefused⟩ | ⟨capacity, l, hcapacity, hgranted, hok, hstored⟩
      · refine ⟨?_, fun _ => ⟨e, Action.focus_error he, hallocation⟩⟩
        rintro (hzero | ⟨capacity, hcapacity, hgranted⟩)
        · exact absurd hzero (Nat.ne_of_gt hpos)
        · exact absurd hgranted (hrefused capacity hcapacity)
      · refine ⟨fun _ => ⟨l, Action.focus_ok hok, ?_⟩,
          fun hrefused => absurd (Or.inr ⟨capacity, hcapacity, hgranted⟩) hrefused⟩
        have hloaded : Loaded device l := ⟨hstored.spec_eq, hstored.wellFormed hcapacity,
          hstored.tight hcapacity hpos, hstored.hosted hgranted.list⟩
        refine madeOf_of_published hdim (.records hpos hlt hwords) hloaded ?_
        apply List.ext_getElem?
        intro p
        rw [hstored.published_eq hcapacity hdim, getElem?_recordSlots]

/-- Bytes are read as a list exactly when they start with a record and its buffers are granted. The
record is then taken to its end and nothing behind it, and the list is made of it in any layout of
the same width, with any capacities. Where a buffer is refused, it is refused behind the record, and
where there is no record, the first defect tells the error. In no case of failure is anything
charged. -/
theorem readRecord_accepts_exactly_records (t : ElementType) (i : IdType)
    {store device : ListSpec} (hdim : store.dim = device.dim) (b : Budget) (bytes : Bytes)
    (ending : Ending) :
    ((∃ l out, readRecord t i store device { budget := b, stream := { bytes, ending } } =
          .ok l out) ↔
        ∃ record tail, ∃ ids : Array (Id i), ∃ words : Array (Word t),
          bytes = record ++ tail ∧ IsRecord store.layout record ids words ∧
            ReadingGranted t i device store.layout ids.size b) ∧
      (∀ record tail, ∀ ids : Array (Id i), ∀ words : Array (Word t),
        bytes = record ++ tail → IsRecord store.layout record ids words →
          (ReadingGranted t i device store.layout ids.size b → ∃ l,
            readRecord t i store device { budget := b, stream := { bytes, ending } } =
              .ok l { budget := b.charged l.reserved, stream := { bytes := tail, ending } } ∧
            MadeOf store device ids words l) ∧
          (¬ ReadingGranted t i device store.layout ids.size b → ∃ e,
            readRecord t i store device { budget := b, stream := { bytes, ending } } =
              .error e { budget := b, stream := { bytes := tail, ending } } ∧ e.IsAllocation)) ∧
      ((¬ ∃ record tail, ∃ ids : Array (Id i), ∃ words : Array (Word t),
          bytes = record ++ tail ∧ IsRecord store.layout record ids words) ↔
        ∃ e, RecordDefect t i store.layout ending bytes e) ∧
      ∀ e, RecordDefect t i store.layout ending bytes e → ∃ left,
        readRecord t i store device { budget := b, stream := { bytes, ending } } =
          .error e { budget := b, stream := left } := by
  refine ⟨⟨?_, ?_⟩, ?_, ⟨?_, ?_⟩, fun e h => h.refuses hdim b⟩
  · rintro ⟨l, out, hok⟩
    rcases record_or_defect t i store.layout ending bytes with
      ⟨record, tail, ids, words, rfl, h⟩ | ⟨e, hdefect⟩
    · refine ⟨record, tail, ids, words, rfl, h, ?_⟩
      by_contra hrefused
      obtain ⟨e, he, -⟩ := (read_of_record hdim h b tail ending).2 hrefused
      rw [hok] at he
      cases he
    · obtain ⟨left, he⟩ := hdefect.refuses hdim b
      rw [hok] at he
      cases he
  · rintro ⟨record, tail, ids, words, rfl, h, hgranted⟩
    obtain ⟨l, hok, -⟩ := (read_of_record hdim h b tail ending).1 hgranted
    exact ⟨l, _, hok⟩
  · rintro record tail ids words rfl h
    exact read_of_record hdim h b tail ending
  · intro hnone
    exact (record_or_defect t i store.layout ending bytes).resolve_left hnone
  · rintro ⟨e, hdefect⟩ ⟨record, tail, ids, words, rfl, h⟩
    obtain ⟨left, he⟩ := hdefect.refuses hdim b
    by_cases hgranted : ReadingGranted t i device store.layout ids.size b
    · obtain ⟨l, hok, -⟩ := (read_of_record hdim h b tail ending).1 hgranted
      rw [hok] at he
      cases he
    · obtain ⟨e', he', hallocation⟩ := (read_of_record hdim h b tail ending).2 hgranted
      rw [he'] at he
      cases he
      exact hdefect.not_isAllocation hallocation

/-- A record of one list with one record, whose words are nines, also in the 31 places of the group
where there is no record. -/
def nines : Bytes :=
  LittleEndian.encode 4 1 ++ (descriptor .i32 [1] ++ (Word.encodeAll (t := .i32) #[7] ++
    (descriptor .u8 [1, 2, 32, 2] ++ Word.encodeAll (t := .u8) (Array.replicate 128 9))))

theorem isRecord_nines : IsRecord (fourColumns 1 (by decide) .doubling).layout nines
    (#[7] : Array (Id .i32)) (Array.replicate 128 (9 : Word .u8)) := by
  have hrecord : IsRecord (fourColumns 1 (by decide) .doubling).layout _ (#[7] : Array (Id .i32))
      (Array.replicate 128 (9 : Word .u8)) :=
    .records (by decide) (by decide) (by decide +kernel)
  exact hrecord

set_option maxRecDepth 4000 in
/-- One record is read into another layout, and the nines behind it are zeros when it is stored
again. -/
theorem readRecord_accepts_nines : ∃ l out again,
    readRecord .u8 .i32 (fourColumns 1 (by decide) .doubling) (fourColumns 2 (by decide) .steady)
        { budget := .new none
          stream := { bytes := nines ++ [255], ending := .endOfInput } } = .ok l out ∧
      out.stream.bytes = [255] ∧ l.published = [(7, [9, 9, 9, 9])] ∧
      l.writeRecord (fourColumns 1 (by decide) .doubling) none
        { budget := .new none, stream := .empty none } = .ok () again ∧
      IsRecord (fourColumns 1 (by decide) .doubling).layout again.stream.written
        (#[7] : Array (Id .i32)) (((((Array.replicate 128 (0 : Word .u8)).set! 0 9).set!
          1 9).set! 64 9).set! 65 9) := by
  have hdim : (fourColumns 1 (by decide) .doubling).dim = (fourColumns 2 (by decide) .steady).dim :=
    rfl
  have hgranted : ReadingGranted .u8 .i32 (fourColumns 2 (by decide) .steady)
      (fourColumns 1 (by decide) .doubling).layout 1 (.new none) :=
    Or.inr ⟨32, rfl, ⟨⟨by decide, by decide, nofun⟩, ⟨by decide, by decide, nofun⟩⟩,
      Or.inr ⟨by decide, by decide, nofun⟩⟩
  obtain ⟨l, hread, hmade⟩ := ((readRecord_accepts_exactly_records .u8 .i32 hdim (.new none) _
    .endOfInput).2.1 nines [255] _ _ rfl isRecord_nines).1 hgranted
  have hsaving : EncodingGranted l (fourColumns 1 (by decide) .doubling).layout 1 (.new none) := by
    have hsize : l.size = 1 := hmade.size_eq
    have hwidth : l.spec.dim = 4 := by
      rw [hmade.loaded.spec_eq]
      rfl
    constructor
    · exact ⟨by decide, by decide, nofun⟩
    all_goals
      rw [hsize, hwidth]
      exact ⟨by decide, by decide, nofun⟩
  have hcleared : clearedFrom (fourColumns 1 (by decide) .doubling).layout 1
      (Array.replicate 128 (9 : Word .u8)) = ((((Array.replicate 128 (0 : Word .u8)).set! 0 9).set!
        1 9).set! 64 9).set! 65 9 := by
    decide +kernel
  obtain ⟨again, hwrite, hstored⟩ := hmade.stored (.new none) fun _ => hsaving
  refine ⟨l, _, again, hread, rfl, ?_, hwrite, ?_⟩
  · rw [hmade.published_eq]
    decide +kernel
  · rw [← hcleared]
    exact hstored

end InvertedFile.InvertedList
