import InvertedFile.Proofs.Index.Alike
import InvertedFile.Proofs.Index.Params
import InvertedFile.Proofs.Reads

/-!
# Writing an index and reading it again

The header of an image gives back the parameters and the spec, and each record
gives back its list and ends where the next one starts. The lists are read
into the layout they are stored in, so that their buffers are all that is
asked of the budget; and since no list of an index has more room than it
needs, the capacities come back although the image leaves them out.

## Main results

* `reads_header` — the header reads back.
* `read_of_image` — an index reads back, unless the budget has no room for it.
* `Index.write_of_room` — an index is written when twice its bytes can be
  counted.
-/

namespace InvertedFile

theorem ListSpec.ofWidths_widths (spec : ListSpec) :
    ListSpec.ofWidths (UInt32.ofNat spec.dim) (UInt32.ofNat spec.veclen) spec.growth =
      .ok spec := by
  have hveclen : spec.layout.veclen < 2 ^ 32 :=
    Nat.lt_of_le_of_lt spec.layout.veclen_le_dim spec.layout.dim_lt
  have hlayout : Layout.ofWidths (UInt32.ofNat spec.dim) (UInt32.ofNat spec.veclen) =
      .ok spec.layout := by
    rw [Layout.ofWidths_eq_ok_iff]
    exact ⟨(UInt32.toNat_ofNat_of_lt' spec.layout.dim_lt).symm,
      (UInt32.toNat_ofNat_of_lt' hveclen).symm⟩
  rw [ofWidths, hlayout]
  rfl

/-- A check that passes in front of what is read. -/
theorem Source.Reads.check {α : Type} {p : Prop} [Decidable p] (h : p) {e : Error}
    {f : Unit → Action Source α} {bytes : Bytes} {a : α} (hf : Reads (f ()) bytes a) :
    Reads (ensure p e >>= f) bytes a :=
  Reads.bind (reads_ensure h e) hf

namespace LoadedIndex

open Index Source

variable {t : ElementType} {i : IdType}

theorem reads_tag (role : TypeRole) (expected : ElementType) :
    Reads (readTag role expected) [expected.tag] () := by
  have hread := (reads_byte expected.tag).bind
    (f := fun n => ensure (UInt8.ofNat n = expected.tag)
      (.incompatible (.elementType role expected (UInt8.ofNat n))))
    (reads_ensure UInt8.ofNat_toNat _)
  exact hread

/-- The header of an image reads back. -/
theorem reads_header {x : Index} (hgrowth : x.spec.growth = x.params.growth) :
    Reads (readHeader t i) (headerFields t i x).flatten
      { params := x.params, spec := x.spec } := by
  have hdim : x.dim < 256 ^ 4 := x.spec.layout.dim_lt
  have hveclen : x.veclen < 256 ^ 4 :=
    Nat.lt_of_le_of_lt x.spec.layout.veclen_le_dim x.spec.layout.dim_lt
  have hlength := x.params.length_toJson_le
  have hlength' : x.params.toJson.length < 256 ^ 4 := Nat.lt_of_le_of_lt hlength (by decide)
  have hlists : x.lists < 256 ^ 4 := x.params.lists.toNat_lt
  simp only [headerFields, List.flatten_cons, List.flatten_nil, readHeader]
  refine (reads_number (by decide)).bind (.check rfl ?_)
  refine (reads_number (by decide)).bind (.check rfl ?_)
  refine (reads_tag .value t).bind ((reads_tag .id i.element).bind ?_)
  refine (reads_number hdim).bind ((reads_number hveclen).bind ?_)
  refine (reads_number hlength').bind (.check hlength ?_)
  refine (reads_take x.params.toJson).bind ?_
  rw [IndexParams.ofJson?_toJson]
  refine (reads_number hlists).bind (.check rfl ?_)
  rw [← hgrowth, Index.dim, Index.veclen, ListSpec.ofWidths_widths]
  exact Reads.pure _

end LoadedIndex

namespace Index.Sound

variable {t : ElementType} {i : IdType} {x : Index} {s : Store t i}

/-- The records of an image are those of the lists of the index. -/
theorem images_heldLists (hx : x.Sound s) {records : List (List Bytes)}
    (h : List.Forall₂ (x.IsSlotImage s) (List.range x.lists) records) :
    List.Forall₂ (fun l fields => InvertedList.IsImage l x.spec.layout l.size fields)
      (x.heldLists s) records := by
  obtain ⟨hlength, himages⟩ := List.forall₂_iff_get.mp h
  rw [List.length_range] at hlength
  rw [List.forall₂_iff_get]
  refine ⟨hx.length_heldLists.trans hlength, ?_⟩
  intro label hlt hlt'
  obtain ⟨id, l, hid, hl, himage⟩ :=
    himages label (by rw [List.length_range]; omega) hlt'
  rw [List.get_eq_getElem, List.getElem_range] at hid
  have hget := hx.getElem?_heldLists label
  rw [hid, Option.bind_some, hl, List.getElem?_eq_getElem hlt, Option.some.injEq] at hget
  rw [List.get_eq_getElem, hget]
  exact himage

end Index.Sound

/-! ## Reading the records -/

/-- A list that is hosted and has no more room than it needs is read into the layout it is stored in
when there is room for its bytes. -/
theorem InvertedList.readingGranted_of_room {t : ElementType} {i : IdType}
    {l : InvertedList t i} (hwell : l.WellFormed) (hhosted : l.Hosted) (htight : l.Tight)
    {b : Budget} (hroom : (b.charged l.memoryBytes).Sound) :
    ReadingGranted t i l.spec l.spec.layout l.size b := by
  by_cases hzero : l.size = 0
  · exact Or.inl hzero
  · rw [Tight, Growth.room?_of_pos (Nat.pos_of_ne_zero hzero)] at htight
    have hwords : wordBytes t l.spec l.capacity = l.data.size * t.size := by
      rw [hwell.size_data]
      rfl
    have hids : idBytes i l.capacity = l.ids.size * i.size := by
      rw [hwell.size_ids]
      rfl
    have hbytes : l.memoryBytes = wordBytes t l.spec l.capacity + idBytes i l.capacity := by
      rw [hwords, hids]
      rfl
    have hcount : b.inUse + l.memoryBytes < byteLimit := hroom.inUse_lt
    have hlimit : ∀ limit ∈ b.limit, b.inUse + l.memoryBytes ≤ limit := hroom.le_limit
    rw [hbytes] at hcount hlimit
    refine Or.inr ⟨l.capacity, htight, ⟨⟨by omega, hwords ▸ hhosted.words, ?_⟩,
      ⟨?_, hids ▸ hhosted.ids, ?_⟩⟩, Or.inl rfl⟩
    · intro limit hmem
      have hle := hlimit limit hmem
      omega
    · show b.inUse + wordBytes t l.spec l.capacity + idBytes i l.capacity < byteLimit
      omega
    · intro limit hmem
      have hle := hlimit limit hmem
      show b.inUse + wordBytes t l.spec l.capacity + idBytes i l.capacity ≤ limit
      omega

namespace LoadedIndex

open Index

variable {t : ElementType} {i : IdType}

/-- The records of lists read back one after the other, unless the budget has no room for them. One
without a limit has room as long as their bytes can be counted. -/
theorem readRecords_of_images {spec : ListSpec} {ls : List (InvertedList t i)}
    {records : List (List Bytes)}
    (himages : List.Forall₂ (fun l fields => InvertedList.IsImage l spec.layout l.size fields)
      ls records)
    (hls : ∀ l ∈ ls, l.WellFormed ∧ l.Hosted ∧ l.spec = spec ∧ l.Tight) (b : Budget)
    (tail : Bytes) (ending : Ending) :
    ((b.limit = none → byteLimit ≤ b.inUse + (ls.map (·.memoryBytes)).sum) ∧ ∃ e tr,
        readRecords t i spec ls.length
            { budget := b, stream := { bytes := records.flatten.flatten ++ tail, ending } } =
          .error e tr ∧ e.IsAllocation) ∨
      ∃ ls', readRecords t i spec ls.length
          { budget := b, stream := { bytes := records.flatten.flatten ++ tail, ending } } =
        .ok ls'
          { budget := b.charged (ls.map (·.memoryBytes)).sum
            stream := { bytes := tail, ending } } ∧
        List.Forall₂ InvertedList.Alike ls ls' := by
  induction himages generalizing b with
  | nil => exact Or.inr ⟨[], rfl, .nil⟩
  | @cons l fields ls records himage _ ih =>
      obtain ⟨hwell, hhosted, rfl, htight⟩ := hls l (List.mem_cons_self ..)
      rw [List.map_cons, List.sum_cons, List.flatten_cons, List.flatten_append, List.append_assoc,
        List.length_cons, readRecords]
      rcases InvertedList.readRecord_of_image hwell rfl rfl hwell.size_lt himage b
        (records.flatten.flatten ++ tail) ending with
        ⟨hrefused, e, hread, he⟩ | ⟨-, after, hread, hback⟩
      · left
        refine ⟨fun hlimit => ?_, e, _, Action.bind_error hread, he⟩
        by_contra hroom
        have hcount : b.inUse + l.memoryBytes < byteLimit := by omega
        refine hrefused (InvertedList.readingGranted_of_room hwell hhosted htight ⟨hcount, ?_⟩)
        rw [Budget.limit_charged, hlimit]
        intro limit hmem
        cases hmem
      have halike := hback.alike hwell htight
      have hreserved : after.reserved = l.memoryBytes := by
        rw [hback.wellFormed.reserved_eq, halike.memoryBytes_eq]
      rw [Action.bind_ok hread]
      rcases ih (fun l' hl' => hls l' (List.mem_cons_of_mem _ hl'))
        (b := b.charged after.reserved) with
        ⟨hroom, e, tr, hmore, he⟩ | ⟨ls', hmore, halikes⟩
      · left
        refine ⟨fun hlimit => ?_, e, _,
          Action.bind_error (Action.undoing_error.mpr ⟨tr, hmore, rfl⟩), he⟩
        have hrest := hroom ((Budget.limit_charged b _).trans hlimit)
        have hinUse : (b.charged after.reserved).inUse = b.inUse + after.reserved := rfl
        omega
      · right
        refine ⟨after :: ls', ?_, .cons halike halikes⟩
        rw [Action.bind_ok (Action.undoing_ok.mpr hmore), Budget.charged_charged, hreserved]
        rfl

/-- An index reads back from its image, with anything behind it, unless the budget has no room for
its bytes. One without a limit has room as long as they can be counted. -/
theorem read_of_image {x : Index} {s : Store t i} {refs : List ListId} {pending : Nat}
    (hx : x.Sound s) (hacc : s.Accounts refs pending) {fields : List Bytes}
    (himage : x.IsImage s fields) (b : Budget) (tail : Bytes) (ending : Ending) :
    ((b.limit = none → byteLimit ≤ b.inUse + x.memoryBytes s) ∧ ∃ e tr,
        read t i { budget := b, stream := { bytes := fields.flatten ++ tail, ending } } =
          .error e tr ∧ e.IsAllocation) ∨
      ∃ y : LoadedIndex t i,
        read t i { budget := b, stream := { bytes := fields.flatten ++ tail, ending } } =
          .ok y
            { budget := b.charged (x.memoryBytes s), stream := { bytes := tail, ending } } ∧
        y.params = x.params ∧ y.spec = x.spec ∧
        List.Forall₂ InvertedList.Alike (x.heldLists s) y.lists := by
  obtain ⟨records, hrecords, rfl⟩ := himage
  have hheader := reads_header (t := t) (i := i) hx.growth_eq (records.flatten.flatten ++ tail)
    ending
  rw [List.flatten_append, List.append_assoc, read, Action.bind_ok (Transfer.streamed_ok hheader)]
  have hreadRecords := readRecords_of_images (hx.images_heldLists hrecords)
    (fun l hl => hx.of_mem_heldLists hacc hl) b tail ending
  rw [hx.length_heldLists] at hreadRecords
  rcases hreadRecords with ⟨hroom, e, tr, hread, he⟩ | ⟨ls', hread, halikes⟩
  · exact Or.inl ⟨hroom, e, tr, Action.bind_error hread, he⟩
  · exact Or.inr ⟨{ params := x.params, spec := x.spec, lists := ls' }, Action.bind_ok hread, rfl,
      rfl, halikes⟩

/-- An index whose lists look like those of another one looks like it when it has been taken in. -/
theorem alike_of_lists {x : Index} {s : Store t i} (hx : x.Sound s) {lists : List (InvertedList t i)}
    (halikes : List.Forall₂ InvertedList.Alike (x.heldLists s) lists) {y : OpenIndex t i}
    (hparams : y.index.params = x.params) (hspec : y.index.spec = x.spec)
    (hlists : ∀ label : Nat, y.index.slots[label]?.bind y.store.list? = lists[label]?) :
    OpenIndex.Alike { index := x, store := s } y where
  params_eq := hparams
  spec_eq := hspec
  list := by
    intro label hlt
    obtain ⟨hlength, hget⟩ := List.forall₂_iff_get.mp halikes
    have hheld : label < (x.heldLists s).length := hx.length_heldLists.symm ▸ hlt
    have hlist := hx.getElem?_heldLists label
    rw [List.getElem?_eq_getElem hheld] at hlist
    obtain ⟨id, hid, hl⟩ := Option.bind_eq_some_iff.mp hlist.symm
    have hlist' := hlists label
    rw [List.getElem?_eq_getElem (hlength ▸ hheld)] at hlist'
    obtain ⟨id', hid', hl'⟩ := Option.bind_eq_some_iff.mp hlist'
    exact ⟨id, _, id', _, hid, hl, hid', hl', hget label hheld (hlength ▸ hheld)⟩

end LoadedIndex

/-- An index is written to a sink without a limit when twice its bytes can be counted. -/
theorem Index.write_of_room {t : ElementType} {i : IdType} {x : Index} {s : Store t i}
    {refs : List ListId} {pending : Nat} (hx : x.Sound s) (hacc : s.Accounts refs pending)
    {tr : Transfer Sink} (hlimit : tr.budget.limit = none) (hsink : tr.stream.room = none)
    (hroom : tr.budget.inUse + 2 * x.memoryBytes s < byteLimit) :
    ∃ tr', x.write s tr = .ok () tr' := by
  apply write_ok hx hacc _ hsink
  intro label id l hid hl
  have hle := hx.memoryBytes_le_of_list hid hl
  exact InvertedList.encodingGranted_of_room (hacc.wellFormed_list hl) (hacc.hosted_list hl) hlimit
    (by omega)

end InvertedFile
