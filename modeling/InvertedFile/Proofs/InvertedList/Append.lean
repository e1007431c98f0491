import InvertedFile.Proofs.InvertedList.Records

/-!
# Appending to a list

An append is three writes: the words of the records, their ids, and the new
published size. Each has a check of its own, and on a well-formed list with
room for the batch all three checks pass. So an append that is given as many
elements as its ids ask for, and that fits, succeeds, and what it publishes
is the batch behind what was published before. The number of elements of a
batch that fits is a word.

Records of one group share a stretch of the buffer. That the published ones
stay as they are is a fact about coordinates: the columns that are written
belong to other records.

## Main results

* `pack_ok`, `writeIds_ok`, `publish_ok` — the three writes.
* `elementCount_eq` — the length of a batch that fits does not wrap.
* `append_of_pack` — once the words are packed, the other two writes succeed.
* `append_ok` — an append that fits succeeds.
* `published_appended` — what is published afterwards.
-/

namespace InvertedFile.InvertedList

variable {t : ElementType} {i : IdType}

/-! ## The writes of a writer -/

/-- The checks of a writer let a batch for unpublished slots through to its loop. -/
theorem pack_of_slots {l : InvertedList t i} {codes data : Array (Word t)} {start n : Nat}
    (hcodes : codes.size = n * l.spec.dim) (hroom : start + n ≤ l.capacity)
    (htail : n = 0 ∨ l.size ≤ start)
    (hslots : (List.range n).forM (packSlot l.spec.dim l.spec.veclen start codes) l.data =
      .ok () data) :
    pack codes start l = .ok () { l with data } := by
  have hdim : 0 < l.spec.dim := l.spec.layout.dim_pos
  have hwhole : codes.size % l.spec.dim = 0 := by
    rw [hcodes, Nat.mul_mod_left]
  have hcount : codes.size / l.spec.dim = n := by
    rw [hcodes, Nat.mul_div_cancel n hdim]
  have hcheck := (l.checkTail_eq_ok_iff start n).mpr ⟨hroom, htail⟩
  change ((ensure (codes.size % l.spec.dim = 0) _ : Action _ Unit) >>= _) l = _
  rw [Action.bind_ok (Action.ensure_ok hwhole l), hcount,
    Action.bind_ok (Action.ofExcept_ok hcheck l)]
  exact Action.focus_ok hslots

theorem pack_ok {l : InvertedList t i} (h : l.WellFormed) {codes : Array (Word t)}
    {start n : Nat} (hcodes : codes.size = n * l.spec.dim) (hroom : start + n ≤ l.capacity)
    (htail : n = 0 ∨ l.size ≤ start) :
    ∃ data, pack codes start l = .ok () { l with data } ∧
      Interleave.Packed l.spec.dim l.spec.veclen start n codes l.data data := by
  obtain ⟨data, hok, hpacked⟩ := Interleave.packSlots_ok l.spec.layout.veclen_pos
    l.spec.layout.veclen_dvd_dim (Nat.le_of_eq hcodes.symm)
    fun k hk => h.covers (by omega : start + k < l.capacity)
  exact ⟨data, pack_of_slots hcodes hroom htail hok, hpacked⟩

theorem writeIds_ok {l : InvertedList t i} (h : l.ids.size = l.capacity) {ids : Array (Id i)}
    {start : Nat} (hroom : start + ids.size ≤ l.capacity)
    (htail : ids.size = 0 ∨ l.size ≤ start) :
    writeIds ids start l = .ok () { l with ids := Buffer.overwrite l.ids start ids.toList } := by
  have hcheck := (l.checkTail_eq_ok_iff start ids.size).mpr ⟨hroom, htail⟩
  change (Action.ofExcept (l.checkTail start ids.size) >>= _) l = _
  rw [Action.bind_ok (Action.ofExcept_ok hcheck l)]
  exact Action.focus_ok (Buffer.store_eq_ok (h.symm ▸ hroom))

theorem publish_ok {l : InvertedList t i} {size : Nat} (hroom : size ≤ l.capacity)
    (hgrow : l.size ≤ size) : publish size l = .ok () { l with size } := by
  change ((ensure (size ≤ l.capacity) _ : Action _ Unit) >>= _) l = _
  rw [Action.bind_ok (Action.ensure_ok hroom l), Action.bind_ok (Action.ensure_ok hgrow l)]
  rfl

/-! ## Appending -/

/-- Capacities and widths of records are words of thirty-two bits. -/
theorem elementCount_eq {l : InvertedList t i} (h : l.WellFormed) {n : Nat}
    (hn : n ≤ l.capacity) : elementCount l.spec.dim n = n * l.spec.dim := by
  have hcount : n < UInt32.size := Nat.lt_of_le_of_lt hn h.capacity_lt
  apply elementCount_of_lt
  calc n * l.spec.dim ≤ n * UInt32.size :=
        Nat.mul_le_mul_left n (Nat.le_of_lt l.spec.layout.dim_lt)
    _ < UInt32.size * UInt32.size := Nat.mul_lt_mul_of_pos_right hcount (by decide)
    _ = UInt64.size := by decide

/-- Behind the check of the length of its batch an append is three writes. -/
theorem append_of_length {l : InvertedList t i} {codes : Array (Word t)} {ids : Array (Id i)}
    (h : codes.size = elementCount l.spec.dim ids.size) :
    append codes ids l = (do
      pack codes l.size
      writeIds ids l.size
      publish (l.size + ids.size)
      return l.size + ids.size : Action (InvertedList t i) Nat) l := by
  change ((ensure (codes.size = elementCount l.spec.dim ids.size) _ : Action _ Unit) >>= _) l = _
  rw [Action.bind_ok (Action.ensure_ok h l)]

theorem append_of_length_ne {l : InvertedList t i} {codes : Array (Word t)} {ids : Array (Id i)}
    (h : codes.size ≠ elementCount l.spec.dim ids.size) :
    append codes ids l = .error (.invalid (.idsForElements ids.size codes.size l.spec.dim)) l := by
  change ((ensure (codes.size = elementCount l.spec.dim ids.size) _ : Action _ Unit) >>= _) l = _
  rw [Action.bind_error (Action.ensure_error h l)]

/-- The list that an append leaves: other words, the ids behind the published ones, and the new
size. -/
def appended (l : InvertedList t i) (data : Array (Word t)) (ids : Array (Id i)) :
    InvertedList t i :=
  { l with
    data
    ids := Buffer.overwrite l.ids l.size ids.toList
    size := l.size + ids.size }

/-- Where the words of a batch have been packed behind the published records, naming and publishing
them cannot fail. -/
theorem append_of_pack {l : InvertedList t i} (h : l.WellFormed)
    {codes data : Array (Word t)} {ids : Array (Id i)}
    (hcodes : codes.size = ids.size * l.spec.dim) (hroom : l.size + ids.size ≤ l.capacity)
    (hpack : pack codes l.size l = .ok () { l with data }) :
    ∃ named, writeIds ids l.size { l with data } = .ok () named ∧
      publish (l.size + ids.size) named = .ok () (l.appended data ids) ∧
      append codes ids l = .ok (l.size + ids.size) (l.appended data ids) := by
  let words : InvertedList t i := { l with data }
  let named : InvertedList t i := { words with ids := Buffer.overwrite l.ids l.size ids.toList }
  have hids : writeIds ids l.size words = .ok () named :=
    writeIds_ok (l := words) h.size_ids hroom (Or.inr (Nat.le_refl _))
  have hpublish : publish (l.size + ids.size) named = .ok () (l.appended data ids) :=
    publish_ok (l := named) hroom (Nat.le_add_right _ _)
  have hlength : codes.size = elementCount l.spec.dim ids.size :=
    hcodes.trans (elementCount_eq h (by omega)).symm
  refine ⟨named, hids, hpublish, ?_⟩
  rw [append_of_length hlength, Action.bind_ok hpack, Action.bind_ok hids, Action.bind_ok hpublish]
  rfl

/-- A batch that fits behind the published records is appended. -/
theorem append_ok {l : InvertedList t i} (h : l.WellFormed) {codes : Array (Word t)}
    {ids : Array (Id i)} (hcodes : codes.size = ids.size * l.spec.dim)
    (hroom : l.size + ids.size ≤ l.capacity) :
    ∃ data, append codes ids l = .ok (l.size + ids.size) (l.appended data ids) ∧
      Interleave.Packed l.spec.dim l.spec.veclen l.size ids.size codes l.data data := by
  obtain ⟨data, hpack, hpacked⟩ := pack_ok h hcodes hroom (Or.inr (Nat.le_refl _))
  obtain ⟨-, -, -, happend⟩ := append_of_pack h hcodes hroom hpack
  exact ⟨data, happend, hpacked⟩

theorem wellFormed_appended {l : InvertedList t i} (h : l.WellFormed) {data : Array (Word t)}
    {ids : Array (Id i)} (hsize : data.size = l.data.size)
    (hroom : l.size + ids.size ≤ l.capacity) : (l.appended data ids).WellFormed where
  capacity_eq := h.capacity_eq
  size_data := hsize.trans h.size_data
  size_ids := (Buffer.size_overwrite _ _ _).trans h.size_ids
  size_le := hroom
  reserved_eq := by
    rw [memoryBytes, appended, Buffer.size_overwrite, hsize]
    exact h.reserved_eq

/-- The records of an append stand behind those that were published before. -/
theorem published_appended {l : InvertedList t i} (h : l.WellFormed) {codes data : Array (Word t)}
    {ids : Array (Id i)} (hcodes : codes.size = ids.size * l.spec.dim)
    (hroom : l.size + ids.size ≤ l.capacity)
    (hpacked : Interleave.Packed l.spec.dim l.spec.veclen l.size ids.size codes l.data data) :
    (l.appended data ids).published = l.published ++ batch l.spec.dim codes ids := by
  have hwell := wellFormed_appended h hpacked.size_eq hroom
  have hdim : l.extents.dim = l.spec.dim := l.dim_extents
  apply List.ext_getElem?
  intro p
  rw [getElem?_published hwell, List.getElem?_append, length_published h]
  show (if p < l.size + ids.size then
    (Buffer.overwrite l.ids l.size ids.toList)[p]?.map fun id => (id, l.extents.recordOf data p)
    else none) = _
  rw [Buffer.getElem?_overwrite, Array.length_toList, h.size_ids]
  by_cases hold : p < l.size
  · -- a record that was published before keeps its id and its columns
    have hrecord : l.extents.recordOf data p = l.extents.recordOf l.data p := by
      apply Extents.recordOf_congr rfl
      intro d hd
      rw [hdim] at hd ⊢
      rw [veclen_extents, hpacked.cell p d hd, if_neg (by omega)]
    rw [if_pos (by omega), if_neg (by omega), if_pos hold, getElem?_published h, if_pos hold,
      hrecord]
  · rw [if_neg hold, getElem?_batch]
    by_cases hnew : p < l.size + ids.size
    · have hk : p - l.size < ids.size := by omega
      have hlast : (p - l.size + 1) * l.spec.dim ≤ codes.size := by
        rw [hcodes]
        exact Nat.mul_le_mul_right _ hk
      have hrecord : l.extents.recordOf data p = flatRecord l.spec.dim codes (p - l.size) := by
        rw [← hdim] at hlast ⊢
        apply Extents.recordOf_eq_flatRecord hlast
        intro d hd
        rw [hdim] at hd ⊢
        rw [veclen_extents, hpacked.cell p d hd, if_pos (by omega)]
      rw [if_pos hnew, if_pos (by omega), Array.getElem?_toList, hrecord]
    · rw [if_neg hnew, Array.getElem?_eq_none (by omega)]
      rfl

end InvertedFile.InvertedList
