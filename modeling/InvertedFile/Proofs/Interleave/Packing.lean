import InvertedFile.Proofs.InvertedList.Append
import InvertedFile.Proofs.InvertedList.Creation

/-!
# One function, packed in three ways

A batch reaches a buffer of words in one of three ways. `pack` takes the
groups it touches one after the other and computes places within a group;
`packEach` stores the records one by one at places counted from the start of
the buffer; and a writer of a list stores them behind its published records.
They cut the batch differently and have checks of their own, but all of them
end in the buffer in which the columns of the batch stand at their positions
and nothing else has changed.

The three loops are run in `InvertedFile.Proofs.Interleave.Movement` by one
invariant. Here the outcomes are put side by side, and the checks of `pack`
are shown to be the only way it fails.

## Main results

* `packEach_ok` — records that are stored one by one.
* `checks_cases` — the checks that come before a batch is moved, in or out.
* `pack_cases` — how packing a batch ends: in the packed buffer when the batch
  fits, and otherwise in an error that has touched nothing.
* `packing_paths_agree` — the three ways leave one buffer, and which one it is.
-/

namespace InvertedFile.Interleave

variable {t : ElementType}

/-- Stores a batch of flat records one by one, as the records from `start` on. -/
def packEach (dim veclen start : Nat) (codes : Array (Word t)) : Action (Array (Word t)) Unit :=
  (List.range (codes.size / dim)).forM fun k =>
    packRecord dim veclen (start + k) (codes.extract (k * dim) (k * dim + dim))

/-- The records of a batch lie in it side by side, so that each can be taken out. -/
theorem packEach_eq_packSlots {dim : Nat} (veclen start : Nat) (codes : Array (Word t)) :
    packEach dim veclen start codes =
      (List.range (codes.size / dim)).forM (InvertedList.packSlot dim veclen start codes) := by
  refine Action.forM_congr fun k hk => ?_
  have hfits : k * dim + dim ≤ codes.size := by
    calc k * dim + dim = (k + 1) * dim := by rw [Nat.succ_mul]
      _ ≤ codes.size / dim * dim := Nat.mul_le_mul_right dim (List.mem_range.mp hk)
      _ ≤ codes.size := Nat.div_mul_le_self _ _
  rw [InvertedList.packSlot, Buffer.slice_eq_ok hfits]
  rfl

/-- A batch that the buffer has room for is packed record by record. -/
theorem packEach_ok {e : Extents} (hpos : 0 < e.veclen) (hdim : 0 < e.dim) {start n : Nat}
    {codes data : Array (Word t)} (hsize : data.size = e.length) (hcodes : codes.size = n * e.dim)
    (hroom : start + n ≤ e.rows) :
    ∃ data', packEach e.dim e.veclen start codes data = .ok () data' ∧
      Packed e.dim e.veclen start n codes data data' := by
  rw [packEach_eq_packSlots, hcodes, Nat.mul_div_cancel n hdim]
  exact packSlots_ok hpos (Nat.dvd_mul_left e.veclen e.chunks) (Nat.le_of_eq hcodes.symm)
    fun k hk => covers_of_extents hsize (by omega : start + k < e.rows)

/-! ## The checks of a batch -/

/-- What moving a batch asks for: a buffer as long as its extents, whole records, and room for
them. -/
structure Fits (e : Extents) (start : Nat) (batch data : Array (Word t)) : Prop where
  buffer : data.size = e.length
  whole : batch.size % e.dim = 0
  room : start + batch.size / e.dim ≤ e.rows

/-- The checks before a move tell the number of records to a move that fits. They refuse any other
one before it has begun. -/
theorem checks_cases {σ : Type} {e : Extents} (hdim : 0 < e.dim) (bound : Bound) (start : Nat)
    (batch data : Array (Word t)) (move : Nat → Action σ Unit) (s : σ) :
    let checked : Action σ Unit := do
      Action.ofExcept (checkBuffer e data.size)
      let n ← Action.ofExcept (batchRecords batch.size e.dim)
      Action.ofExcept (checkRange bound start n e.rows)
      move n
    (Fits e start batch data ∧ checked s = move (batch.size / e.dim) s) ∨
      (¬ Fits e start batch data ∧ ∃ err, checked s = .error err s) := by
  intro checked
  by_cases hbuffer : data.size = e.length
  swap
  · refine Or.inr ⟨fun h => hbuffer h.buffer,
      .invalid (.bufferLength data.size e.toList e.length), ?_⟩
    have hlength : checkBuffer e data.size =
        .error (.invalid (.bufferLength data.size e.toList e.length)) := if_neg hbuffer
    exact Action.bind_error (Action.ofExcept_error hlength s)
  have hbegun : checked s = _ := Action.bind_ok (Action.ofExcept_ok (if_pos hbuffer) s)
  by_cases hwhole : batch.size % e.dim = 0
  swap
  · refine Or.inr ⟨fun h => hwhole h.whole, .invalid (.partialRecords batch.size e.dim), ?_⟩
    have hpart : batchRecords batch.size e.dim =
        .error (.invalid (.partialRecords batch.size e.dim)) := if_pos (Or.inr hwhole)
    rw [hbegun]
    exact Action.bind_error (Action.ofExcept_error hpart s)
  have hcount : batch.size = batch.size / e.dim * e.dim :=
    (Nat.div_mul_cancel (Nat.dvd_of_mod_eq_zero hwhole)).symm
  rw [Action.bind_ok (Action.ofExcept_ok (batchRecords_eq_ok hdim hcount) s)] at hbegun
  by_cases hroom : start + batch.size / e.dim ≤ e.rows
  · refine Or.inl ⟨⟨hbuffer, hwhole, hroom⟩, ?_⟩
    rw [hbegun, Action.bind_ok (Action.ofExcept_ok (checkRange_eq_ok hroom) s)]
  · refine Or.inr ⟨fun h => hroom h.room,
      .outOfBounds bound (start + batch.size / e.dim) e.rows, ?_⟩
    have hrange : checkRange bound start (batch.size / e.dim) e.rows =
        .error (.outOfBounds bound (start + batch.size / e.dim) e.rows) := if_neg hroom
    rw [hbegun]
    exact Action.bind_error (Action.ofExcept_error hrange s)

/-- A batch that fits is packed. One that does not is refused before anything is stored. -/
theorem pack_cases {e : Extents} (hpos : 0 < e.veclen) (hdim : 0 < e.dim) (start : Nat)
    (codes data : Array (Word t)) :
    (Fits e start codes data ∧ ∃ data', pack e start codes data = .ok () data' ∧
      Packed e.dim e.veclen start (codes.size / e.dim) codes data data') ∨
    (¬ Fits e start codes data ∧ ∃ err, pack e start codes data = .error err data) := by
  rcases checks_cases hdim .packing start codes data
    (fun n => (touchedGroups start n).forM (packGroup e codes start (start + n))) data with
    ⟨hfits, hmove⟩ | hrefused
  · obtain ⟨data', hok, hpacked⟩ := packGroups_ok hpos (Nat.div_mul_le_self codes.size e.dim)
      fun k hk => covers_of_extents hfits.buffer
        (Nat.lt_of_lt_of_le (Nat.add_lt_add_left hk start) hfits.room)
    exact Or.inl ⟨hfits, data', hmove.trans hok, hpacked⟩
  · exact Or.inr hrefused

theorem not_fits_iff {e : Extents} {start : Nat} {batch data : Array (Word t)} :
    ¬ Fits e start batch data ↔ data.size ≠ e.length ∨ batch.size % e.dim ≠ 0 ∨
      e.rows < start + batch.size / e.dim := by
  constructor
  · intro hnot
    by_contra! hchecks
    exact hnot ⟨hchecks.1, hchecks.2.1, hchecks.2.2⟩
  · rintro (hbuffer | hwhole | hroom) hfits
    · exact hbuffer hfits.buffer
    · exact hwhole hfits.whole
    · exact Nat.not_le.mpr hroom hfits.room

/-! ## Three ways, one buffer -/

/-- Places that belong to no record of the batch are not touched. -/
theorem Packed.untouched {dim veclen start n : Nat} (hpos : 0 < veclen) (hdvd : veclen ∣ dim)
    (hdim : 0 < dim) {codes before after : Array (Word t)}
    (h : Packed dim veclen start n codes before after) {k : Nat}
    (hk : ∀ p d, start ≤ p → p < start + n → d < dim → k ≠ position dim veclen p d) :
    after[k]? = before[k]? := by
  have hwhere := position_recordAt_columnAt hpos hdvd hdim k
  have hcolumn := columnAt_lt hpos hdvd hdim k
  have houtside : ¬ (start ≤ recordAt dim veclen k ∧ recordAt dim veclen k < start + n) :=
    fun hin => hk _ _ hin.1 hin.2 hcolumn hwhere.symm
  have hcell := h.cell (recordAt dim veclen k) _ hcolumn
  rwa [if_neg houtside, hwhere] at hcell

/-- **Packing is one function.** When a batch of whole records fits a buffer of the extents of a
layout, packing it group by group, packing it record by record, and packing it through the writer of
any list with this buffer whose unpublished slots the batch fills all end in one buffer. In it, the
columns of the batch stand at their positions, and every other place is as before. Packing group by
group fails for no other reason than that the buffer has another length, the batch is not whole or
the rows do not suffice, and what fails has touched nothing. -/
theorem packing_paths_agree (layout : Layout) (rows start : Nat) (codes data : Array (Word t)) :
    let e := layout.extents rows
    (∀ n, data.size = e.length → codes.size = n * layout.dim → start + n ≤ e.rows →
      ∃ data',
        pack e start codes data = .ok () data' ∧
        packEach layout.dim layout.veclen start codes data = .ok () data' ∧
        (∀ (i : IdType) (l : InvertedList t i), l.spec.layout = layout → l.data = data →
          n = 0 ∨ l.size ≤ start → start + n ≤ l.capacity →
            InvertedList.pack codes start l = .ok () { l with data := data' }) ∧
        data'.size = data.size ∧
        (∀ p d, start ≤ p → p < start + n → d < layout.dim →
          data'[position layout.dim layout.veclen p d]? =
            codes[(p - start) * layout.dim + d]?) ∧
        (∀ k, (∀ p d, start ≤ p → p < start + n → d < layout.dim →
          k ≠ position layout.dim layout.veclen p d) → data'[k]? = data[k]?)) ∧
    ((∃ err after, pack e start codes data = .error err after) ↔
      data.size ≠ e.length ∨ codes.size % layout.dim ≠ 0 ∨
        e.rows < start + codes.size / layout.dim) ∧
    (∀ err after, pack e start codes data = .error err after → after = data) := by
  intro e
  have hpos : 0 < e.veclen := layout.veclen_pos
  have hwidth : e.dim = layout.dim := layout.dim_extents rows
  have hdim : 0 < e.dim := hwidth ▸ layout.dim_pos
  have hdvd : e.veclen ∣ e.dim := Nat.dvd_mul_left e.veclen e.chunks
  simp only [← hwidth]
  refine ⟨?agree, ?fails, ?untouched⟩
  case agree =>
    intro n hsize hcodes hroom
    obtain ⟨data', hpack, hpacked⟩ := pack_ok hpos hdim hsize hcodes hroom
    obtain ⟨each, heach, hpackedEach⟩ := packEach_ok hpos hdim hsize hcodes hroom
    obtain rfl := hpackedEach.eq hpos hdvd hdim hpacked
    refine ⟨each, hpack, heach, ?_, hpacked.size_eq, ?_, fun k hk =>
      hpacked.untouched hpos hdvd hdim hk⟩
    · rintro i l rfl rfl htail hslots
      have hcount : codes.size / e.dim = n := by
        rw [hcodes, Nat.mul_div_cancel n hdim]
      rw [packEach_eq_packSlots, hcount, hwidth] at heach
      exact InvertedList.pack_of_slots (hcodes.trans (by rw [hwidth]; rfl)) hslots htail heach
    · intro p d hle hlt hd
      exact (hpacked.cell p d hd).trans (if_pos ⟨hle, hlt⟩)
  case fails =>
    rw [← not_fits_iff]
    rcases pack_cases hpos hdim start codes data with
      ⟨hfits, data', hok, -⟩ | ⟨hnot, err, herror⟩
    · simp [hok, hfits]
    · exact iff_of_true ⟨err, data, herror⟩ hnot
  case untouched =>
    intro err after herror
    rcases pack_cases hpos hdim start codes data with ⟨-, data', hok, -⟩ | ⟨-, err', herror'⟩
    · simp [hok] at herror
    · rw [herror'] at herror
      cases herror
      rfl

/-- Records of six columns in chunks of two. -/
def pairs : Layout where
  dim := 6
  veclen := 2
  dim_pos := by decide
  dim_lt := by decide
  veclen_isPowerOfTwo := ⟨1, rfl⟩
  veclen_dvd_dim := by decide

/-- A list of two groups with one unpublished slot in the first of them. -/
def almostGroup : InvertedList .u8 .u32 :=
  { InvertedList.blank .u8 .u32 ⟨pairs, .steady⟩ 64 with size := 31 }

/-- Two records, side by side. -/
def twelve : Array (Word .u8) :=
  #[1, 2, 3, 4, 5, 6, 7, 8, 9, 10, 11, 12]

/-- Two records on either side of the border between two groups. -/
theorem packing_paths_agree_at_border :
    ∃ data',
      pack (pairs.extents 33) 31 twelve almostGroup.data = .ok () data' ∧
      packEach 6 2 31 twelve almostGroup.data = .ok () data' ∧
      InvertedList.pack twelve 31 almostGroup = .ok () { almostGroup with data := data' } ∧
      data'[position 6 2 32 5]? = some 12 ∧ data'[0]? = some 0 := by
  have hsize : almostGroup.data.size = (pairs.extents 33).length := Array.size_replicate
  obtain ⟨agree, -, -⟩ := packing_paths_agree pairs 33 31 twelve almostGroup.data
  obtain ⟨data', hpack, heach, hlist, -, hin, hout⟩ := agree 2 hsize (by decide) (by decide)
  refine ⟨data', hpack, heach,
    hlist .u32 almostGroup rfl rfl (Or.inr (by decide)) (by decide), ?_, ?_⟩
  · exact hin 32 5 (by decide) (by decide) (by decide)
  · have hbehind : ∀ p d, 31 ≤ p → p < 31 + 2 → d < pairs.dim →
        0 ≠ position pairs.dim pairs.veclen p d := by
      intro p d hp hlt hd
      have hplace : 62 ≤ position 6 2 p d := by
        simp only [position, groupSize]
        omega
      exact fun hzero => absurd (hzero ▸ hplace) (by decide)
    rw [hout 0 hbehind]
    decide +kernel

end InvertedFile.Interleave
