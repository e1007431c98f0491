import InvertedFile.Proofs.InvertedList.Creation

/-!
# Copying records between lists

Two ways lead from the records of one list to the first slots of another: a
copy of whole groups, where both have the same layout, and a copy through the
flat order. Whole groups carry along what stands in the slots behind the
records; the flat order does not. What a reader can see afterwards is the
same, and that is what `Copied` says: the first records and their ids are
those of the source, the ids behind them are still those of the destination.

The flat copy is charged to the budget and may be refused. Nothing else can go
wrong when the records are there and the destination has room for them.

## Main results

* `repack_ok` — records of one layout are put into a list of another.
* `copyRecords_ok` — the copy succeeds, on either way.
* `published_copied` — what is published in the copy.
-/

namespace InvertedFile.InvertedList

variable {t : ElementType} {i : IdType}

/-! ## Through the flat order -/

theorem flatRecords_ok {e : Extents} (hpos : 0 < e.veclen) (hdim : 0 < e.dim)
    {data : Array (Word t)} (hsize : data.size = e.length) {n : Nat} (hn : n ≤ e.rows) :
    ∃ flat, flatRecords data e n = .ok flat ∧ flat.size = n * e.dim ∧
      ∀ r < n, ∀ d < e.dim,
        flat[r * e.dim + d]? = data[Interleave.position e.dim e.veclen r d]? := by
  have hout : (Array.replicate (n * e.dim) (0 : Word t)).size = n * e.dim := Array.size_replicate
  obtain ⟨flat, hok, hflat⟩ := Interleave.unpack_ok hpos hdim hsize hout
    (by rwa [Nat.zero_add])
  refine ⟨flat, ?_, hflat.size_eq.trans hout, ?_⟩
  · rw [flatRecords, hok]
  · intro r hr d hd
    rw [hflat.cell r d hd, if_pos hr, Nat.zero_add]

/-- Records of one layout are put into the first slots of a list of another layout. -/
theorem repack_ok {e : Extents} (hpos : 0 < e.veclen) (hdim : 0 < e.dim)
    {data : Array (Word t)} (hsize : data.size = e.length) {n : Nat} (hn : n ≤ e.rows)
    {dest : InvertedList t i} (hdest : dest.WellFormed) (hsame : e.dim = dest.spec.dim)
    (hroom : n ≤ dest.capacity) {b : Budget} (hgrants : b.Grants (n * e.dim * t.size)) :
    ∃ words, repack data e n dest b = .ok { dest with data := words } b ∧
      words.size = dest.data.size ∧
      ∀ q d, d < e.dim → words[Interleave.position e.dim dest.spec.veclen q d]? =
        if q < n then data[Interleave.position e.dim e.veclen q d]?
        else dest.data[Interleave.position e.dim dest.spec.veclen q d]? := by
  obtain ⟨flat, hflat, hflatSize, hflatCell⟩ := flatRecords_ok hpos hdim hsize hn
  have hdestDim : dest.extents.dim = e.dim := dest.dim_extents.trans hsame.symm
  obtain ⟨words, hpack, hpacked⟩ := Interleave.pack_ok dest.spec.layout.veclen_pos
    (hdestDim.symm ▸ hdim) hdest.size_data (hdestDim.symm ▸ hflatSize)
    (by rwa [Nat.zero_add, hdest.rows_eq])
  refine ⟨words, ?_, hpacked.size_eq, ?_⟩
  · have hrun : repack data e n dest b = .ok { dest with data := words }
        ((b.charged (n * e.dim * t.size)).release (n * e.dim * t.size)) := by
      refine Budget.reserving_ok id (fun _ b => b) _ hgrants ?_
      rw [Action.bind_ok (Action.ofExcept_ok hflat _), hpack]
      rfl
    rwa [Budget.release_charged] at hrun
  · intro q d hd
    have hcell := hpacked.cell q d (hdestDim.symm ▸ hd)
    rw [hdestDim, veclen_extents] at hcell
    rw [hcell]
    by_cases hq : q < n
    · rw [if_pos (by omega), if_pos hq, Nat.sub_zero, hflatCell q hq d hd]
    · rw [if_neg (by omega), if_neg hq]

/-- A flat buffer that is not granted is refused, and nothing is repacked. -/
theorem repack_refused {e : Extents} (data : Array (Word t)) {n : Nat} (dest : InvertedList t i)
    {b : Budget} (hgrants : ¬ b.Grants (n * e.dim * t.size)) :
    ∃ err, repack data e n dest b = .error err b ∧ err.IsAllocation :=
  Budget.reserving_refused id (fun _ b => b) _ hgrants

/-! ## Into a list -/

/-- `after` is `dest` with the first `n` records of `source` and their ids in its first slots, which
are published. -/
structure Copied (source dest : InvertedList t i) (n : Nat) (after : InvertedList t i) : Prop where
  spec_eq : after.spec = dest.spec
  capacity_eq : after.capacity = dest.capacity
  reserved_eq : after.reserved = dest.reserved
  size_eq : after.size = n
  size_data : after.data.size = dest.data.size
  size_ids : after.ids.size = dest.ids.size
  cell : ∀ p < n, ∀ d < source.spec.dim,
    after.data[Interleave.position source.spec.dim dest.spec.veclen p d]? =
      source.data[Interleave.position source.spec.dim source.spec.veclen p d]?
  id : ∀ p, after.ids[p]? = if p < n then source.ids[p]? else dest.ids[p]?

private theorem getElem?_copiedIds {source dest : Array (Id i)} {n : Nat}
    (hn : n ≤ source.size) (hroom : n ≤ dest.size) (p : Nat) :
    (Buffer.overwrite dest 0 (source.extract 0 n).toList)[p]? =
      if p < n then source[p]? else dest[p]? := by
  have hsize : (source.extract 0 n).toList.length = n := by
    rw [Array.length_toList, Array.size_extract]
    omega
  rw [Buffer.getElem?_overwrite, hsize]
  by_cases hp : p < n
  · rw [if_pos (by omega), if_pos hp, Array.getElem?_toList, Array.getElem?_extract,
      if_pos (by omega)]
    congr 1
    omega
  · rw [if_neg (by omega), if_neg hp]

/-- Whole groups are copied where the layouts agree. -/
private theorem copyGroups_ok {source dest : InvertedList t i} (hsource : source.WellFormed)
    (hdest : dest.WellFormed) (hlayout : source.spec.layout = dest.spec.layout) {n groups : Nat}
    (hn : n ≤ source.capacity) (hroom : n ≤ dest.capacity)
    (hgroups : groups = (n + (groupSize - 1)) / groupSize) :
    ∃ words,
      (Buffer.slice source.data 0 (source.extents.groupLength * groups) >>= dest.withWords) =
        .ok { dest with data := words } ∧
      words.size = dest.data.size ∧
      ∀ p < n, ∀ d < source.spec.dim,
        words[Interleave.position source.spec.dim dest.spec.veclen p d]? =
          source.data[Interleave.position source.spec.dim source.spec.veclen p d]? := by
  have hdim : source.spec.dim = dest.spec.dim := congrArg Layout.dim hlayout
  have hveclen : dest.spec.veclen = source.spec.veclen := (congrArg Layout.veclen hlayout).symm
  -- the groups that are copied lie inside both buffers
  have hfit : ∀ capacity, groupSize ∣ capacity → n ≤ capacity →
      groups * groupSize ≤ capacity := by
    rintro capacity ⟨c, rfl⟩ hle
    simp only [hgroups, groupSize] at hle ⊢
    omega
  have hlength : source.extents.groupLength * groups = groups * groupSize * source.spec.dim := by
    rw [Extents.groupLength, dim_extents, Nat.mul_comm, Nat.mul_assoc]
  have hslice : 0 + source.extents.groupLength * groups ≤ source.data.size := by
    rw [Nat.zero_add, hlength, hsource.size_data_eq]
    exact Nat.mul_le_mul_right _ (hfit _ hsource.groupSize_dvd hn)
  have hcopied := Interleave.length_extract_chunk hslice
  have hstore : 0 + (source.data.extract 0 (0 + source.extents.groupLength * groups)).size ≤
      dest.data.size := by
    rw [← Array.length_toList, hcopied, Nat.zero_add, hlength, hdest.size_data_eq, hdim]
    exact Nat.mul_le_mul_right _ (hfit _ hdest.groupSize_dvd hroom)
  refine ⟨Buffer.overwrite dest.data 0
    (source.data.extract 0 (0 + source.extents.groupLength * groups)).toList, ?_, ?_, ?_⟩
  · rw [Buffer.slice_eq_ok hslice]
    show dest.withWords _ = _
    rw [withWords, Buffer.store_eq_ok hstore]
  · exact Buffer.size_overwrite _ _ _
  · intro p hp d hd
    have hin : p < groups * groupSize := by
      simp only [hgroups, groupSize]
      omega
    have hplace := Interleave.position_lt source.spec.layout.veclen_pos
      source.spec.layout.veclen_dvd_dim hin hd
    have hlt : Interleave.position source.spec.dim source.spec.veclen p d <
        source.extents.groupLength * groups := by
      rwa [hlength, Nat.mul_assoc]
    have hin : Interleave.position source.spec.dim source.spec.veclen p d < dest.data.size := by
      rw [← Array.length_toList, hcopied] at hstore
      omega
    rw [hveclen, Buffer.getElem?_overwrite, hcopied, if_pos ⟨Nat.zero_le _, by omega, hin⟩,
      Nat.sub_zero, Interleave.getElem?_extract_chunk hlt hslice, Nat.zero_add]

/-- The words and the ids of the first records come into the first slots of a list. -/
private theorem copySlots_ok {source dest : InvertedList t i} (hsource : source.WellFormed)
    (hdest : dest.WellFormed) (hdim : source.spec.dim = dest.spec.dim) {n : Nat}
    (hn : n ≤ source.capacity) (hroom : n ≤ dest.capacity) {b : Budget}
    (hgrants : source.spec.layout = dest.spec.layout ∨
      b.Grants (n * source.spec.dim * t.size)) :
    ∃ words, copySlots source dest n b = .ok { dest with
        data := words
        ids := Buffer.overwrite dest.ids 0 (source.ids.extract 0 n).toList } b ∧
      words.size = dest.data.size ∧
      ∀ p < n, ∀ d < source.spec.dim,
        words[Interleave.position source.spec.dim dest.spec.veclen p d]? =
          source.data[Interleave.position source.spec.dim source.spec.veclen p d]? := by
  have hids : ∀ words, (Buffer.slice source.ids 0 n >>=
      ({ dest with data := words } : InvertedList t i).withIds) = .ok { dest with
        data := words
        ids := Buffer.overwrite dest.ids 0 (source.ids.extract 0 n).toList } := by
    intro words
    have hslice : 0 + n ≤ source.ids.size := by rwa [Nat.zero_add, hsource.size_ids]
    have hstore : 0 + (source.ids.extract 0 n).size ≤ dest.ids.size := by
      rw [Array.size_extract, hdest.size_ids]
      omega
    rw [Buffer.slice_eq_ok hslice, Nat.zero_add]
    show withIds _ _ = _
    rw [withIds, Buffer.store_eq_ok hstore]
  by_cases hlayout : source.spec.layout = dest.spec.layout
  · obtain ⟨words, hwords, hsize, hcell⟩ := copyGroups_ok hsource hdest hlayout hn hroom rfl
    refine ⟨words, ?_, hsize, hcell⟩
    rw [copySlots, if_pos hlayout]
    exact (Action.bind_ok (Action.ofExcept_ok hwords b)).trans (Action.ofExcept_ok (hids words) b)
  · have hsourceDim : source.extents.dim = source.spec.dim := source.dim_extents
    have hgrants := hgrants.resolve_left hlayout
    rw [← hsourceDim] at hgrants hdim
    obtain ⟨words, hwords, hsize, hcell⟩ := repack_ok (e := source.extents)
      (source.spec.layout.veclen_extents_pos _) (source.spec.layout.dim_extents_pos _)
      hsource.size_data (hsource.rows_eq.symm ▸ hn) hdest hdim hroom hgrants
    refine ⟨words, ?_, hsize, ?_⟩
    · rw [copySlots, if_neg hlayout]
      exact (Action.bind_ok hwords).trans (Action.ofExcept_ok (hids words) b)
    · intro p hp d hd
      have hcell := hcell p d (hsourceDim.symm ▸ hd)
      rwa [hsourceDim, if_pos hp] at hcell

/-- The first records of a list are copied into a fresh list with room for them. Only a flat copy
takes a buffer of its own. -/
theorem copyRecords_ok {source dest : InvertedList t i} (hsource : source.WellFormed)
    (hdest : dest.WellFormed) (hdim : source.spec.dim = dest.spec.dim) {n : Nat}
    (hn : n ≤ source.size) (hroom : n ≤ dest.capacity) {b : Budget}
    (hgrants : n = 0 ∨ source.spec.layout = dest.spec.layout ∨
      b.Grants (n * source.spec.dim * t.size)) :
    ∃ after, source.copyRecords dest n b = .ok after b ∧ Copied source dest n after := by
  have hcapacity : n ≤ source.capacity := Nat.le_trans hn hsource.size_le
  have hsetSize : ∀ words ids, ({ dest with data := words, ids } : InvertedList t i).withSize n =
      .ok { dest with data := words, ids, size := n } := by
    intro words ids
    have hdest : n ≤ ({ dest with data := words, ids } : InvertedList t i).capacity := hroom
    rw [withSize, setSize_ok hdest]
  rw [copyRecords, Action.bind_ok (Action.ensure_ok hroom b)]
  by_cases hzero : n = 0
  · refine ⟨{ dest with size := n }, ?_, ?_⟩
    · rw [if_pos hzero]
      change Action.ofExcept (dest.withSize n) b = _
      exact Action.ofExcept_ok (hsetSize dest.data dest.ids) b
    · subst hzero
      exact
        { spec_eq := rfl
          capacity_eq := rfl
          reserved_eq := rfl
          size_eq := rfl
          size_data := rfl
          size_ids := rfl
          cell := fun p hp => absurd hp (Nat.not_lt_zero p)
          id := fun p => by rw [if_neg (Nat.not_lt_zero p)] }
  · obtain ⟨words, hslots, hsize, hcell⟩ :=
      copySlots_ok hsource hdest hdim hcapacity hroom (hgrants.resolve_left hzero)
    refine ⟨{ dest with
      data := words
      ids := Buffer.overwrite dest.ids 0 (source.ids.extract 0 n).toList
      size := n }, ?_, ?_⟩
    · rw [if_neg hzero]
      exact (Action.bind_ok hslots).trans (Action.ofExcept_ok (hsetSize words _) b)
    · exact
        { spec_eq := rfl
          capacity_eq := rfl
          reserved_eq := rfl
          size_eq := rfl
          size_data := hsize
          size_ids := Buffer.size_overwrite _ _ _
          cell := hcell
          id := getElem?_copiedIds (hsource.size_ids.symm ▸ hcapacity)
            (hdest.size_ids.symm ▸ hroom) }

/-- A flat copy that is not granted is refused, and nothing is copied. -/
theorem copyRecords_refused {source dest : InvertedList t i} {n : Nat} (hroom : n ≤ dest.capacity)
    (hzero : n ≠ 0) (hlayout : source.spec.layout ≠ dest.spec.layout) {b : Budget}
    (hgrants : ¬ b.Grants (n * source.spec.dim * t.size)) :
    ∃ e, source.copyRecords dest n b = .error e b ∧ e.IsAllocation := by
  rw [← dim_extents] at hgrants
  obtain ⟨e, hrefused, he⟩ := repack_refused source.data dest hgrants
  have hslots : copySlots source dest n b = .error e b := by
    rw [copySlots, if_neg hlayout]
    exact Action.bind_error hrefused
  refine ⟨e, ?_, he⟩
  rw [copyRecords, Action.bind_ok (Action.ensure_ok hroom b), if_neg hzero]
  exact Action.bind_error hslots

/-! ## What is published in the copy -/

theorem wellFormed_copied {source dest after : InvertedList t i} {n : Nat}
    (h : Copied source dest n after) (hdest : dest.WellFormed) (hroom : n ≤ dest.capacity) :
    after.WellFormed where
  capacity_eq := by
    rw [h.capacity_eq, h.spec_eq]
    exact hdest.capacity_eq
  size_data := by
    rw [h.size_data, hdest.size_data, extents, extents, h.spec_eq, h.capacity_eq]
  size_ids := by rw [h.size_ids, h.capacity_eq, hdest.size_ids]
  size_le := by rwa [h.size_eq, h.capacity_eq]
  reserved_eq := by
    rw [h.reserved_eq, hdest.reserved_eq, memoryBytes, memoryBytes, h.size_data, h.size_ids]

/-- The copy publishes the first records of its source. -/
theorem published_copied {source dest after : InvertedList t i} {n : Nat}
    (h : Copied source dest n after) (hsource : source.WellFormed) (hdest : dest.WellFormed)
    (hdim : source.spec.dim = dest.spec.dim) (hn : n ≤ source.size) (hroom : n ≤ dest.capacity) :
    after.published = source.published.take n := by
  apply List.ext_getElem?
  intro p
  rw [getElem?_published (wellFormed_copied h hdest hroom), h.size_eq, List.getElem?_take]
  by_cases hp : p < n
  · have hafterDim : after.extents.dim = source.spec.dim := by
      rw [dim_extents, h.spec_eq, hdim]
    have hrecord : after.extents.recordOf after.data p =
        source.extents.recordOf source.data p := by
      apply Extents.recordOf_congr (hafterDim.trans source.dim_extents.symm)
      intro d hd
      have hcell := h.cell p hp d (hafterDim ▸ hd)
      rw [hafterDim, source.dim_extents, veclen_extents, veclen_extents, h.spec_eq]
      exact hcell
    rw [if_pos hp, if_pos hp, getElem?_published hsource, if_pos (by omega), h.id p, if_pos hp,
      hrecord]
  · rw [if_neg hp, if_neg hp]

end InvertedFile.InvertedList
