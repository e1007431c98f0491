import InvertedFile.InvertedList.Copy
import InvertedFile.InvertedList.Writer
import InvertedFile.Proofs.Action
import InvertedFile.Proofs.Interleave.Position

/-!
# What moving records does

The loops of `InvertedFile.Interleave` move chunks. This module says what they
come to, in the coordinates of `InvertedFile.Proofs.Interleave.Position`: a
batch that is packed shows up as its own columns of its own records, and no
other element of the buffer changes; a batch that is unpacked shows the
columns of the records it was taken from.

Every loop is run by one invariant, `Packed` or `Unpacked`, in which the
number of records moved so far stands. Whether records are moved one by one
or group by group only changes which loop counts them.

## Main results

* `packRecord_ok`, `unpackRecord_ok` — moving one record.
* `packSlots_ok`, `pack_ok` — moving a batch into a buffer, record by record
  and group by group.
* `unpackSlots_ok`, `unpack_ok` — moving a batch out of a buffer.
* `Packed.eq` — the outcome does not depend on the way.
-/

namespace InvertedFile.Interleave

variable {α : Type} {dim veclen : Nat}

/-- The group of record `p` lies inside the buffer. -/
def Covers (dim p : Nat) (data : Array α) : Prop :=
  (p / groupSize + 1) * (groupSize * dim) ≤ data.size

theorem covers_of_lt (groups : Nat) {p : Nat} {data : Array α}
    (hsize : groups * (groupSize * dim) ≤ data.size) (hp : p < groups * groupSize) :
    Covers dim p data := by
  have hgroup : p / groupSize < groups :=
    Nat.div_lt_of_lt_mul (by rwa [Nat.mul_comm])
  exact Nat.le_trans (Nat.mul_le_mul_right _ hgroup) hsize

theorem Covers.congr_size {p : Nat} {data data' : Array α} (h : Covers dim p data)
    (hsize : data'.size = data.size) : Covers dim p data' := by
  unfold Covers
  rw [hsize]
  exact h

/-- A chunk of a record whose group lies inside the buffer lies inside the buffer. -/
theorem Covers.chunk_le (hdvd : veclen ∣ dim) {p c : Nat} {data : Array α}
    (h : Covers dim p data) (hpos : 0 < veclen) (hc : c < dim / veclen) :
    chunkPosition dim veclen p (c * veclen) + veclen ≤ data.size := by
  have hgroup : p < (p / groupSize + 1) * groupSize := by
    rw [Nat.mul_comm]
    exact Nat.lt_mul_div_succ p groupSize_pos
  exact Nat.le_trans (chunkPosition_add_le hpos hdvd hgroup hc) h

/-! ## One record -/

theorem chunk_le_of_lt (hdvd : veclen ∣ dim) {c : Nat} (hc : c < dim / veclen) :
    c * veclen + veclen ≤ dim := by
  calc c * veclen + veclen = (c + 1) * veclen := by rw [Nat.succ_mul]
    _ ≤ dim / veclen * veclen := Nat.mul_le_mul_right veclen hc
    _ = dim := Nat.div_mul_cancel hdvd

theorem getElem?_extract_chunk {a : Array α} {start length j : Nat} (hj : j < length)
    (hlength : start + length ≤ a.size) :
    (a.extract start (start + length)).toList[j]? = a[start + j]? := by
  rw [Array.getElem?_toList, Array.getElem?_extract, if_pos (by omega)]

theorem length_extract_chunk {a : Array α} {start length : Nat}
    (hlength : start + length ≤ a.size) :
    (a.extract start (start + length)).toList.length = length := by
  rw [Array.length_toList, Array.size_extract]
  omega

/-- Packing a record puts its columns in the places of the record and touches no other place. -/
theorem packRecord_ok (hpos : 0 < veclen) (hdvd : veclen ∣ dim) {p : Nat} {flat data : Array α}
    (hflat : dim ≤ flat.size) (hcovers : Covers dim p data) :
    ∃ data', packRecord dim veclen p flat data = .ok () data' ∧ data'.size = data.size ∧
      ∀ q d, d < dim → data'[position dim veclen q d]? =
        if q = p then flat[d]? else data[position dim veclen q d]? := by
  let inv : Nat → Array α → Prop := fun c data' => data'.size = data.size ∧
    ∀ q d, d < dim → data'[position dim veclen q d]? =
      if q = p ∧ d / veclen < c then flat[d]? else data[position dim veclen q d]?
  have hrun := Action.forRange_ok inv 0 (dim / veclen) (s := data)
    (f := fun c => do
      let columns ← Action.ofExcept (Buffer.slice flat (c * veclen) veclen)
      Buffer.store (chunkPosition dim veclen p (c * veclen)) columns)
    ⟨rfl, by simp⟩ ?_
  · obtain ⟨data', hok, hsize, hcell⟩ := hrun
    refine ⟨data', hok, hsize, ?_⟩
    intro q d hd
    have hchunk : d / veclen < 0 + dim / veclen := by
      rw [Nat.zero_add]
      exact Nat.div_lt_div_of_lt_of_dvd hdvd hd
    rw [hcell q d hd]
    simp only [hchunk, and_true]
  · rintro c data₁ - hc ⟨hsize, hcell⟩
    rw [Nat.zero_add] at hc
    have hslice : c * veclen + veclen ≤ flat.size :=
      Nat.le_trans (chunk_le_of_lt hdvd hc) hflat
    have hlength := length_extract_chunk hslice
    have hplace := (hcovers.congr_size hsize).chunk_le hdvd hpos hc
    refine ⟨Buffer.overwrite data₁ (chunkPosition dim veclen p (c * veclen))
      (flat.extract (c * veclen) (c * veclen + veclen)).toList, ?_, ?_, ?_⟩
    · rw [Action.bind_ok (Action.ofExcept_ok (Buffer.slice_eq_ok hslice) _)]
      refine Buffer.store_eq_ok ?_
      rwa [← Array.length_toList, hlength]
    · rw [Buffer.size_overwrite, hsize]
    · intro q d hd
      rw [Buffer.getElem?_overwrite, hlength]
      have hiff := chunk_contains_iff hpos hdvd (p := p) (q := q) hc hd
      by_cases hin : q = p ∧ d / veclen = c
      · -- the place lies in the chunk that was just written
        have hmod : d % veclen < veclen := Nat.mod_lt _ hpos
        have hcol : c * veclen + d % veclen = d := by
          rw [← hin.2]
          exact Nat.div_add_mod' d veclen
        have hwhere := position_chunk dim p c hmod
        rw [hcol] at hwhere
        obtain ⟨hle, hlt⟩ := hiff.mpr hin
        rw [if_pos ⟨hle, hlt, by omega⟩, if_pos ⟨hin.1, by omega⟩, hin.1, hwhere,
          Nat.add_sub_cancel_left, getElem?_extract_chunk hmod hslice, hcol]
      · rw [if_neg (fun h => hin (hiff.mp ⟨h.1, h.2.1⟩)), hcell q d hd]
        have hcount : (q = p ∧ d / veclen < c) ↔ q = p ∧ d / veclen < c + 1 := by omega
        simp only [hcount]

/-- Unpacking a record puts its columns at the start of the flat record. -/
theorem unpackRecord_ok (hpos : 0 < veclen) (hdvd : veclen ∣ dim) {p : Nat}
    {data flat : Array α} (hflat : dim ≤ flat.size) (hcovers : Covers dim p data) :
    ∃ flat', unpackRecord dim veclen p data flat = .ok () flat' ∧ flat'.size = flat.size ∧
      ∀ d, flat'[d]? = if d < dim then data[position dim veclen p d]? else flat[d]? := by
  let inv : Nat → Array α → Prop := fun c flat' => flat'.size = flat.size ∧
    ∀ d, flat'[d]? = if d < c * veclen then data[position dim veclen p d]? else flat[d]?
  have hrun := Action.forRange_ok inv 0 (dim / veclen) (s := flat)
    (f := fun c => do
      let columns ← Action.ofExcept
        (Buffer.slice data (chunkPosition dim veclen p (c * veclen)) veclen)
      Buffer.store (c * veclen) columns)
    ⟨rfl, by simp⟩ ?_
  · obtain ⟨flat', hok, hsize, hcell⟩ := hrun
    refine ⟨flat', hok, hsize, ?_⟩
    intro d
    rw [hcell d, Nat.zero_add, Nat.div_mul_cancel hdvd]
  · rintro c flat₁ - hc ⟨hsize, hcell⟩
    rw [Nat.zero_add] at hc
    have hslice := hcovers.chunk_le hdvd hpos hc
    have hlength := length_extract_chunk hslice
    have hwithin := chunk_le_of_lt hdvd hc
    have hnext : (c + 1) * veclen = c * veclen + veclen := Nat.succ_mul c veclen
    refine ⟨Buffer.overwrite flat₁ (c * veclen)
      (data.extract (chunkPosition dim veclen p (c * veclen))
        (chunkPosition dim veclen p (c * veclen) + veclen)).toList, ?_, ?_, ?_⟩
    · rw [Action.bind_ok (Action.ofExcept_ok (Buffer.slice_eq_ok hslice) _)]
      refine Buffer.store_eq_ok ?_
      rw [← Array.length_toList, hlength]
      omega
    · rw [Buffer.size_overwrite, hsize]
    · intro d
      rw [Buffer.getElem?_overwrite, hlength]
      by_cases hin : c * veclen ≤ d ∧ d < c * veclen + veclen
      · obtain ⟨j, rfl⟩ := Nat.exists_eq_add_of_le hin.1
        have hj : j < veclen := by omega
        rw [if_pos ⟨hin.1, hin.2, by omega⟩, if_pos (by omega), Nat.add_sub_cancel_left,
          getElem?_extract_chunk hj hslice, position_chunk dim p c hj]
      · rw [if_neg (fun h => hin ⟨h.1, h.2.1⟩), hcell d]
        have hcount : d < c * veclen ↔ d < (c + 1) * veclen := by omega
        simp only [hcount]

/-! ## Batches into a buffer -/

/-- `after` is `before` with the first `n` records of a flat batch in place of the records from
`start` on. -/
structure Packed (dim veclen start n : Nat) (codes before after : Array α) : Prop where
  size_eq : after.size = before.size
  cell : ∀ q d, d < dim → after[position dim veclen q d]? =
    if start ≤ q ∧ q < start + n then codes[(q - start) * dim + d]?
    else before[position dim veclen q d]?

theorem Packed.refl (dim veclen start : Nat) (codes data : Array α) :
    Packed dim veclen start 0 codes data data where
  size_eq := rfl
  cell q d _ := by rw [if_neg (by omega)]

/-- Two buffers with the same columns of the same records are one buffer. -/
theorem eq_of_cells (hpos : 0 < veclen) (hdvd : veclen ∣ dim) (hdim : 0 < dim)
    {a b : Array α}
    (hcell : ∀ q d, d < dim → a[position dim veclen q d]? = b[position dim veclen q d]?) :
    a = b := by
  apply Array.ext_getElem?
  intro k
  have hk := hcell (recordAt dim veclen k) _ (columnAt_lt hpos hdvd hdim k)
  rwa [position_recordAt_columnAt hpos hdvd hdim] at hk

/-- Two batches with the same columns of the same records are one batch. -/
theorem eq_of_rows {n : Nat} (hdim : 0 < dim) {a b : Array α} (ha : a.size = n * dim)
    (hb : b.size = n * dim)
    (hrow : ∀ r < n, ∀ d < dim, a[r * dim + d]? = b[r * dim + d]?) : a = b := by
  apply Array.ext_getElem?
  intro k
  by_cases hk : k < n * dim
  · have hr : k / dim < n := Nat.div_lt_of_lt_mul (by rwa [Nat.mul_comm])
    have hcell := hrow (k / dim) hr (k % dim) (Nat.mod_lt k hdim)
    rwa [Nat.div_add_mod'] at hcell
  · rw [Array.getElem?_eq_none (by omega), Array.getElem?_eq_none (by omega)]

theorem Packed.eq (hpos : 0 < veclen) (hdvd : veclen ∣ dim) (hdim : 0 < dim) {start n : Nat}
    {codes before a b : Array α} (ha : Packed dim veclen start n codes before a)
    (hb : Packed dim veclen start n codes before b) : a = b :=
  eq_of_cells hpos hdvd hdim fun q d hd => by rw [ha.cell q d hd, hb.cell q d hd]

theorem packSlot_ok {t : ElementType} (hpos : 0 < veclen) (hdvd : veclen ∣ dim)
    {start k : Nat} {codes before data : Array (Word t)}
    (h : Packed dim veclen start k codes before data) (hcodes : (k + 1) * dim ≤ codes.size)
    (hcovers : Covers dim (start + k) before) :
    ∃ data', InvertedList.packSlot dim veclen start codes k data = .ok () data' ∧
      Packed dim veclen start (k + 1) codes before data' := by
  rw [Nat.succ_mul] at hcodes
  have hflat : dim ≤ (codes.extract (k * dim) (k * dim + dim)).size :=
    Nat.le_of_eq (length_extract_chunk hcodes).symm
  obtain ⟨data', hok, hsize, hcell⟩ :=
    packRecord_ok hpos hdvd hflat (hcovers.congr_size h.size_eq)
  refine ⟨data', ?_, hsize.trans h.size_eq, ?_⟩
  · rw [InvertedList.packSlot, Action.bind_ok (Action.ofExcept_ok (Buffer.slice_eq_ok hcodes) _),
      hok]
  · intro q d hd
    rw [hcell q d hd, h.cell q d hd]
    by_cases hq : q = start + k
    · subst hq
      rw [if_pos rfl, if_pos (by omega), ← Array.getElem?_toList,
        getElem?_extract_chunk hd hcodes, Nat.add_sub_cancel_left]
    · rw [if_neg hq]
      have hcount : (start ≤ q ∧ q < start + k) ↔ start ≤ q ∧ q < start + (k + 1) := by omega
      simp only [hcount]

/-- A batch that is packed record by record. -/
theorem packSlots_ok {t : ElementType} (hpos : 0 < veclen) (hdvd : veclen ∣ dim)
    {start n : Nat} {codes data : Array (Word t)} (hcodes : n * dim ≤ codes.size)
    (hcovers : ∀ k < n, Covers dim (start + k) data) :
    ∃ data', (List.range n).forM (InvertedList.packSlot dim veclen start codes) data =
        .ok () data' ∧
      Packed dim veclen start n codes data data' := by
  apply Action.forM_range_ok (Packed dim veclen start · codes data)
    (Packed.refl dim veclen start codes data)
  intro k data₁ hk h
  exact packSlot_ok hpos hdvd h (Nat.le_trans (Nat.mul_le_mul_right dim hk) hcodes)
    (hcovers k hk)

/-- In its group, a record is packed as it is by itself. -/
theorem packGroup_slot {t : ElementType} (e : Extents) (codes : Array (Word t))
    {start group p : Nat} (hstart : start ≤ p) (hgroup : p / groupSize = group) :
    (do
      let flat ← Action.ofExcept (Buffer.slice codes ((p - start) * e.dim) e.dim)
      (columns e.dim e.veclen).forM fun col => do
        let chunk ← Action.ofExcept (Buffer.slice flat col e.veclen)
        Buffer.store (group * e.groupLength + (col * groupSize + p % groupSize * e.veclen)) chunk :
      Action (Array (Word t)) Unit) =
    InvertedList.packSlot e.dim e.veclen start codes (p - start) := by
  have hp : start + (p - start) = p := by omega
  have hplace : ∀ col, group * e.groupLength +
      (col * groupSize + p % groupSize * e.veclen) = chunkPosition e.dim e.veclen p col := by
    intro col
    rw [chunkPosition, hgroup, Extents.groupLength, Nat.mul_assoc group]
    omega
  simp only [InvertedList.packSlot, packRecord, forChunks_eq_forM, recordChunks, hp, hplace,
    List.forM_eq_forM, List.forM_map]

/-- The records of a batch that fall into one group. -/
theorem packGroup_ok {t : ElementType} {e : Extents} (hpos : 0 < e.veclen) {start n group : Nat}
    {codes before data : Array (Word t)} (hfirst : start < (group + 1) * groupSize)
    (h : Packed e.dim e.veclen start (group * groupSize - start) codes before data)
    (hcodes : n * e.dim ≤ codes.size) (hlast : group * groupSize < start + n)
    (hcovers : ∀ k < n, Covers e.dim (start + k) before) :
    ∃ data', packGroup e codes start (start + n) group data = .ok () data' ∧
      Packed e.dim e.veclen start (min n ((group + 1) * groupSize - start)) codes before
        data' := by
  have hnext : (group + 1) * groupSize = group * groupSize + groupSize := Nat.succ_mul _ _
  have hrun := Action.forRange_ok
    (fun p => Packed e.dim e.veclen start (p - start) codes before)
    (f := fun p => do
      let flat ← Action.ofExcept (Buffer.slice codes ((p - start) * e.dim) e.dim)
      (columns e.dim e.veclen).forM fun col => do
        let chunk ← Action.ofExcept (Buffer.slice flat col e.veclen)
        Buffer.store (group * e.groupLength + (col * groupSize + p % groupSize * e.veclen)) chunk)
    (max start (group * groupSize))
    (min (start + n) ((group + 1) * groupSize) - max start (group * groupSize)) (s := data)
    ?_ ?_
  · obtain ⟨data', hok, hpacked⟩ := hrun
    refine ⟨data', ?_, ?_⟩
    · rw [packGroup, ← Action.forRange_eq_forM]
      exact hok
    · rwa [show max start (group * groupSize) + (min (start + n) ((group + 1) * groupSize) -
        max start (group * groupSize)) - start = min n ((group + 1) * groupSize - start) by
          omega] at hpacked
  · rwa [show max start (group * groupSize) - start = group * groupSize - start by omega]
  · intro p data₁ hle hlt hp
    have hgroup : p / groupSize = group := by
      apply Nat.div_eq_of_lt_le <;> omega
    have hk : p - start < n := by omega
    have hslot := packSlot_ok hpos (Nat.dvd_mul_left e.veclen e.chunks) (k := p - start) hp
      (Nat.le_trans (Nat.mul_le_mul_right e.dim hk) hcodes) (hcovers _ hk)
    rw [packGroup_slot e codes (by omega) hgroup, show p + 1 - start = p - start + 1 by omega]
    exact hslot

/-- A batch that is packed group by group. -/
theorem packGroups_ok {t : ElementType} {e : Extents} (hpos : 0 < e.veclen) {start n : Nat}
    {codes data : Array (Word t)} (hcodes : n * e.dim ≤ codes.size)
    (hcovers : ∀ k < n, Covers e.dim (start + k) data) :
    ∃ data', (touchedGroups start n).forM (packGroup e codes start (start + n)) data =
        .ok () data' ∧
      Packed e.dim e.veclen start n codes data data' := by
  unfold touchedGroups
  split
  · next hn =>
      subst hn
      exact ⟨data, rfl, Packed.refl _ _ _ _ _⟩
  · next hn =>
      have hbefore := Nat.div_mul_le_self start groupSize
      have hmono := Nat.div_le_div_right (c := groupSize) (show start ≤ start + n - 1 by omega)
      have hrun := Action.forRange_ok
        (fun group => Packed e.dim e.veclen start (min n (group * groupSize - start)) codes data)
        (start / groupSize) ((start + n - 1) / groupSize - start / groupSize + 1)
        (f := packGroup e codes start (start + n)) (s := data) ?_ ?_
      · obtain ⟨data', hok, hpacked⟩ := hrun
        refine ⟨data', ?_, ?_⟩
        · rw [← Action.forRange_eq_forM]
          exact hok
        · have hall := Nat.lt_mul_div_succ (start + n - 1) groupSize_pos
          rw [show start / groupSize + ((start + n - 1) / groupSize - start / groupSize + 1) =
            (start + n - 1) / groupSize + 1 by omega, Nat.mul_comm _ groupSize,
            show min n (groupSize * ((start + n - 1) / groupSize + 1) - start) = n by omega]
            at hpacked
          exact hpacked
      · rw [show min n (start / groupSize * groupSize - start) = 0 by omega]
        exact Packed.refl _ _ _ _ _
      · intro group data₁ hle hlt h
        have hin : group ≤ (start + n - 1) / groupSize := by omega
        have hlast := (Nat.le_div_iff_mul_le groupSize_pos).mp hin
        have hfirst : start < (group + 1) * groupSize := by
          have hsucc := Nat.lt_mul_div_succ start groupSize_pos
          calc start < groupSize * (start / groupSize + 1) := hsucc
            _ = (start / groupSize + 1) * groupSize := Nat.mul_comm _ _
            _ ≤ (group + 1) * groupSize := Nat.mul_le_mul_right _ (by omega)
        rw [show min n (group * groupSize - start) = group * groupSize - start by omega] at h
        exact packGroup_ok hpos hfirst h hcodes (by omega) hcovers

/-- Records of a buffer that is as long as its extents ask for lie inside of it. -/
theorem covers_of_extents {e : Extents} {data : Array α} {p : Nat} (hsize : data.size = e.length)
    (hp : p < e.rows) : Covers e.dim p data :=
  covers_of_lt e.groups (Nat.le_of_eq hsize.symm) hp

/-- The checks of `pack` and `unpack` on a batch of `n` records. -/
theorem batchRecords_eq_ok {elements dim n : Nat} (hdim : 0 < dim) (h : elements = n * dim) :
    batchRecords elements dim = .ok n := by
  subst h
  rw [batchRecords, if_neg (by simp; omega), Nat.mul_div_cancel n hdim]

theorem checkRange_eq_ok {bound : Bound} {start n limit : Nat} (h : start + n ≤ limit) :
    checkRange bound start n limit = .ok () :=
  if_pos h

/-- A batch of whole records that the buffer has room for is packed. -/
theorem pack_ok {t : ElementType} {e : Extents} (hpos : 0 < e.veclen) (hdim : 0 < e.dim)
    {start n : Nat} {codes data : Array (Word t)} (hsize : data.size = e.length)
    (hcodes : codes.size = n * e.dim) (hroom : start + n ≤ e.rows) :
    ∃ data', pack e start codes data = .ok () data' ∧
      Packed e.dim e.veclen start n codes data data' := by
  obtain ⟨data', hok, hpacked⟩ := packGroups_ok hpos (Nat.le_of_eq hcodes.symm)
    fun k hk => covers_of_extents hsize (by omega : start + k < e.rows)
  refine ⟨data', ?_, hpacked⟩
  have hbuffer : checkBuffer e data.size = .ok () := if_pos hsize
  change (Action.ofExcept (checkBuffer e data.size) >>= _) data = _
  rw [Action.bind_ok (Action.ofExcept_ok hbuffer data),
    Action.bind_ok (Action.ofExcept_ok (batchRecords_eq_ok hdim hcodes) data),
    Action.bind_ok (Action.ofExcept_ok (checkRange_eq_ok hroom) data), hok]

/-! ## Batches out of a buffer -/

/-- `after` is `before` with the `n` records from `start` on in place of its first records. -/
structure Unpacked (dim veclen start n : Nat) (data before after : Array α) : Prop where
  size_eq : after.size = before.size
  cell : ∀ r d, d < dim → after[r * dim + d]? =
    if r < n then data[position dim veclen (start + r) d]? else before[r * dim + d]?

theorem unpackSlot_ok (hpos : 0 < veclen) (hdvd : veclen ∣ dim) {start k : Nat}
    {data before out : Array α} (h : Unpacked dim veclen start k data before out)
    (hout : (k + 1) * dim ≤ before.size) (hcovers : Covers dim (start + k) data) :
    ∃ out', unpackSlot dim veclen start data k out = .ok () out' ∧
      Unpacked dim veclen start (k + 1) data before out' := by
  rw [Nat.succ_mul, ← h.size_eq] at hout
  have hlength := length_extract_chunk hout
  have hflat : dim ≤ (out.extract (k * dim) (k * dim + dim)).size :=
    Nat.le_of_eq hlength.symm
  obtain ⟨flat, hok, hsize, hcell⟩ := unpackRecord_ok hpos hdvd hflat hcovers
  rw [show (out.extract (k * dim) (k * dim + dim)).size = dim from hlength] at hsize
  refine ⟨Buffer.overwrite out (k * dim) flat.toList, ?_, ?_, ?_⟩
  · simp only [unpackSlot, Buffer.within, if_pos hout, hok]
  · rw [Buffer.size_overwrite, h.size_eq]
  · intro r d hd
    rw [Buffer.getElem?_overwrite, Array.length_toList, hsize]
    rcases Nat.lt_trichotomy r k with hlt | rfl | hgt
    · have hbelow : r * dim + d < k * dim := by
        calc r * dim + d < r * dim + dim := by omega
          _ = (r + 1) * dim := by rw [Nat.succ_mul]
          _ ≤ k * dim := Nat.mul_le_mul_right dim hlt
      rw [if_neg (by omega), h.cell r d hd, if_pos hlt, if_pos (by omega)]
    · rw [if_pos (by omega), if_pos (by omega), Nat.add_sub_cancel_left, Array.getElem?_toList,
        hcell, if_pos hd]
    · have habove : k * dim + dim ≤ r * dim := by
        calc k * dim + dim = (k + 1) * dim := by rw [Nat.succ_mul]
          _ ≤ r * dim := Nat.mul_le_mul_right dim hgt
      rw [if_neg (by omega), h.cell r d hd, if_neg (by omega), if_neg (by omega)]

/-- A batch that is unpacked record by record. -/
theorem unpackSlots_ok (hpos : 0 < veclen) (hdvd : veclen ∣ dim) {start n : Nat}
    {data out : Array α} (hout : n * dim ≤ out.size)
    (hcovers : ∀ k < n, Covers dim (start + k) data) :
    ∃ out', (List.range n).forM (unpackSlot dim veclen start data) out = .ok () out' ∧
      Unpacked dim veclen start n data out out' := by
  apply Action.forM_range_ok (Unpacked dim veclen start · data out)
    ⟨rfl, fun r d _ => by rw [if_neg (Nat.not_lt_zero r)]⟩
  intro k out₁ hk h
  exact unpackSlot_ok hpos hdvd h (Nat.le_trans (Nat.mul_le_mul_right dim hk) hout) (hcovers k hk)

/-- A batch of whole records that the buffer has is unpacked. -/
theorem unpack_ok {e : Extents} (hpos : 0 < e.veclen) (hdim : 0 < e.dim) {start n : Nat}
    {data out : Array α} (hsize : data.size = e.length) (hout : out.size = n * e.dim)
    (hroom : start + n ≤ e.rows) :
    ∃ out', unpack e start data out = .ok () out' ∧
      Unpacked e.dim e.veclen start n data out out' := by
  have hdvd : e.veclen ∣ e.dim := Nat.dvd_mul_left e.veclen e.chunks
  obtain ⟨out', hok, hunpacked⟩ := unpackSlots_ok hpos hdvd
    (Nat.le_of_eq hout.symm) fun k hk => covers_of_extents hsize (by omega : start + k < e.rows)
  refine ⟨out', ?_, hunpacked⟩
  have hbuffer : checkBuffer e data.size = .ok () := if_pos hsize
  change (Action.ofExcept (checkBuffer e data.size) >>= _) out = _
  rw [Action.bind_ok (Action.ofExcept_ok hbuffer out)]
  change (Action.ofExcept (batchRecords out.size e.dim) >>= _) out = _
  rw [Action.bind_ok (Action.ofExcept_ok (batchRecords_eq_ok hdim hout) out),
    Action.bind_ok (Action.ofExcept_ok (checkRange_eq_ok hroom) out), hok]

end InvertedFile.Interleave
