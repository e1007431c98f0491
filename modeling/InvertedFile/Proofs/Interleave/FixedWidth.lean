import InvertedFile.Proofs.InvertedList.Accessors
import InvertedFile.Proofs.Layout.Checked

/-!
# Layouts in words of fixed width

Record counts and the widths of a layout are words of thirty-two bits, and
places in a buffer are words of sixty-four. Here the extents of a list, the
places of its columns and chunks and the slots of a batch are computed in
checked words of these widths, step by step as the formulas have them, and
each comes to the number that the library computes without a width.

The bounds are tight. The largest buffer has `2 ^ 32` slots of `2 ^ 32 - 1`
columns, so that its length is only `2 ^ 32` short of the limit of a word,
and its last record has the greatest number of thirty-two bits.

## Main results

* `rows_extents_lt`, `rows_extents_le`, `length_extents_le` — how large the
  extents of a record count are.
* `value_length`, `value_place`, `value_chunkPlace`, `value_slot` — the formulas
  in words.
* `slotsExact_of_pack`, `slotsExact_of_unpack`, `slotsExact_of_listPack`,
  `slotsExact_of_viewUnpack`, `value_viewChunk` — what is computed for records
  that have been let through.
* `arithmetic_exact` — no formula leaves its words.
-/

namespace InvertedFile.FixedWidth

open Checked Interleave

/-! ## The formulas in words -/

/-- A word of thirty-two bits, in sixty-four. -/
def wide (n : Nat) : Checked 64 :=
  (ofNat 32 n).cast 64

/-- Groups of a number of records: the whole ones, and one more if records are left over. -/
def groups (records : Nat) : Checked 32 :=
  let whole := ofNat 32 records / ofNat 32 groupSize
  if records % groupSize = 0 then whole else whole + ofNat 32 1

/-- Chunks of a record. -/
def chunks (dim veclen : Nat) : Checked 32 :=
  ofNat 32 dim / ofNat 32 veclen

/-- Columns of a record, counted by its chunks. -/
def columns (dim veclen : Nat) : Checked 32 :=
  chunks dim veclen * ofNat 32 veclen

/-- Slots of the groups of a number of records. -/
def rows (records : Nat) : Checked 64 :=
  (groups records).cast 64 * ofNat 64 groupSize

/-- Elements of one group. -/
def groupLength (dim veclen : Nat) : Checked 64 :=
  ofNat 64 groupSize * (columns dim veclen).cast 64

/-- Elements of the groups of a number of records. -/
def length (dim veclen records : Nat) : Checked 64 :=
  (groups records).cast 64 * groupLength dim veclen

/-- Elements of a flat batch. -/
def flatLength (dim records : Nat) : Checked 64 :=
  wide records * wide dim

/-- Where column `d` of record `p` is. -/
def place (dim veclen p d : Nat) : Checked 64 :=
  wide p / ofNat 64 groupSize * ofNat 64 groupSize * wide dim +
    wide d / wide veclen * ofNat 64 groupSize * wide veclen +
    wide p % ofNat 64 groupSize * wide veclen + wide d % wide veclen

/-- Where the chunk of record `p` is that starts at column `col`. -/
def chunkPlace (dim veclen p col : Nat) : Checked 64 :=
  wide p / ofNat 64 groupSize * ofNat 64 groupSize * wide dim +
    wide p % ofNat 64 groupSize * wide veclen + ofNat 64 col * ofNat 64 groupSize

/-- Where the chunk of record `p` ends that starts at column `col`. -/
def chunkEnd (dim veclen p col : Nat) : Checked 64 :=
  chunkPlace dim veclen p col + wide veclen

/-- The first column of a chunk. -/
def chunkColumn (c veclen : Nat) : Checked 32 :=
  ofNat 32 c * ofNat 32 veclen

/-- The slot behind the `n` slots from `start` on. -/
def rangeEnd (start n : Nat) : Checked 64 :=
  wide start + ofNat 64 n

/-- The slot of record `k` of a batch for the slots from `start` on. -/
def slot (start k : Nat) : Checked 32 :=
  ofNat 32 start + (ofNat 64 k).cast 32

/-! ## Extents -/

section Extents

variable (layout : Layout) {records : Nat}

theorem rows_extents_lt (records : Nat) : (layout.extents records).rows < records + 32 := by
  simp only [Layout.extents, Extents.rows, groupSize]
  omega

/-- The groups of a record count have no more slots than there are words of thirty-two bits. -/
theorem rows_extents_le (h : records < 2 ^ 32) : (layout.extents records).rows ≤ 2 ^ 32 := by
  simp only [Layout.extents, Extents.rows, groupSize]
  omega

theorem length_extents_le (h : records < 2 ^ 32) :
    (layout.extents records).length ≤ 2 ^ 64 - 2 ^ 32 := by
  have hrows := rows_extents_le layout h
  have hdim : layout.dim ≤ 2 ^ 32 - 1 := Nat.le_sub_one_of_lt layout.dim_lt
  calc (layout.extents records).length
      = (layout.extents records).rows * layout.dim := by
        rw [Extents.length_eq_rows_mul_dim, layout.dim_extents]
    _ ≤ 2 ^ 32 * (2 ^ 32 - 1) := Nat.mul_le_mul hrows hdim
    _ = 2 ^ 64 - 2 ^ 32 := by decide

theorem value_wide {n : Nat} (h : n < 2 ^ 32) : (wide n).value = some n :=
  value_cast_of_lt (value_ofNat_of_lt h) (by omega)

theorem value_group : (ofNat 64 groupSize).value = some groupSize :=
  value_ofNat_of_lt (by decide)

theorem value_groups (h : records < 2 ^ 32) :
    (groups records).value = some (layout.extents records).groups := by
  have hwhole : (ofNat 32 records / ofNat 32 groupSize).value = some (records / groupSize) :=
    value_div_of_pos (value_ofNat_of_lt h) (value_ofNat_of_lt (by decide)) (by decide)
  have hquotient : records / groupSize < 2 ^ 32 - 1 := by
    simp only [groupSize]
    omega
  show (if records % groupSize = 0 then _ else _ : Checked 32).value = _
  split
  · next hrest =>
      rw [hwhole]
      simp only [Layout.extents, groupSize] at hrest ⊢
      congr 1
      omega
  · next hrest =>
      rw [value_add_of_lt hwhole (value_ofNat_of_lt (by decide)) (by omega)]
      simp only [Layout.extents, groupSize] at hrest ⊢
      congr 1
      omega

theorem value_chunks :
    (chunks layout.dim layout.veclen).value = some (layout.dim / layout.veclen) :=
  value_div_of_pos (value_ofNat_of_lt layout.dim_lt)
    (value_ofNat_of_lt (Nat.lt_of_le_of_lt layout.veclen_le_dim layout.dim_lt)) layout.veclen_pos

theorem value_columns : (columns layout.dim layout.veclen).value = some layout.dim := by
  have hveclen := Nat.lt_of_le_of_lt layout.veclen_le_dim layout.dim_lt
  have hdim := Nat.div_mul_cancel layout.veclen_dvd_dim
  have hproduct := value_mul_of_lt (value_chunks layout) (value_ofNat_of_lt hveclen)
    (by rw [hdim]; exact layout.dim_lt)
  rwa [hdim] at hproduct

theorem value_rows (h : records < 2 ^ 32) :
    (rows records).value = some (layout.extents records).rows := by
  have hrows := rows_extents_le layout h
  have hgroups : (layout.extents records).groups < 2 ^ 64 := by
    simp only [Extents.rows, groupSize] at hrows
    omega
  exact value_mul_of_lt (value_cast_of_lt (value_groups layout h) hgroups) value_group
    (Nat.lt_of_le_of_lt hrows (by decide))

theorem value_groupLength (records : Nat) :
    (groupLength layout.dim layout.veclen).value = some (layout.extents records).groupLength := by
  have hdim := layout.dim_lt
  rw [Extents.groupLength, layout.dim_extents]
  refine value_mul_of_lt value_group (value_cast_of_lt (value_columns layout) ?_) ?_
  · exact Nat.lt_trans hdim (by decide)
  · simp only [groupSize, UInt32.size] at hdim ⊢
    omega

theorem value_length (h : records < 2 ^ 32) :
    (length layout.dim layout.veclen records).value = some (layout.extents records).length := by
  have hrows := rows_extents_le layout h
  have hlength := length_extents_le layout h
  have hgroups : (layout.extents records).groups < 2 ^ 64 := by
    simp only [Extents.rows, groupSize] at hrows
    omega
  exact value_mul_of_lt (value_cast_of_lt (value_groups layout h) hgroups)
    (value_groupLength layout records) (Nat.lt_of_le_of_lt hlength (by decide))

theorem value_flatLength (h : records < 2 ^ 32) :
    (flatLength layout.dim records).value = some (records * layout.dim) := by
  refine value_mul_of_lt (value_wide h) (value_wide layout.dim_lt) ?_
  calc records * layout.dim ≤ records * 2 ^ 32 :=
        Nat.mul_le_mul_left records (Nat.le_of_lt layout.dim_lt)
    _ < 2 ^ 32 * 2 ^ 32 := Nat.mul_lt_mul_of_pos_right h (by decide)

end Extents

/-! ## Places -/

section Places

variable (layout : Layout) {p : Nat}

theorem value_veclen : (wide layout.veclen).value = some layout.veclen :=
  value_wide (Nat.lt_of_le_of_lt layout.veclen_le_dim layout.dim_lt)

/-- The first place of the group of a record. -/
private theorem value_groupPlace (hp : p < 2 ^ 32)
    (hin : p / groupSize * groupSize * layout.dim < 2 ^ 64) :
    (wide p / ofNat 64 groupSize * ofNat 64 groupSize * wide layout.dim).value =
      some (p / groupSize * groupSize * layout.dim) := by
  have hgroup := value_div_of_pos (value_wide hp) value_group groupSize_pos
  have hfirst := Nat.div_mul_le_self p groupSize
  exact value_mul_of_lt (value_mul_of_lt hgroup value_group (by omega))
    (value_wide layout.dim_lt) hin

/-- The places between the chunk of the first record of a group and that of another one. -/
private theorem value_rowPlace (hp : p < 2 ^ 32) (hin : p % groupSize * layout.veclen < 2 ^ 64) :
    (wide p % ofNat 64 groupSize * wide layout.veclen).value =
      some (p % groupSize * layout.veclen) :=
  value_mul_of_lt (value_mod_of_pos (value_wide hp) value_group groupSize_pos)
    (value_veclen layout) hin

/-- Every record that has a number of thirty-two bits has its places. -/
theorem position_lt_word {d : Nat} (hp : p < 2 ^ 32) (hd : d < layout.dim) :
    position layout.dim layout.veclen p d < 2 ^ 64 := by
  have hgroups : p < 2 ^ 27 * groupSize := hp
  calc position layout.dim layout.veclen p d
      < 2 ^ 27 * (groupSize * layout.dim) :=
        position_lt layout.veclen_pos layout.veclen_dvd_dim hgroups hd
    _ ≤ 2 ^ 27 * (groupSize * 2 ^ 32) :=
        Nat.mul_le_mul_left _ (Nat.mul_le_mul_left _ (Nat.le_of_lt layout.dim_lt))
    _ = 2 ^ 64 := by decide

theorem value_place {d : Nat} (hp : p < 2 ^ 32) (hd : d < layout.dim) :
    (place layout.dim layout.veclen p d).value =
      some (position layout.dim layout.veclen p d) := by
  have hin := position_lt_word layout hp hd
  have hd32 : d < 2 ^ 32 := Nat.lt_trans hd layout.dim_lt
  have hchunk : d / layout.veclen * groupSize < 2 ^ 64 := by
    have hle := Nat.div_le_self d layout.veclen
    simp only [groupSize]
    omega
  simp only [position] at hin ⊢
  have hgroups := value_groupPlace layout hp (by omega)
  have hrows := value_rowPlace layout hp (by omega)
  have hchunks := value_mul_of_lt
    (value_mul_of_lt (value_div_of_pos (value_wide hd32) (value_veclen layout) layout.veclen_pos)
      value_group hchunk)
    (value_veclen layout) (by omega)
  have hcolumn := value_mod_of_pos (value_wide hd32) (value_veclen layout) layout.veclen_pos
  -- every partial sum is at most the last one
  have hsum := value_add_of_lt hgroups hchunks (by omega)
  exact value_add_of_lt (value_add_of_lt hsum hrows (by omega)) hcolumn hin

theorem value_chunkPlace {col : Nat} (hp : p < 2 ^ 32)
    (hin : chunkPosition layout.dim layout.veclen p col < 2 ^ 64) :
    (chunkPlace layout.dim layout.veclen p col).value =
      some (chunkPosition layout.dim layout.veclen p col) := by
  simp only [chunkPosition] at hin ⊢
  have hcol : col < 2 ^ 64 := by
    simp only [groupSize] at hin
    omega
  have hgroups := value_groupPlace layout hp (by omega)
  have hrows := value_rowPlace layout hp (by omega)
  have hcols := value_mul_of_lt (value_ofNat_of_lt hcol) value_group (by omega)
  exact value_add_of_lt (value_add_of_lt hgroups hrows (by omega)) hcols hin

theorem value_chunkEnd {col : Nat} (hp : p < 2 ^ 32)
    (hin : chunkPosition layout.dim layout.veclen p col + layout.veclen < 2 ^ 64) :
    (chunkEnd layout.dim layout.veclen p col).value =
      some (chunkPosition layout.dim layout.veclen p col + layout.veclen) :=
  value_add_of_lt (value_chunkPlace layout hp (by omega)) (value_veclen layout) hin

/-- The first column of a chunk is a column of its record. -/
theorem value_chunkColumn {c : Nat} (hc : c < layout.dim / layout.veclen) :
    (chunkColumn c layout.veclen).value = some (c * layout.veclen) ∧
      c * layout.veclen < layout.dim := by
  have hdim := layout.dim_lt
  have hcolumn : c * layout.veclen < layout.dim :=
    chunk_column_lt layout.veclen_dvd_dim hc layout.veclen_pos
  have hlt : c < 2 ^ 32 :=
    Nat.lt_of_le_of_lt (Nat.le_mul_of_pos_right c layout.veclen_pos) (Nat.lt_trans hcolumn hdim)
  have hveclen : layout.veclen < 2 ^ 32 := Nat.lt_of_le_of_lt layout.veclen_le_dim hdim
  exact ⟨value_mul_of_lt (value_ofNat_of_lt hlt) (value_ofNat_of_lt hveclen)
    (Nat.lt_trans hcolumn hdim), hcolumn⟩

end Places

/-! ## Slots of a batch -/

theorem value_rangeEnd {start n : Nat} (hstart : start < 2 ^ 32) (hn : n ≤ hostLimit) :
    (rangeEnd start n).value = some (start + n) := by
  simp only [hostLimit, UInt64.size] at hn
  exact value_add_of_lt (value_wide hstart) (value_ofNat_of_lt (by omega)) (by omega)

theorem value_slot {start n k : Nat} (hk : k < n) (hin : start + n ≤ 2 ^ 32) :
    (slot start k).value = some (start + k) := by
  have hcount := value_cast_of_lt (v := 32) (value_ofNat_of_lt (w := 64) (n := k) (by omega))
    (by omega)
  exact value_add_of_lt (value_ofNat_of_lt (by omega)) hcount (by omega)

/-! ## Batches that have been let through -/

/-- The slots of `count` records from `start` on are words, and are computed exactly. -/
def SlotsExact (start count : Nat) : Prop :=
  ∀ k < count, start + k < 2 ^ 32 ∧ (slot start k).value = some (start + k)

theorem slotsExact_of_room {start n limit : Nat} (hroom : start + n ≤ limit)
    (hlimit : limit ≤ 2 ^ 32) : SlotsExact start n := by
  intro k hk
  exact ⟨by omega, value_slot hk (by omega)⟩

section Batches

variable {t : ElementType} (layout : Layout)

theorem slotsExact_of_pack {n start : Nat} (hn : n < 2 ^ 32) {codes data data' : Array (Word t)}
    (hok : pack (layout.extents n) start codes data = .ok () data') :
    SlotsExact start (codes.size / layout.dim) := by
  have hwidth : (layout.extents n).dim = layout.dim := layout.dim_extents n
  rcases pack_cases layout.veclen_pos (layout.dim_extents_pos n) start codes data with
    ⟨hfits, -⟩ | ⟨-, _, hno⟩
  · exact slotsExact_of_room (hwidth ▸ hfits.room) (rows_extents_le layout hn)
  · cases hok.symm.trans hno

theorem slotsExact_of_unpack {n start : Nat} (hn : n < 2 ^ 32)
    {data codes codes' : Array (Word t)}
    (hok : unpack (layout.extents n) start data codes = .ok () codes') :
    SlotsExact start (codes.size / layout.dim) := by
  have hwidth : (layout.extents n).dim = layout.dim := layout.dim_extents n
  rcases unpack_cases layout.veclen_pos (layout.dim_extents_pos n) start data codes with
    ⟨hfits, -⟩ | ⟨-, _, hno⟩
  · exact slotsExact_of_room (hwidth ▸ hfits.room) (rows_extents_le layout hn)
  · cases hok.symm.trans hno

end Batches

section Lists

variable {t : ElementType} {i : IdType}

theorem slotsExact_of_listPack {l l' : InvertedList t i} (hwell : l.WellFormed)
    {codes : Array (Word t)} {start : Nat} (hok : InvertedList.pack codes start l = .ok () l') :
    SlotsExact start (codes.size / l.spec.dim) := by
  rcases InvertedList.pack_cases hwell codes start with ⟨_, hno⟩ | ⟨count, _, hcodes, hroom, -⟩
  · cases hok.symm.trans hno
  · have hcount : codes.size / l.spec.dim = count := by
      rw [hcodes]
      exact Nat.mul_div_cancel count l.spec.layout.dim_pos
    rw [hcount]
    exact slotsExact_of_room hroom (Nat.le_of_lt hwell.capacity_lt)

variable {view : View t i}

/-- Records that are unpacked are records the view shows. -/
theorem unpack_room {out out' : Array (Word t)} {start : Nat}
    (h : view.unpack start out = .ok () out') : start + out.size / view.dim ≤ view.size := by
  by_cases hwhole : out.size % view.dim = 0
  · apply Nat.le_of_not_lt
    intro hbehind
    cases h.symm.trans (View.unpack_refused hwhole hbehind)
  · cases h.symm.trans (View.unpack_partial hwhole start)

/-- A chunk that is read is one of a record the view shows. -/
theorem chunk_room {p c : Nat} {ws : Array (Word t)} (h : view.chunk p c = .ok ws) :
    p < view.size ∧ c < view.dim / view.veclen := by
  obtain ⟨_, hchecked, h⟩ := Except.bind_eq_ok.mp h
  obtain ⟨_, hensured, -⟩ := Except.bind_eq_ok.mp h
  exact ⟨(view.checkPublished_eq_ok_iff p 1).mp hchecked, Except.ensure_eq_ok.mp hensured⟩

variable (hwell : view.list.WellFormed) (hcapacity : view.size ≤ view.list.capacity)
include hwell hcapacity

theorem slotsExact_of_viewUnpack {out out' : Array (Word t)} {start : Nat}
    (hok : view.unpack start out = .ok () out') : SlotsExact start (out.size / view.dim) :=
  slotsExact_of_room (unpack_room hok)
    (Nat.le_of_lt (Nat.lt_of_le_of_lt hcapacity hwell.capacity_lt))

/-- The first column of a chunk that is read, and where it stands. -/
theorem value_viewChunk {p c : Nat} {ws : Array (Word t)} (hok : view.chunk p c = .ok ws) :
    (chunkColumn c view.veclen).value = some (c * view.veclen) ∧
      (place view.dim view.veclen p (c * view.veclen)).value =
        some (position view.dim view.veclen p (c * view.veclen)) := by
  obtain ⟨hp, hc⟩ := chunk_room hok
  obtain ⟨hvalue, hcolumn⟩ := value_chunkColumn view.list.spec.layout hc
  have hrecord : p < 2 ^ 32 := Nat.lt_trans (Nat.lt_of_lt_of_le hp hcapacity) hwell.capacity_lt
  exact ⟨hvalue, value_place view.list.spec.layout hrecord hcolumn⟩

end Lists

/-! ## The whole arithmetic -/

/-- **The arithmetic of layouts never overflows.** Let a pair of widths lay out a list, and take the
extents of any record count. In words of fixed width, the counts of the extents, the slots and the
elements they have room for, the place of every column, the start and the end of every chunk of
every record and the length of a flat batch come to the same numbers as without a width. The columns
that are counted by their chunks are those of the layout, the slots are at least the records and
fewer than a group more, and every chunk ends within the buffer, whose length is at most `2 ^ 64 - 2
^ 32`. The end of a range is computed exactly before it is checked, and where a batch is let
through, into a buffer, out of it, into the slots of a list or out of a view of one, each of its
slots is a word of thirty-two bits and is computed exactly. So is the first column of a chunk that
is read through a view, and the place of this column. -/
theorem arithmetic_exact {dim veclen : UInt32} {growth : Growth} {spec : ListSpec}
    (hspec : ListSpec.ofWidths dim veclen growth = .ok spec) (records : UInt32) :
    let d := dim.toNat
    let v := veclen.toNat
    let n := records.toNat
    let e := spec.layout.extents n
    ((groups n).value = some e.groups ∧ (chunks d v).value = some e.chunks ∧ e.veclen = v ∧
      (columns d v).value = some e.dim ∧ e.dim = spec.dim ∧ spec.dim = d) ∧
    ((rows n).value = some e.rows ∧ n ≤ e.rows ∧ e.rows < n + 32 ∧ e.rows ≤ 2 ^ 32) ∧
    ((groupLength d v).value = some e.groupLength ∧ (length d v n).value = some e.length ∧
      e.length = e.rows * d ∧ e.length ≤ 2 ^ 64 - 2 ^ 32) ∧
    (∀ p < e.rows, ∀ col < d,
      (place d v p col).value = some (position d v p col) ∧ position d v p col < e.length) ∧
    (∀ p < e.rows, ∀ col start, (col, start) ∈ recordChunks d v p →
      (chunkPlace d v p col).value = some start ∧
      (chunkEnd d v p col).value = some (start + v) ∧ start + v ≤ e.length) ∧
    ((flatLength d n).value = some (n * d) ∧ n * d < 2 ^ 64) ∧
    (∀ start < 2 ^ 32, ∀ count ≤ hostLimit, (rangeEnd start count).value = some (start + count)) ∧
    (∀ (t : ElementType) (codes data data' : Array (Word t)) (start : Nat),
      pack e start codes data = .ok () data' →
        ∀ k < codes.size / d, start + k < 2 ^ 32 ∧ (slot start k).value = some (start + k)) ∧
    (∀ (t : ElementType) (data codes codes' : Array (Word t)) (start : Nat),
      unpack e start data codes = .ok () codes' →
        ∀ k < codes.size / d, start + k < 2 ^ 32 ∧ (slot start k).value = some (start + k)) ∧
    (∀ (t : ElementType) (i : IdType) (l l' : InvertedList t i) (codes : Array (Word t))
      (start : Nat), l.WellFormed → l.spec = spec → InvertedList.pack codes start l = .ok () l' →
        ∀ k < codes.size / d, start + k < 2 ^ 32 ∧ (slot start k).value = some (start + k)) ∧
    (∀ (t : ElementType) (i : IdType) (view : View t i) (out out' : Array (Word t)) (start : Nat),
      view.list.WellFormed → view.size ≤ view.list.capacity → view.list.spec = spec →
      view.unpack start out = .ok () out' →
        ∀ k < out.size / d, start + k < 2 ^ 32 ∧ (slot start k).value = some (start + k)) ∧
    (∀ (t : ElementType) (i : IdType) (view : View t i) (p c : Nat) (ws : Array (Word t)),
      view.list.WellFormed → view.size ≤ view.list.capacity → view.list.spec = spec →
      view.chunk p c = .ok ws →
        (chunkColumn c v).value = some (c * v) ∧
        (place d v p (c * v)).value = some (position d v p (c * v))) := by
  intro d v n e
  obtain ⟨layout, hlayout, hmade⟩ := Except.bind_eq_ok.mp hspec
  obtain ⟨hdim, hveclen⟩ := Layout.ofWidths_eq_ok_iff.mp hlayout
  cases hmade
  have hn : n < 2 ^ 32 := records.toNat_lt
  have hrows : e.rows ≤ 2 ^ 32 := rows_extents_le layout hn
  have hlength : e.length ≤ 2 ^ 64 - 2 ^ 32 := length_extents_le layout hn
  have hwidth : e.dim = layout.dim := layout.dim_extents n
  have hshape : e.length = e.groups * (groupSize * layout.dim) := by
    rw [Extents.length, Extents.groupLength, hwidth]
  have hflat : n * layout.dim ≤ e.length := by
    rw [e.length_eq_rows_mul_dim, hwidth]
    exact Nat.mul_le_mul_right _ (layout.le_rows_extents n)
  rw [show d = layout.dim from hdim.symm, show v = layout.veclen from hveclen.symm]
  refine ⟨⟨value_groups layout hn, value_chunks layout, rfl, ?_, hwidth, rfl⟩,
    ⟨value_rows layout hn, layout.le_rows_extents n, rows_extents_lt layout n, hrows⟩,
    ⟨value_groupLength layout n, value_length layout hn, ?_, hlength⟩, ?places, ?chunks,
    ⟨value_flatLength layout hn, by omega⟩, fun start hstart count => value_rangeEnd hstart,
    fun t codes data data' start => slotsExact_of_pack layout hn,
    fun t data codes codes' start => slotsExact_of_unpack layout hn,
    ?listed, ?viewed, ?chunked⟩
  · rw [hwidth]
    exact value_columns layout
  · rw [e.length_eq_rows_mul_dim, hwidth]
  case places =>
    intro p hp col hcol
    have hlt : position layout.dim layout.veclen p col < e.length := by
      rw [hshape]
      exact position_lt layout.veclen_pos layout.veclen_dvd_dim hp hcol
    exact ⟨value_place layout (by omega) hcol, hlt⟩
  case chunks =>
    intro p hp col start hchunk
    simp only [recordChunks, Interleave.columns, List.map_map, List.mem_map, List.mem_range,
      Function.comp, Prod.mk.injEq] at hchunk
    obtain ⟨c, hc, rfl, rfl⟩ := hchunk
    have hle : chunkPosition layout.dim layout.veclen p (c * layout.veclen) + layout.veclen ≤
        e.length := by
      rw [hshape]
      exact chunkPosition_add_le layout.veclen_pos layout.veclen_dvd_dim hp hc
    exact ⟨value_chunkPlace layout (by omega) (by omega),
      value_chunkEnd layout (by omega) (by omega), hle⟩
  case listed =>
    intro t i l l' codes start hwell hspec hok
    have hslots := slotsExact_of_listPack hwell hok
    rwa [hspec] at hslots
  case viewed =>
    intro t i view out out' start hwell hcapacity hspec hok
    have hslots := slotsExact_of_viewUnpack hwell hcapacity hok
    rwa [View.dim, hspec] at hslots
  case chunked =>
    intro t i view p c ws hwell hcapacity hspec hok
    have hchunk := value_viewChunk hwell hcapacity hok
    rwa [View.dim, View.veclen, hspec] at hchunk

/-- The widest records there are, one column to a chunk. -/
def widest : ListSpec where
  layout :=
    { dim := 4294967295
      veclen := 1
      dim_pos := by decide
      dim_lt := by decide
      veclen_isPowerOfTwo := Nat.isPowerOfTwo_one
      veclen_dvd_dim := Nat.one_dvd _ }
  growth := .doubling

/-- The last column of the last record of the largest buffer. -/
theorem arithmetic_exact_widest :
    ListSpec.ofWidths 4294967295 1 .doubling = .ok widest ∧
      (rows 4294967295).value = some (2 ^ 32) ∧
      (length 4294967295 1 4294967295).value = some (2 ^ 64 - 2 ^ 32) ∧
      (place 4294967295 1 4294967295 4294967294).value = some (2 ^ 64 - 2 ^ 32 - 1) ∧
      (flatLength 4294967295 4294967295).value = some (2 ^ 64 - 2 ^ 33 + 1) := by
  have hlayout : Layout.ofWidths 4294967295 1 = .ok widest.layout :=
    Layout.ofWidths_eq_ok_iff.mpr ⟨rfl, rfl⟩
  have hspec : ListSpec.ofWidths 4294967295 1 .doubling = .ok widest :=
    Except.bind_eq_ok.mpr ⟨_, hlayout, rfl⟩
  obtain ⟨-, ⟨hrows, -⟩, ⟨-, hlength, -⟩, hplaces, -, ⟨hflat, -⟩, -⟩ :=
    arithmetic_exact hspec 4294967295
  exact ⟨hspec, hrows, hlength, (hplaces 4294967295 (by decide) 4294967294 (by decide)).1, hflat⟩

end InvertedFile.FixedWidth
