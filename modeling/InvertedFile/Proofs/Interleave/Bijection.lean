import Mathlib.Data.Set.Prod
import Mathlib.Order.Interval.Set.Basic
import InvertedFile.Proofs.Interleave.Position

/-!
# The places of a buffer and their coordinates

A buffer of whole groups has a place for every column of every record and no
other places. `position` is a bijection between the two, and it can be cut:
the records of a group go onto the block of the group, which is contiguous,
so that groups of a buffer are told apart by their places alone.

Within a block the columns of one record do not stand side by side. They come
in chunks, and `recordChunks` lists where these start. A record that is moved
chunk by chunk is moved column by column, in order, each column once.

## Main results

* `bijOn_groups` — the records of a range of groups and the places of these
  groups.
* `mem_recordChunks_iff`, `range'_chunk` — the chunks of a record and the places
  they take.
* `position_bijective` — the address map as a whole.
-/

namespace InvertedFile.Interleave

variable {dim veclen : Nat}

/-! ## Groups -/

theorem le_recordAt {first k : Nat} (hdim : 0 < dim) (hk : first * (groupSize * dim) ≤ k) :
    first * groupSize ≤ recordAt dim veclen k := by
  have hgroup : first ≤ k / (groupSize * dim) :=
    (Nat.le_div_iff_mul_le (Nat.mul_pos groupSize_pos hdim)).mpr hk
  calc first * groupSize ≤ k / (groupSize * dim) * groupSize := Nat.mul_le_mul_right _ hgroup
    _ ≤ recordAt dim veclen k := Nat.le_add_right _ _

/-- The columns of the records of a range of groups fill the places of these groups, each place
once. -/
theorem bijOn_groups (hpos : 0 < veclen) (hdvd : veclen ∣ dim) (hdim : 0 < dim)
    (first last : Nat) :
    Set.BijOn (fun x : Nat × Nat => position dim veclen x.1 x.2)
      (Set.Ico (first * groupSize) (last * groupSize) ×ˢ Set.Ico 0 dim)
      (Set.Ico (first * (groupSize * dim)) (last * (groupSize * dim))) := by
  refine ⟨?mapsTo, ?injOn, ?surjOn⟩
  case mapsTo =>
    rintro ⟨p, d⟩ ⟨⟨hfirst, hlast⟩, -, hd⟩
    exact ⟨le_position hfirst d, position_lt hpos hdvd hlast hd⟩
  case injOn =>
    rintro ⟨p, d⟩ ⟨-, -, hd⟩ ⟨q, e⟩ ⟨-, -, he⟩ hplace
    obtain ⟨rfl, rfl⟩ := position_inj hpos hdvd hd he hplace
    rfl
  case surjOn =>
    rintro k ⟨hfirst, hlast⟩
    refine ⟨(recordAt dim veclen k, columnAt dim veclen k), ⟨⟨?_, ?_⟩, Nat.zero_le _, ?_⟩, ?_⟩
    · exact le_recordAt hdim hfirst
    · exact recordAt_lt hlast
    · exact columnAt_lt hpos hdvd hdim k
    · exact position_recordAt_columnAt hpos hdvd hdim k

/-! ## Chunks -/

/-- The chunks of a record start at the multiples of the chunk width. -/
theorem mem_recordChunks_iff (hpos : 0 < veclen) (hdvd : veclen ∣ dim) {p col place : Nat} :
    (col, place) ∈ recordChunks dim veclen p ↔
      col < dim ∧ veclen ∣ col ∧ place = position dim veclen p col := by
  simp only [recordChunks, columns, List.map_map, List.mem_map, List.mem_range, Function.comp,
    Prod.mk.injEq]
  constructor
  · rintro ⟨c, hc, rfl, rfl⟩
    refine ⟨chunk_column_lt hdvd hc hpos, Nat.dvd_mul_left veclen c, ?_⟩
    exact chunkPosition_eq_position p c hpos
  · rintro ⟨hcol, ⟨c, rfl⟩, rfl⟩
    rw [Nat.mul_comm] at hcol ⊢
    exact ⟨c, (Nat.lt_div_iff_mul_lt' hdvd c).mpr (by rwa [Nat.mul_comm]), rfl,
      chunkPosition_eq_position p c hpos⟩

/-- The places of a chunk are those of its columns, in their order. -/
theorem range'_chunk (dim veclen p c : Nat) :
    List.range' (chunkPosition dim veclen p (c * veclen)) veclen =
      (List.range veclen).map fun j => position dim veclen p (c * veclen + j) := by
  rw [List.range'_eq_map_range]
  refine List.map_congr_left fun j hj => ?_
  exact (position_chunk dim p c (List.mem_range.mp hj)).symm

/-- Numbers that are counted in runs are counted one by one. -/
private theorem flatMap_runs {α : Type} (f : Nat → α) (runs length : Nat) :
    (List.range runs).flatMap (fun c => (List.range length).map fun j => f (c * length + j)) =
      (List.range (runs * length)).map f := by
  induction runs with
  | zero => rw [Nat.zero_mul]; rfl
  | succ runs ih =>
      rw [List.range_succ, List.flatMap_append, ih, List.flatMap_singleton, Nat.succ_mul,
        List.range_add, List.map_append, List.map_map]
      rfl

/-- Chunk by chunk, a record is taken column by column. -/
theorem flatMap_recordChunks (hdvd : veclen ∣ dim) (p : Nat) :
    (recordChunks dim veclen p).flatMap (fun chunk => List.range' chunk.2 veclen) =
      (List.range dim).map (position dim veclen p) := by
  simp only [recordChunks, columns, List.flatMap_map, range'_chunk]
  rw [flatMap_runs, Nat.div_mul_cancel hdvd]

/-! ## The address map -/

/-- **The address map is a bijection.** In a buffer of whole groups, every place is the place of one
column of one record, and the records of a group fill a contiguous block. The chunk of a record that
starts at a column takes the places of the columns from there on, as many as a chunk is wide, and
the chunks one after the other take the places of all columns. -/
theorem position_bijective {dim veclen : Nat} (hdim : 0 < dim) (hpow : veclen.isPowerOfTwo)
    (hdvd : veclen ∣ dim) (groups : Nat) :
    Set.BijOn (fun x : Nat × Nat => position dim veclen x.1 x.2)
      (Set.Ico 0 (groups * groupSize) ×ˢ Set.Ico 0 dim)
      (Set.Ico 0 (groups * (groupSize * dim))) ∧
    (∀ group, Set.BijOn (fun x : Nat × Nat => position dim veclen x.1 x.2)
      (Set.Ico (group * groupSize) ((group + 1) * groupSize) ×ˢ Set.Ico 0 dim)
      (Set.Ico (group * (groupSize * dim)) ((group + 1) * (groupSize * dim)))) ∧
    (∀ p col place, (col, place) ∈ recordChunks dim veclen p ↔
      col < dim ∧ veclen ∣ col ∧ place = position dim veclen p col) ∧
    (∀ p col place, (col, place) ∈ recordChunks dim veclen p →
      List.range' place veclen =
        (List.range veclen).map fun j => position dim veclen p (col + j)) ∧
    ∀ p, (recordChunks dim veclen p).flatMap (fun chunk => List.range' chunk.2 veclen) =
      (List.range dim).map (position dim veclen p) := by
  have hpos : 0 < veclen := Nat.pos_of_isPowerOfTwo hpow
  refine ⟨?buffer, fun group => bijOn_groups hpos hdvd hdim group (group + 1),
    fun p col place => mem_recordChunks_iff hpos hdvd, ?chunk, flatMap_recordChunks hdvd⟩
  case buffer =>
    have hall := bijOn_groups hpos hdvd hdim 0 groups
    rwa [Nat.zero_mul, Nat.zero_mul] at hall
  case chunk =>
    intro p col place hchunk
    obtain ⟨-, ⟨c, rfl⟩, rfl⟩ := (mem_recordChunks_iff hpos hdvd).mp hchunk
    rw [Nat.mul_comm veclen c, ← chunkPosition_eq_position p c hpos]
    exact range'_chunk dim veclen p c

/-- Two groups of records of six columns in chunks of two. -/
theorem position_bijective_twoGroups :
    0 < 6 ∧ Nat.isPowerOfTwo 2 ∧ 2 ∣ 6 ∧
      Set.BijOn (fun x : Nat × Nat => position 6 2 x.1 x.2)
        (Set.Ico 0 64 ×ˢ Set.Ico 0 6) (Set.Ico 0 384) ∧
      List.range' 322 2 = [position 6 2 33 4, position 6 2 33 5] := by
  have hpow : Nat.isPowerOfTwo 2 := ⟨1, rfl⟩
  obtain ⟨hbuffer, -, -, hchunk, -⟩ := @position_bijective 6 2 (by decide) hpow (by decide) 2
  exact ⟨by decide, hpow, by decide, hbuffer, hchunk 33 4 322 (by decide)⟩

end InvertedFile.Interleave
