import Mathlib.Data.List.Perm.Basic
import InvertedFile.Proofs.Interleave.Packing

/-!
# Orders of packing

However a batch is packed, it comes to copies of chunks: for each record of
the batch and each chunk of a record, the columns of the chunk are taken from
the batch and stored where the chunk belongs. A loop over records or over
groups is an order of these copies.

No two of them store to the same place, and none of them looks at the buffer.
So each one can be told apart from what it meets there, as an overwriting of
a fixed run by fixed words, two of them commute, and all orders of the copies
leave one buffer. That the copies may also be made at once, by threads that
share the buffer, rests on the same two facts.

## Main results

* `chunks_disjoint`, `chunk_in_group` — where copies store.
* `forM_copyChunk` — copies in any order, as overwritings.
* `packSlot_eq_copies`, `packGroup_eq_copies` — records and groups as copies.
* `chunkTasks_touchedGroups` — the groups of a batch have its records, in order.
* `packedInAnyOrder`, `copiesApart` — all orders of copies, of records and of
  groups leave the same buffer, and why.
-/

namespace InvertedFile

/-- Two runs that do not overlap can be written in either order. -/
theorem Buffer.overwrite_comm {α : Type} (a : Array α) {p q : Nat} {xs ys : List α}
    (h : p + xs.length ≤ q ∨ q + ys.length ≤ p) :
    overwrite (overwrite a p xs) q ys = overwrite (overwrite a q ys) p xs := by
  apply Array.ext_getElem?
  intro k
  simp only [getElem?_overwrite, size_overwrite]
  by_cases hp : p ≤ k ∧ k < p + xs.length ∧ k < a.size
  · rw [if_neg (by omega), if_pos hp, if_pos hp]
  · rw [if_neg hp, if_neg hp]

namespace Interleave

variable {α : Type} {dim veclen : Nat}

/-! ## Copies of chunks -/

/-- The copies that make up a record of a batch: the record, and the first column of a chunk. -/
def recordTasks (dim veclen k : Nat) : List (Nat × Nat) :=
  (columns dim veclen).map fun col => (k, col)

/-- The copies that make up the first `n` records of a batch. -/
def chunkTasks (dim veclen n : Nat) : List (Nat × Nat) :=
  (List.range n).flatMap (recordTasks dim veclen)

/-- Copies a chunk of a batch for the records from `start` on into the buffer. -/
def copyChunk (dim veclen start : Nat) (codes : Array α) (task : Nat × Nat) :
    Action (Array α) Unit := do
  let chunk ← Action.ofExcept (Buffer.slice codes (task.1 * dim + task.2) veclen)
  Buffer.store (chunkPosition dim veclen (start + task.1) task.2) chunk

/-- The words of a chunk of a batch. -/
def chunkWords (dim veclen : Nat) (codes : Array α) (task : Nat × Nat) : List α :=
  (codes.extract (task.1 * dim + task.2) (task.1 * dim + task.2 + veclen)).toList

/-- A buffer with the words of a chunk in the place of the chunk. -/
def withChunk (dim veclen start : Nat) (codes : Array α) (data : Array α) (task : Nat × Nat) :
    Array α :=
  Buffer.overwrite data (chunkPosition dim veclen (start + task.1) task.2)
    (chunkWords dim veclen codes task)

theorem mem_recordTasks_iff {k : Nat} {task : Nat × Nat} :
    task ∈ recordTasks dim veclen k ↔ ∃ c < dim / veclen, task = (k, c * veclen) := by
  simp only [recordTasks, columns, List.mem_map, List.mem_range]
  constructor
  · rintro ⟨col, ⟨c, hc, rfl⟩, rfl⟩
    exact ⟨c, hc, rfl⟩
  · rintro ⟨c, hc, rfl⟩
    exact ⟨_, ⟨c, hc, rfl⟩, rfl⟩

theorem mem_chunkTasks_iff {n : Nat} {task : Nat × Nat} :
    task ∈ chunkTasks dim veclen n ↔ ∃ k < n, ∃ c < dim / veclen, task = (k, c * veclen) := by
  simp only [chunkTasks, List.mem_flatMap, List.mem_range, mem_recordTasks_iff]

/-- Chunks of different records, and different chunks of a record, do not overlap. -/
theorem chunks_disjoint (hpos : 0 < veclen) (hdvd : veclen ∣ dim) {p q c c' : Nat}
    (hc : c < dim / veclen) (hc' : c' < dim / veclen) (hne : ¬ (p = q ∧ c = c')) :
    chunkPosition dim veclen p (c * veclen) + veclen ≤ chunkPosition dim veclen q (c' * veclen) ∨
      chunkPosition dim veclen q (c' * veclen) + veclen ≤
        chunkPosition dim veclen p (c * veclen) := by
  have hfirst : c * veclen < dim := chunk_column_lt hdvd hc hpos
  have hfirst' : c' * veclen < dim := chunk_column_lt hdvd hc' hpos
  have hleft := chunk_contains_iff hpos hdvd (p := p) (q := q) hc hfirst'
  have hright := chunk_contains_iff hpos hdvd (p := q) (q := p) hc' hfirst
  rw [← chunkPosition_eq_position q c' hpos, Nat.mul_div_cancel c' hpos] at hleft
  rw [← chunkPosition_eq_position p c hpos, Nat.mul_div_cancel c hpos] at hright
  by_contra hoverlap
  -- one of the two starts inside of the other, and so is a chunk of the same record
  rcases Nat.le_total (chunkPosition dim veclen p (c * veclen))
    (chunkPosition dim veclen q (c' * veclen)) with hle | hle
  · obtain ⟨hrecord, hchunk⟩ := hleft.mp ⟨hle, by omega⟩
    exact hne ⟨hrecord.symm, hchunk.symm⟩
  · exact hne (hright.mp ⟨hle, by omega⟩)

/-- The chunks of a record lie in the block of its group. -/
theorem chunk_in_group (hpos : 0 < veclen) (hdvd : veclen ∣ dim) {p c : Nat}
    (hc : c < dim / veclen) :
    p / groupSize * (groupSize * dim) ≤ chunkPosition dim veclen p (c * veclen) ∧
      chunkPosition dim veclen p (c * veclen) + veclen ≤
        (p / groupSize + 1) * (groupSize * dim) := by
  have hgroup : p < (p / groupSize + 1) * groupSize := by
    rw [Nat.mul_comm]
    exact Nat.lt_mul_div_succ p groupSize_pos
  constructor
  · rw [chunkPosition_eq_position p c hpos]
    exact le_position (Nat.div_mul_le_self p groupSize) _
  · exact chunkPosition_add_le hpos hdvd hgroup hc

/-! ## Copies in any order -/

/-- The words of a chunk are in the batch. -/
theorem chunk_le_codes (hdvd : veclen ∣ dim) {n k c : Nat} {codes : Array α}
    (hcodes : n * dim ≤ codes.size) (hk : k < n) (hc : c < dim / veclen) :
    k * dim + c * veclen + veclen ≤ codes.size := by
  have hcolumn := chunk_le_of_lt hdvd hc
  calc k * dim + c * veclen + veclen ≤ k * dim + dim := by omega
    _ = (k + 1) * dim := by rw [Nat.succ_mul]
    _ ≤ n * dim := Nat.mul_le_mul_right dim hk
    _ ≤ codes.size := hcodes

theorem length_chunkWords (hdvd : veclen ∣ dim) {n : Nat} {codes : Array α} {task : Nat × Nat}
    (hcodes : n * dim ≤ codes.size) (htask : task ∈ chunkTasks dim veclen n) :
    (chunkWords dim veclen codes task).length = veclen := by
  obtain ⟨k, hk, c, hc, rfl⟩ := mem_chunkTasks_iff.mp htask
  exact length_extract_chunk (chunk_le_codes hdvd hcodes hk hc)

/-- A copy overwrites the place of its chunk with words of the batch, whatever the buffer holds. -/
theorem copyChunk_ok (hpos : 0 < veclen) (hdvd : veclen ∣ dim) {start n : Nat}
    {codes data : Array α} (hcodes : n * dim ≤ codes.size)
    (hcovers : ∀ k < n, Covers dim (start + k) data) {task : Nat × Nat}
    (htask : task ∈ chunkTasks dim veclen n) :
    copyChunk dim veclen start codes task data =
      .ok () (withChunk dim veclen start codes data task) := by
  have hlength := length_chunkWords hdvd hcodes htask
  obtain ⟨k, hk, c, hc, rfl⟩ := mem_chunkTasks_iff.mp htask
  have hslice := chunk_le_codes hdvd hcodes hk hc
  have hplace := (hcovers k hk).chunk_le hdvd hpos hc
  rw [copyChunk, Action.bind_ok (Action.ofExcept_ok (Buffer.slice_eq_ok hslice) data)]
  refine Buffer.store_eq_ok ?_
  rw [← Array.length_toList]
  exact hlength.symm ▸ hplace

theorem size_withChunk (start : Nat) (codes data : Array α) (task : Nat × Nat) :
    (withChunk dim veclen start codes data task).size = data.size :=
  Buffer.size_overwrite _ _ _

/-- Copies that are made one after the other all succeed, in whatever order they come. -/
theorem forM_copyChunk (hpos : 0 < veclen) (hdvd : veclen ∣ dim) {start n : Nat}
    {codes data : Array α} (hcodes : n * dim ≤ codes.size)
    (hcovers : ∀ k < n, Covers dim (start + k) data) {schedule : List (Nat × Nat)}
    (htasks : ∀ task ∈ schedule, task ∈ chunkTasks dim veclen n) :
    schedule.forM (copyChunk dim veclen start codes) data =
      .ok () (schedule.foldl (withChunk dim veclen start codes) data) := by
  induction schedule generalizing data with
  | nil => rfl
  | cons task rest ih =>
      have hcopy := copyChunk_ok hpos hdvd hcodes hcovers (htasks task (List.mem_cons_self ..))
      have hcovers' : ∀ k < n,
          Covers dim (start + k) (withChunk dim veclen start codes data task) :=
        fun k hk => (hcovers k hk).congr_size (size_withChunk start codes data task)
      have hrest := ih hcovers' fun other hother => htasks other (List.mem_cons_of_mem task hother)
      show (copyChunk dim veclen start codes task >>= fun _ =>
        rest.forM (copyChunk dim veclen start codes)) data = _
      rw [Action.bind_ok hcopy, hrest]
      rfl

/-- Copies commute, so that their order does not matter. -/
theorem foldl_withChunk_perm (hpos : 0 < veclen) (hdvd : veclen ∣ dim) {start n : Nat}
    {codes : Array α} (hcodes : n * dim ≤ codes.size) {schedule : List (Nat × Nat)}
    (hperm : schedule.Perm (chunkTasks dim veclen n)) (data : Array α) :
    schedule.foldl (withChunk dim veclen start codes) data =
      (chunkTasks dim veclen n).foldl (withChunk dim veclen start codes) data := by
  refine hperm.foldl_eq' (fun task htask other hother buffer => ?_) data
  have hlength := length_chunkWords hdvd hcodes (hperm.mem_iff.mp htask)
  have hlength' := length_chunkWords hdvd hcodes (hperm.mem_iff.mp hother)
  obtain ⟨k, -, c, hc, rfl⟩ := mem_chunkTasks_iff.mp (hperm.mem_iff.mp htask)
  obtain ⟨k', -, c', hc', rfl⟩ := mem_chunkTasks_iff.mp (hperm.mem_iff.mp hother)
  by_cases heq : k = k' ∧ c = c'
  · obtain ⟨rfl, rfl⟩ := heq
    rfl
  · have hne : ¬ (start + k = start + k' ∧ c = c') := by omega
    apply Buffer.overwrite_comm
    rw [hlength, hlength']
    exact chunks_disjoint hpos hdvd hc hc' hne

theorem forM_copyChunk_perm (hpos : 0 < veclen) (hdvd : veclen ∣ dim) {start n : Nat}
    {codes data : Array α} (hcodes : n * dim ≤ codes.size)
    (hcovers : ∀ k < n, Covers dim (start + k) data) {schedule : List (Nat × Nat)}
    (hperm : schedule.Perm (chunkTasks dim veclen n)) :
    schedule.forM (copyChunk dim veclen start codes) data =
      (chunkTasks dim veclen n).forM (copyChunk dim veclen start codes) data := by
  rw [forM_copyChunk hpos hdvd hcodes hcovers fun task => hperm.mem_iff.mp,
    forM_copyChunk hpos hdvd hcodes hcovers fun task => id,
    foldl_withChunk_perm hpos hdvd hcodes hperm]

/-! ## Records and groups as copies -/

section Copies

variable {t : ElementType} {codes : Array (Word t)}

/-- The records of a batch for the slots from `start` to `stop` that fall into one group. -/
def groupRecords (start stop group : Nat) : List Nat :=
  List.range' (max start (group * groupSize))
    (min stop ((group + 1) * groupSize) - max start (group * groupSize))

/-- The copies that make up the part of a batch that falls into one group. -/
def groupTasks (dim veclen start stop group : Nat) : List (Nat × Nat) :=
  (groupRecords start stop group).flatMap fun p => recordTasks dim veclen (p - start)

theorem packSlot_eq_copies (hdvd : veclen ∣ dim) (start : Nat) {k : Nat}
    (hcodes : (k + 1) * dim ≤ codes.size) :
    InvertedList.packSlot dim veclen start codes k =
      (recordTasks dim veclen k).forM (copyChunk dim veclen start codes) := by
  rw [Nat.succ_mul] at hcodes
  funext data
  rw [InvertedList.packSlot, Action.bind_ok (Action.ofExcept_ok (Buffer.slice_eq_ok hcodes) data),
    packRecord, forChunks_eq_forM]
  simp only [recordChunks, recordTasks, List.forM_eq_forM, List.forM_map]
  refine congrFun (Action.forM_congr fun col hcol => ?_) data
  obtain ⟨c, hc, rfl⟩ := List.mem_map.mp hcol
  have hcolumn := chunk_le_of_lt hdvd (List.mem_range.mp hc)
  -- a run of a record is a run of the batch
  have hslice : Buffer.slice (codes.extract (k * dim) (k * dim + dim)) (c * veclen) veclen =
      Buffer.slice codes (k * dim + c * veclen) veclen := by
    have hsize : (codes.extract (k * dim) (k * dim + dim)).size = dim :=
      length_extract_chunk hcodes
    rw [Buffer.slice_eq_ok (by omega), Buffer.slice_eq_ok (by omega), Array.extract_extract,
      Nat.min_eq_left (by omega), Nat.add_assoc]
  rw [hslice]
  rfl

theorem packGroup_eq_copies {e : Extents} {start n : Nat} (hcodes : n * e.dim ≤ codes.size)
    (group : Nat) :
    packGroup e codes start (start + n) group =
      (groupTasks e.dim e.veclen start (start + n) group).forM
        (copyChunk e.dim e.veclen start codes) := by
  have hnext : (group + 1) * groupSize = group * groupSize + groupSize := Nat.succ_mul _ _
  rw [groupTasks, Action.forM_flatMap]
  refine Action.forM_congr fun p hp => ?_
  obtain ⟨hfirst, hlast⟩ := List.mem_range'_1.mp hp
  have hgroup : p / groupSize = group := by
    apply Nat.div_eq_of_lt_le <;> omega
  have hrecord : (p - start + 1) * e.dim ≤ codes.size :=
    Nat.le_trans (Nat.mul_le_mul_right e.dim (by omega)) hcodes
  have hdvd : e.veclen ∣ e.dim := Nat.dvd_mul_left e.veclen e.chunks
  rw [packGroup_slot e codes (by omega) hgroup, packSlot_eq_copies hdvd start hrecord]

/-- The first groups that a batch reaches into have the first records of the batch. -/
private theorem flatMap_groupRecords {start stop : Nat} (h : start ≤ stop) (m : Nat) :
    (List.range' (start / groupSize) m).flatMap (groupRecords start stop) =
      List.range' start (min stop ((start / groupSize + m) * groupSize) - start) := by
  have hbefore := Nat.div_mul_le_self start groupSize
  induction m with
  | zero =>
      rw [show min stop ((start / groupSize + 0) * groupSize) - start = 0 by
        rw [Nat.add_zero]; omega]
      rfl
  | succ m ih =>
      have hafter := Nat.lt_mul_div_succ start groupSize_pos
      rw [Nat.mul_comm, Nat.succ_mul] at hafter
      have hmono : start / groupSize * groupSize ≤ (start / groupSize + m) * groupSize :=
        Nat.mul_le_mul_right _ (Nat.le_add_right _ _)
      rw [List.range'_1_concat, List.flatMap_append, ih, List.flatMap_singleton, groupRecords,
        ← Nat.add_assoc, Nat.succ_mul]
      by_cases hfirst : (start / groupSize + m) * groupSize ≤ start
      · rw [show min stop ((start / groupSize + m) * groupSize) - start = 0 by omega,
          Nat.max_eq_left hfirst]
        rfl
      by_cases hlast : stop ≤ (start / groupSize + m) * groupSize
      · rw [Nat.max_eq_right (by omega), Nat.min_eq_left hlast, Nat.min_eq_left (by omega),
          show stop - (start / groupSize + m) * groupSize = 0 by omega]
        exact List.append_nil _
      · rw [Nat.max_eq_right (by omega), Nat.min_eq_right (by omega)]
        have hcut : (start / groupSize + m) * groupSize =
            start + ((start / groupSize + m) * groupSize - start) := by omega
        rw [show List.range' ((start / groupSize + m) * groupSize) _ = List.range'
          (start + ((start / groupSize + m) * groupSize - start)) _ by rw [← hcut],
          List.range'_append_1]
        congr 1
        omega

/-- The groups that a batch reaches into have the records of the batch, in order. -/
theorem groupRecords_touchedGroups (start n : Nat) :
    (touchedGroups start n).flatMap (groupRecords start (start + n)) = List.range' start n := by
  unfold touchedGroups
  split
  · next hn =>
      rw [hn]
      rfl
  · next hn =>
      have hmono := Nat.div_le_div_right (c := groupSize) (show start ≤ start + n - 1 by omega)
      have hall := Nat.lt_mul_div_succ (start + n - 1) groupSize_pos
      rw [Nat.mul_comm] at hall
      rw [flatMap_groupRecords (Nat.le_add_right start n),
        show start / groupSize + ((start + n - 1) / groupSize - start / groupSize + 1) =
          (start + n - 1) / groupSize + 1 by omega, Nat.min_eq_left (by omega),
        Nat.add_sub_cancel_left]

/-- Group by group, a batch is copied record by record. -/
theorem chunkTasks_touchedGroups (dim veclen start n : Nat) :
    (touchedGroups start n).flatMap (groupTasks dim veclen start (start + n)) =
      chunkTasks dim veclen n := by
  have hassoc : (touchedGroups start n).flatMap (groupTasks dim veclen start (start + n)) =
      ((touchedGroups start n).flatMap (groupRecords start (start + n))).flatMap
        fun p => recordTasks dim veclen (p - start) := List.flatMap_assoc.symm
  rw [hassoc, groupRecords_touchedGroups, List.range'_eq_map_range, List.flatMap_map, chunkTasks]
  simp only [Nat.add_sub_cancel_left]

theorem packSlots_perm (hpos : 0 < veclen) (hdvd : veclen ∣ dim) {start n : Nat}
    {data : Array (Word t)} (hcodes : n * dim ≤ codes.size)
    (hcovers : ∀ k < n, Covers dim (start + k) data) {order : List Nat}
    (hperm : order.Perm (List.range n)) :
    order.forM (InvertedList.packSlot dim veclen start codes) data =
      (chunkTasks dim veclen n).forM (copyChunk dim veclen start codes) data := by
  have hcopies : order.forM (InvertedList.packSlot dim veclen start codes) =
      (order.flatMap (recordTasks dim veclen)).forM (copyChunk dim veclen start codes) := by
    rw [Action.forM_flatMap]
    refine Action.forM_congr fun k hk => packSlot_eq_copies hdvd start ?_
    have hlt := List.mem_range.mp (hperm.mem_iff.mp hk)
    exact Nat.le_trans (Nat.mul_le_mul_right dim hlt) hcodes
  rw [hcopies]
  exact forM_copyChunk_perm hpos hdvd hcodes hcovers (hperm.flatMap_right _)

theorem packGroups_perm {e : Extents} (hpos : 0 < e.veclen) {start n : Nat}
    {data : Array (Word t)} (hcodes : n * e.dim ≤ codes.size)
    (hcovers : ∀ k < n, Covers e.dim (start + k) data) {order : List Nat}
    (hperm : order.Perm (touchedGroups start n)) :
    order.forM (packGroup e codes start (start + n)) data =
      (chunkTasks e.dim e.veclen n).forM (copyChunk e.dim e.veclen start codes) data := by
  have hcopies : order.forM (packGroup e codes start (start + n)) =
      (order.flatMap (groupTasks e.dim e.veclen start (start + n))).forM
        (copyChunk e.dim e.veclen start codes) := by
    rw [Action.forM_flatMap]
    exact Action.forM_congr fun group _ => packGroup_eq_copies hcodes group
  have htasks := hperm.flatMap_right (groupTasks e.dim e.veclen start (start + n))
  rw [chunkTasks_touchedGroups] at htasks
  rw [hcopies]
  exact forM_copyChunk_perm hpos (Nat.dvd_mul_left e.veclen e.chunks) hcodes hcovers htasks

/-! ## One buffer -/

/-- `data'` is what a buffer becomes when a batch of `n` records is packed from `start` on, whatever
the order in which that is done. -/
structure PackedInAnyOrder (e : Extents) (start n : Nat) (codes data data' : Array (Word t)) :
    Prop where
  checked : pack e start codes data = .ok () data'
  groups : ∀ order : List Nat, order.Perm (touchedGroups start n) →
    order.forM (packGroup e codes start (start + n)) data = .ok () data'
  records : ∀ order : List Nat, order.Perm (List.range n) →
    order.forM (InvertedList.packSlot e.dim e.veclen start codes) data = .ok () data'
  copies : ∀ schedule : List (Nat × Nat), schedule.Perm (chunkTasks e.dim e.veclen n) →
    schedule.forM (copyChunk e.dim e.veclen start codes) data = .ok () data'
  /-- The writer of a list that has this buffer and the slots of the batch unpublished. -/
  listed : ∀ (i : IdType) (l : InvertedList t i), l.spec.dim = e.dim → l.spec.veclen = e.veclen →
    l.data = data → n = 0 ∨ l.size ≤ start → start + n ≤ l.capacity →
      InvertedList.pack codes start l = .ok () { l with data := data' }

/-- The copies that a batch of `n` records is packed by keep out of each other's way. -/
structure CopiesApart (e : Extents) (start n : Nat) (codes data : Array (Word t)) : Prop where
  /-- What a copy stores, and where, does not depend on what the buffer holds. -/
  writes : ∀ task ∈ chunkTasks e.dim e.veclen n, ∀ other : Array (Word t),
    other.size = data.size → copyChunk e.dim e.veclen start codes task other =
      .ok () (Buffer.overwrite other (chunkPosition e.dim e.veclen (start + task.1) task.2)
        (chunkWords e.dim e.veclen codes task))
  length_eq : ∀ task ∈ chunkTasks e.dim e.veclen n,
    (chunkWords e.dim e.veclen codes task).length = e.veclen
  /-- Different copies store to runs that do not overlap. -/
  apart : ∀ task ∈ chunkTasks e.dim e.veclen n, ∀ other ∈ chunkTasks e.dim e.veclen n,
    task ≠ other →
      chunkPosition e.dim e.veclen (start + task.1) task.2 + e.veclen ≤
        chunkPosition e.dim e.veclen (start + other.1) other.2 ∨
      chunkPosition e.dim e.veclen (start + other.1) other.2 + e.veclen ≤
        chunkPosition e.dim e.veclen (start + task.1) task.2
  /-- The copies of a record stay in the block of its group. -/
  grouped : ∀ task ∈ chunkTasks e.dim e.veclen n,
    (start + task.1) / groupSize * e.groupLength ≤
        chunkPosition e.dim e.veclen (start + task.1) task.2 ∧
      chunkPosition e.dim e.veclen (start + task.1) task.2 + e.veclen ≤
        ((start + task.1) / groupSize + 1) * e.groupLength

variable {e : Extents} {start n : Nat} {data : Array (Word t)}

/-- A batch that fits is packed in any order, with one outcome. -/
theorem packedInAnyOrder (hpos : 0 < e.veclen) (hdim : 0 < e.dim) (hsize : data.size = e.length)
    (hcodes : codes.size = n * e.dim) (hroom : start + n ≤ e.rows) :
    ∃ data', PackedInAnyOrder e start n codes data data' := by
  have hdvd : e.veclen ∣ e.dim := Nat.dvd_mul_left e.veclen e.chunks
  have hbatch : n * e.dim ≤ codes.size := Nat.le_of_eq hcodes.symm
  have hcovers : ∀ k < n, Covers e.dim (start + k) data :=
    fun k hk => covers_of_extents hsize (by omega : start + k < e.rows)
  obtain ⟨data', hpack, hpacked⟩ := pack_ok hpos hdim hsize hcodes hroom
  obtain ⟨each, heach, hpackedEach⟩ := packSlots_ok hpos hdvd hbatch hcovers
  obtain rfl := hpackedEach.eq hpos hdvd hdim hpacked
  have hcopies : (chunkTasks e.dim e.veclen n).forM (copyChunk e.dim e.veclen start codes) data =
      .ok () each := (packSlots_perm hpos hdvd hbatch hcovers (.refl _)).symm.trans heach
  refine ⟨each, hpack, fun order hperm => ?_, fun order hperm => ?_, fun schedule hperm => ?_, ?_⟩
  · rw [packGroups_perm hpos hbatch hcovers hperm, hcopies]
  · rw [packSlots_perm hpos hdvd hbatch hcovers hperm, hcopies]
  · rw [forM_copyChunk_perm hpos hdvd hbatch hcovers hperm, hcopies]
  · rintro i l hwidth hchunk rfl htail hslots
    rw [← hwidth, ← hchunk] at heach
    exact InvertedList.pack_of_slots (hcodes.trans (by rw [hwidth])) hslots htail heach

theorem copiesApart (hpos : 0 < e.veclen) (hsize : data.size = e.length)
    (hcodes : codes.size = n * e.dim) (hroom : start + n ≤ e.rows) :
    CopiesApart e start n codes data := by
  have hdvd : e.veclen ∣ e.dim := Nat.dvd_mul_left e.veclen e.chunks
  have hbatch : n * e.dim ≤ codes.size := Nat.le_of_eq hcodes.symm
  refine ⟨?writes, fun task => length_chunkWords hdvd hbatch, ?apart, ?grouped⟩
  case writes =>
    intro task htask other hother
    have hcovers : ∀ k < n, Covers e.dim (start + k) other :=
      fun k hk => covers_of_extents (hother.trans hsize) (by omega : start + k < e.rows)
    exact copyChunk_ok hpos hdvd hbatch hcovers htask
  case apart =>
    intro task htask other hother hne
    obtain ⟨k, -, c, hc, rfl⟩ := mem_chunkTasks_iff.mp htask
    obtain ⟨k', -, c', hc', rfl⟩ := mem_chunkTasks_iff.mp hother
    refine chunks_disjoint hpos hdvd hc hc' fun ⟨hrecord, hchunk⟩ => hne ?_
    rw [hchunk, show k = k' by omega]
  case grouped =>
    intro task htask
    obtain ⟨k, -, c, hc, rfl⟩ := mem_chunkTasks_iff.mp htask
    exact chunk_in_group hpos hdvd hc

end Copies

end Interleave

end InvertedFile
