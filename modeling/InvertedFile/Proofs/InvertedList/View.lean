import InvertedFile.InvertedList.View
import InvertedFile.Proofs.InvertedList.Evolution

/-!
# What a view shows while its list is written

A view is bounded by the size at which it was taken. Nothing that is read
through it lies outside the slots below that size: the ids are the first ones,
the complete groups hold no other records, and chunks and records are those of
a published slot. So as long as these slots stay as they are, a view shows
what it did, and that they do is what `Evolves` says of a list that is written
by others.

The last group that a view reaches into may be published in part. Its words
lie between words that are still being written, and the reads of single
records and chunks go around them, place by place.

## Main results

* `slice_congr`, `unpackRecord_congr` — a read depends on the places it reads.
* `Evolves.view_agrees` — a view shows the same of a list that has evolved.
* `WellFormed.contents_ok` — there is something to be shown: all that a view
  covers can be read.
-/

namespace InvertedFile

/-! ## Reads that agree -/

/-- A slice depends on its own elements only. -/
theorem Buffer.slice_congr {α : Type} {a b : Array α} {start length : Nat}
    (hsize : b.size = a.size)
    (hsame : ∀ k, start ≤ k → k < start + length → b[k]? = a[k]?) :
    slice b start length = slice a start length := by
  by_cases hin : start + length ≤ a.size
  · rw [slice_eq_ok hin, slice_eq_ok (hsize.symm ▸ hin)]
    congr 1
    apply Array.ext_getElem?
    intro k
    rw [Array.getElem?_extract, Array.getElem?_extract, hsize]
    split
    · next hk => exact hsame _ (Nat.le_add_right _ _) (by omega)
    · rfl
  · rw [slice, slice, hsize, if_neg hin, if_neg hin]

namespace Interleave

variable {α : Type} {dim veclen p : Nat} {a b : Array α}

/-- Two buffers hold the same columns of a record. -/
def SameRecord (dim veclen p : Nat) (a b : Array α) : Prop :=
  ∀ d < dim, b[position dim veclen p d]? = a[position dim veclen p d]?

/-- A chunk is read from the places of its own columns. -/
theorem slice_chunk_congr (hdvd : veclen ∣ dim) (hsize : b.size = a.size)
    (hsame : SameRecord dim veclen p a b) {c : Nat} (hc : c < dim / veclen) :
    Buffer.slice b (chunkPosition dim veclen p (c * veclen)) veclen =
      Buffer.slice a (chunkPosition dim veclen p (c * veclen)) veclen := by
  apply Buffer.slice_congr hsize
  intro k hle hlt
  obtain ⟨j, rfl⟩ := Nat.exists_eq_add_of_le hle
  have hj : j < veclen := by omega
  rw [← position_chunk dim p c hj]
  exact hsame _ (chunk_column_lt hdvd hc hj)

/-- A record is unpacked from the places of its own columns. -/
theorem unpackRecord_congr (hdvd : veclen ∣ dim) (hsize : b.size = a.size)
    (hsame : SameRecord dim veclen p a b) :
    unpackRecord dim veclen p b = unpackRecord dim veclen p a := by
  rw [unpackRecord, unpackRecord, forChunks_eq_forM, forChunks_eq_forM]
  refine Action.forM_congr fun chunk hchunk => ?_
  simp only [recordChunks, columns, List.map_map, List.mem_map, List.mem_range,
    Function.comp] at hchunk
  obtain ⟨c, hc, rfl⟩ := hchunk
  rw [slice_chunk_congr hdvd hsize hsame hc]

/-- The places of the first groups are those of their own records. -/
theorem sameGroups (hpos : 0 < veclen) (hdvd : veclen ∣ dim) (hdim : 0 < dim) {groups : Nat}
    (hsame : ∀ p < groups * groupSize, SameRecord dim veclen p a b) {k : Nat}
    (hk : k < groups * (groupSize * dim)) : b[k]? = a[k]? := by
  have hrecord : recordAt dim veclen k < groups * groupSize := recordAt_lt hk
  have hcell := hsame _ hrecord _ (columnAt_lt hpos hdvd hdim k)
  rwa [position_recordAt_columnAt hpos hdvd hdim] at hcell

end Interleave

namespace View

variable {t : ElementType} {i : IdType}

/-- Everything that can be read through one view is read in the same way through another one. -/
structure Agrees (v v' : View t i) : Prop where
  dim_eq : v'.dim = v.dim
  size_eq : v'.size = v.size
  ids_eq : v'.ids = v.ids
  completeGroups_eq : v'.completeGroups = v.completeGroups
  chunk_eq : ∀ p c, v'.chunk p c = v.chunk p c
  record_eq : ∀ p, v'.record p = v.record p
  unpack_eq : ∀ start, v'.unpack start = v.unpack start

namespace Agrees

variable {v v' : View t i}

theorem elements_eq (h : Agrees v v') (start length : Nat) :
    v'.elements start length = v.elements start length := by
  rw [elements, elements, h.unpack_eq]

theorem contents_eq (h : Agrees v v') : v'.contents = v.contents := by
  rw [contents, contents, h.ids_eq, h.completeGroups_eq, h.size_eq, h.dim_eq]
  simp only [h.elements_eq]

end Agrees

end View

namespace InvertedList

variable {t : ElementType} {i : IdType}

namespace Evolves

variable {before after : InvertedList t i}

theorem sameRecord (h : before.Evolves after) {p : Nat} (hp : p < before.size) :
    Interleave.SameRecord before.spec.dim before.spec.veclen p before.data after.data :=
  h.word p hp

/-- A view shows the same of a list that has been written behind the published records. -/
theorem view_agrees (h : before.Evolves after) {n : Nat} (hn : n ≤ before.size) :
    View.Agrees { list := before, size := n } { list := after, size := n } := by
  have hpos : 0 < before.spec.veclen := before.spec.layout.veclen_pos
  have hdvd : before.spec.veclen ∣ before.spec.dim := before.spec.layout.veclen_dvd_dim
  have hdim : 0 < before.spec.dim := before.spec.layout.dim_pos
  have hsame : ∀ p < n, Interleave.SameRecord before.spec.dim before.spec.veclen p before.data
      after.data := fun p hp => h.sameRecord (Nat.lt_of_lt_of_le hp hn)
  constructor
  case dim_eq => exact congrArg ListSpec.dim h.spec_eq
  case size_eq => rfl
  case ids_eq =>
    refine Buffer.slice_congr h.size_ids fun p _ hp => h.id p ?_
    change p < 0 + n at hp
    omega
  case completeGroups_eq =>
    change Buffer.slice after.data 0 ((after.spec.layout.extents n).groupLength * (n / groupSize)) =
      Buffer.slice before.data 0 ((before.spec.layout.extents n).groupLength * (n / groupSize))
    rw [h.spec_eq]
    refine Buffer.slice_congr h.size_data fun k _ hk => ?_
    rw [Nat.zero_add, Extents.groupLength, Layout.dim_extents, Nat.mul_comm] at hk
    exact Interleave.sameGroups hpos hdvd hdim (fun p hp => hsame p
      (Nat.lt_of_lt_of_le hp (Nat.div_mul_le_self n groupSize))) hk
  case chunk_eq =>
    intro p c
    simp only [View.chunk, View.dim, View.veclen, h.spec_eq]
    refine Except.bind_congr fun _ hchecked => ?_
    have hp : p + 1 ≤ n := (View.checkPublished_eq_ok_iff _ p 1).mp hchecked
    refine Except.bind_congr fun _ hensured => ?_
    have hc : c < before.spec.dim / before.spec.veclen := Except.ensure_eq_ok.mp hensured
    rw [← Interleave.chunkPosition_eq_position p c hpos]
    exact Interleave.slice_chunk_congr hdvd h.size_data (hsame p hp) hc
  case record_eq =>
    intro p
    simp only [View.record, View.dim, View.veclen, h.spec_eq]
    refine Except.bind_congr fun _ hchecked => ?_
    have hp : p + 1 ≤ n := (View.checkPublished_eq_ok_iff _ p 1).mp hchecked
    rw [Interleave.unpackRecord_congr hdvd h.size_data (hsame p hp)]
  case unpack_eq =>
    intro start
    simp only [View.unpack, View.dim, View.veclen, h.spec_eq]
    funext out
    refine Action.bind_congr fun elements _ _ => ?_
    refine Action.bind_congr fun _ _ _ => ?_
    refine Action.bind_congr fun _ _ hchecked => ?_
    have hrange : start + elements.size / before.spec.dim ≤ n :=
      (View.checkPublished_eq_ok_iff _ start _).mp (Action.ofExcept_eq_ok.mp hchecked).1
    refine congrFun (Action.forM_congr fun k hk => ?_) _
    have hp : start + k < n := by
      have := List.mem_range.mp hk
      omega
    rw [Interleave.unpackSlot, Interleave.unpackSlot,
      Interleave.unpackRecord_congr hdvd h.size_data (hsame _ hp)]

end Evolves

/-! ## What can be read -/

section Contents

variable {l : InvertedList t i} {n : Nat}

theorem unpack_ok (h : l.WellFormed) (hn : n ≤ l.capacity) {start count : Nat}
    (hrange : start + count ≤ n) {out : Array (Word t)} (hout : out.size = count * l.spec.dim) :
    ∃ out', View.unpack { list := l, size := n } start out = .ok () out' ∧
      Interleave.Unpacked l.spec.dim l.spec.veclen start count l.data out out' := by
  have hdim : 0 < l.spec.dim := l.spec.layout.dim_pos
  have hcovers : ∀ k < count, Interleave.Covers l.spec.dim (start + k) l.data := by
    intro k hk
    exact h.covers (by omega)
  obtain ⟨out', hok, hunpacked⟩ := Interleave.unpackSlots_ok l.spec.layout.veclen_pos
    l.spec.layout.veclen_dvd_dim (Nat.le_of_eq hout.symm) hcovers
  refine ⟨out', ?_, hunpacked⟩
  have hwhole : out.size % l.spec.dim = 0 := by
    rw [hout, Nat.mul_mod_left]
  have hcount : out.size / l.spec.dim = count := by
    rw [hout, Nat.mul_div_cancel count hdim]
  have hchecked := (View.checkPublished_eq_ok_iff { list := l, size := n } start count).mpr hrange
  change ((ensure (out.size % l.spec.dim = 0) _ : Action _ Unit) >>= _) out = _
  rw [Action.bind_ok (Action.ensure_ok hwhole out)]
  change (Action.ofExcept (View.checkPublished _ start (out.size / l.spec.dim)) >>= _) out = _
  rw [hcount, Action.bind_ok (Action.ofExcept_ok hchecked out)]
  rwa [← hcount] at hok

theorem ids_ok (h : l.WellFormed) (hn : n ≤ l.capacity) :
    View.ids { list := l, size := n } = .ok (l.ids.extract 0 (0 + n)) := by
  apply Buffer.slice_eq_ok
  rw [h.size_ids, Nat.zero_add]
  exact hn

theorem completeGroups_ok (h : l.WellFormed) (hn : n ≤ l.capacity) :
    View.completeGroups { list := l, size := n } =
      .ok (l.data.extract 0 (0 + (l.spec.layout.extents n).groupLength * (n / groupSize))) := by
  apply Buffer.slice_eq_ok
  rw [h.size_data_eq, Nat.zero_add, Extents.groupLength, Layout.dim_extents, Nat.mul_comm,
    ← Nat.mul_assoc]
  exact Nat.mul_le_mul_right _ (Nat.le_trans (Nat.div_mul_le_self n groupSize) hn)

/-- All that a view covers can be read. -/
theorem WellFormed.contents_ok (h : l.WellFormed) (hn : n ≤ l.size) :
    ∃ c, View.contents { list := l, size := n } = .ok c := by
  have hcapacity : n ≤ l.capacity := Nat.le_trans hn h.size_le
  have hrange : 0 + n ≤ n := by omega
  obtain ⟨records, hrecords, -⟩ := unpack_ok h hcapacity hrange
    (Array.size_replicate : (Array.replicate (n * l.spec.dim) (0 : Word t)).size = _)
  have helements :
      View.elements { list := l, size := n } 0 (n * l.spec.dim) = .ok records := by
    rw [View.elements, hrecords]
  let groups := (l.spec.layout.extents n).groupLength * (n / groupSize)
  refine ⟨{
    size := n
    ids := l.ids.extract 0 (0 + n)
    groups := l.data.extract 0 (0 + groups)
    records }, ?_⟩
  refine Except.bind_eq_ok.mpr ⟨_, ids_ok h hcapacity, ?_⟩
  refine Except.bind_eq_ok.mpr ⟨_, completeGroups_ok h hcapacity, ?_⟩
  exact Except.bind_eq_ok.mpr ⟨records, helements, rfl⟩

end Contents

end InvertedList

end InvertedFile
