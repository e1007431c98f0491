import InvertedFile.Interleave

/-!
# Coordinates of the interleaved order

An element of a list's buffer has two coordinates, its record and its column,
and `position` is where they lead. Read as a number in mixed radix, the
position has four digits: the column within its chunk, the record within its
group, the chunk within its group, and the group. `recordAt` and `columnAt`
read these digits back, so that every place of a buffer is the place of
exactly one column of one record.

All that is said about a buffer elsewhere is said in these coordinates.

## Main results

* `recordAt_position`, `columnAt_position`, `position_recordAt_columnAt` — the
  coordinates and the place determine each other.
* `position_lt` — the columns of the first groups lie in the first places.
* `chunk_contains_iff` — a chunk holds its own columns of its own record and
  nothing else.
-/

namespace InvertedFile.Interleave

/-- The record of the element at place `k` of a buffer. -/
def recordAt (dim veclen k : Nat) : Nat :=
  k / (groupSize * dim) * groupSize + k / veclen % groupSize

/-- The column of the element at place `k` of a buffer. -/
def columnAt (dim veclen k : Nat) : Nat :=
  k % (groupSize * dim) / (groupSize * veclen) * veclen + k % veclen

theorem groupSize_pos : 0 < groupSize := by decide

section Digits

/-- The low digit of a number in mixed radix. -/
private theorem low_digit {b q r : Nat} (h : r < b) : (b * q + r) % b = r := by
  rw [Nat.mul_add_mod, Nat.mod_eq_of_lt h]

/-- What stands above the low digit of a number in mixed radix. -/
private theorem high_digits {b q r : Nat} (h : r < b) : (b * q + r) / b = q := by
  rw [Nat.mul_add_div (by omega), Nat.div_eq_of_lt h, Nat.add_zero]

/-- A number with a low digit below its base stays below a whole number of bases. -/
private theorem digits_lt {b q r n : Nat} (hr : r < b) (hq : q < n) : b * q + r < b * n := by
  calc b * q + r < b * q + b := by omega
    _ = b * (q + 1) := by rw [Nat.mul_succ]
    _ ≤ b * n := Nat.mul_le_mul_left b hq

end Digits

/-- The position as a number of four digits, for records of `chunks` chunks. -/
private theorem position_eq_digits (chunks veclen p d : Nat) :
    position (veclen * chunks) veclen p d =
      veclen * (groupSize * (chunks * (p / groupSize) + d / veclen) + p % groupSize) +
        d % veclen := by
  simp only [position]
  grind

variable {dim veclen : Nat}

theorem recordAt_position (hpos : 0 < veclen) (hdvd : veclen ∣ dim) (p : Nat) {d : Nat}
    (hd : d < dim) : recordAt dim veclen (position dim veclen p d) = p := by
  obtain ⟨chunks, rfl⟩ := hdvd
  have hcol : d % veclen < veclen := Nat.mod_lt _ hpos
  have hrow : p % groupSize < groupSize := Nat.mod_lt _ groupSize_pos
  have hchunk : d / veclen < chunks := Nat.div_lt_of_lt_mul hd
  have hgroup : position (veclen * chunks) veclen p d / (groupSize * (veclen * chunks)) =
      p / groupSize := by
    rw [position_eq_digits, show groupSize * (veclen * chunks) = veclen * groupSize * chunks by
      grind, ← Nat.div_div_eq_div_mul, ← Nat.div_div_eq_div_mul, high_digits hcol,
      high_digits hrow, high_digits hchunk]
  have hslot : position (veclen * chunks) veclen p d / veclen % groupSize = p % groupSize := by
    rw [position_eq_digits, high_digits hcol, low_digit hrow]
  rw [recordAt, hgroup, hslot]
  exact Nat.div_add_mod' p groupSize

theorem columnAt_position (hpos : 0 < veclen) (hdvd : veclen ∣ dim) (p : Nat) {d : Nat}
    (hd : d < dim) : columnAt dim veclen (position dim veclen p d) = d := by
  obtain ⟨chunks, rfl⟩ := hdvd
  have hcol : d % veclen < veclen := Nat.mod_lt _ hpos
  have hrow : p % groupSize < groupSize := Nat.mod_lt _ groupSize_pos
  have hchunk : d / veclen < chunks := Nat.div_lt_of_lt_mul hd
  have hin : veclen * (groupSize * (d / veclen) + p % groupSize) + d % veclen <
      groupSize * (veclen * chunks) := by
    rw [show groupSize * (veclen * chunks) = veclen * (groupSize * chunks) by grind]
    exact digits_lt hcol (digits_lt hrow hchunk)
  have hrest : position (veclen * chunks) veclen p d % (groupSize * (veclen * chunks)) =
      veclen * (groupSize * (d / veclen) + p % groupSize) + d % veclen := by
    rw [position_eq_digits, show
      veclen * (groupSize * (chunks * (p / groupSize) + d / veclen) + p % groupSize) + d % veclen =
        groupSize * (veclen * chunks) * (p / groupSize) +
          (veclen * (groupSize * (d / veclen) + p % groupSize) + d % veclen) by grind]
    exact low_digit hin
  have hchunkAt : position (veclen * chunks) veclen p d % (groupSize * (veclen * chunks)) /
      (groupSize * veclen) = d / veclen := by
    rw [hrest, Nat.mul_comm groupSize veclen, ← Nat.div_div_eq_div_mul, high_digits hcol,
      high_digits hrow]
  have hcolAt : position (veclen * chunks) veclen p d % veclen = d % veclen := by
    rw [position_eq_digits, low_digit hcol]
  rw [columnAt, hchunkAt, hcolAt]
  exact Nat.div_add_mod' d veclen

theorem columnAt_lt (hpos : 0 < veclen) (hdvd : veclen ∣ dim) (hdim : 0 < dim) (k : Nat) :
    columnAt dim veclen k < dim := by
  obtain ⟨chunks, rfl⟩ := hdvd
  have hrest : k % (groupSize * (veclen * chunks)) < groupSize * (veclen * chunks) :=
    Nat.mod_lt _ (Nat.mul_pos groupSize_pos hdim)
  have hchunk : k % (groupSize * (veclen * chunks)) / (groupSize * veclen) < chunks := by
    apply Nat.div_lt_of_lt_mul
    rwa [Nat.mul_assoc]
  rw [columnAt, Nat.mul_comm _ veclen]
  exact digits_lt (Nat.mod_lt _ hpos) hchunk

/-- Every place of a buffer is the place of one column of one record. -/
theorem position_recordAt_columnAt (hpos : 0 < veclen) (hdvd : veclen ∣ dim) (hdim : 0 < dim)
    (k : Nat) :
    position dim veclen (recordAt dim veclen k) (columnAt dim veclen k) = k := by
  have hlt := columnAt_lt hpos hdvd hdim k
  obtain ⟨chunks, rfl⟩ := hdvd
  have hslot : k / veclen % groupSize < groupSize := Nat.mod_lt _ groupSize_pos
  have hcol : k % veclen < veclen := Nat.mod_lt _ hpos
  have hgroup : recordAt (veclen * chunks) veclen k / groupSize =
      k / (groupSize * (veclen * chunks)) := by
    rw [recordAt, Nat.mul_comm _ groupSize, high_digits hslot]
  have hrow : recordAt (veclen * chunks) veclen k % groupSize = k / veclen % groupSize := by
    rw [recordAt, Nat.mul_comm _ groupSize, low_digit hslot]
  have hchunk : columnAt (veclen * chunks) veclen k / veclen =
      k % (groupSize * (veclen * chunks)) / (groupSize * veclen) := by
    rw [columnAt, Nat.mul_comm _ veclen, high_digits hcol]
  have hcolumn : columnAt (veclen * chunks) veclen k % veclen = k % veclen := by
    rw [columnAt, Nat.mul_comm _ veclen, low_digit hcol]
  have hwithin : k % (groupSize * (veclen * chunks)) / (groupSize * veclen) =
      k / veclen / groupSize % chunks := by
    rw [show groupSize * (veclen * chunks) = groupSize * veclen * chunks by grind,
      Nat.mod_mul_right_div_self, Nat.mul_comm groupSize veclen, Nat.div_div_eq_div_mul]
  have hover : k / (groupSize * (veclen * chunks)) = k / veclen / groupSize / chunks := by
    rw [Nat.div_div_eq_div_mul, Nat.div_div_eq_div_mul]
    congr 1
    grind
  rw [position_eq_digits, hgroup, hrow, hchunk, hcolumn, hwithin, hover, Nat.div_add_mod,
    Nat.div_add_mod, Nat.div_add_mod]

theorem position_inj (hpos : 0 < veclen) (hdvd : veclen ∣ dim) {p q d e : Nat} (hd : d < dim)
    (he : e < dim) (h : position dim veclen p d = position dim veclen q e) : p = q ∧ d = e := by
  constructor
  · rw [← recordAt_position hpos hdvd p hd, h, recordAt_position hpos hdvd q he]
  · rw [← columnAt_position hpos hdvd p hd, h, columnAt_position hpos hdvd q he]

/-- The columns of the records of the first groups lie in the places of the first groups. -/
theorem position_lt (hpos : 0 < veclen) (hdvd : veclen ∣ dim) {groups p d : Nat}
    (hp : p < groups * groupSize) (hd : d < dim) :
    position dim veclen p d < groups * (groupSize * dim) := by
  obtain ⟨chunks, rfl⟩ := hdvd
  have hcol : d % veclen < veclen := Nat.mod_lt _ hpos
  have hrow : p % groupSize < groupSize := Nat.mod_lt _ groupSize_pos
  have hchunk : d / veclen < chunks := Nat.div_lt_of_lt_mul hd
  have hgroup : p / groupSize < groups :=
    Nat.div_lt_of_lt_mul (by rwa [Nat.mul_comm])
  rw [position_eq_digits, show groups * (groupSize * (veclen * chunks)) =
    veclen * (groupSize * (chunks * groups)) by grind]
  exact digits_lt hcol (digits_lt hrow (digits_lt hchunk hgroup))

/-- The places of later groups stand behind those of earlier ones. -/
theorem le_position {first p : Nat} (hp : first * groupSize ≤ p) (d : Nat) :
    first * (groupSize * dim) ≤ position dim veclen p d := by
  obtain ⟨q, rfl⟩ := Nat.exists_eq_add_of_le' hp
  rw [position_groups]
  exact Nat.le_add_right _ _

theorem recordAt_lt {groups k : Nat} (hk : k < groups * (groupSize * dim)) :
    recordAt dim veclen k < groups * groupSize := by
  have hgroup : k / (groupSize * dim) < groups :=
    Nat.div_lt_of_lt_mul (by rwa [Nat.mul_comm])
  rw [recordAt, Nat.mul_comm _ groupSize, Nat.mul_comm groups]
  exact digits_lt (Nat.mod_lt _ groupSize_pos) hgroup

/-- Within a chunk, the columns stand one behind the other. -/
theorem position_chunk (dim p c : Nat) {j : Nat} (hj : j < veclen) :
    position dim veclen p (c * veclen + j) = chunkPosition dim veclen p (c * veclen) + j := by
  have hpos : 0 < veclen := by omega
  have hdiv : (c * veclen + j) / veclen = c := by
    rw [Nat.mul_comm, high_digits hj]
  have hmod : (c * veclen + j) % veclen = j := by
    rw [Nat.mul_comm, low_digit hj]
  have hdiv' : c * veclen / veclen = c := Nat.mul_div_cancel c hpos
  rw [chunkPosition_eq_position p c hpos]
  simp only [position, hdiv, hmod, hdiv', Nat.mul_mod_left, Nat.add_zero]

theorem chunk_column_lt (hdvd : veclen ∣ dim) {c j : Nat} (hc : c < dim / veclen)
    (hj : j < veclen) : c * veclen + j < dim := by
  obtain ⟨chunks, rfl⟩ := hdvd
  rw [Nat.mul_div_cancel_left _ (by omega)] at hc
  rw [Nat.mul_comm c]
  exact digits_lt hj hc

/-- The chunks of the records of the first groups lie in the places of the first groups. -/
theorem chunkPosition_add_le (hpos : 0 < veclen) (hdvd : veclen ∣ dim) {groups p c : Nat}
    (hp : p < groups * groupSize) (hc : c < dim / veclen) :
    chunkPosition dim veclen p (c * veclen) + veclen ≤ groups * (groupSize * dim) := by
  have hlast : veclen - 1 < veclen := by omega
  have hplace := position_chunk dim p c hlast
  have hlt := position_lt hpos hdvd hp (chunk_column_lt hdvd hc hlast)
  omega

/-- The places of a chunk are those of its own columns of its own record. -/
theorem chunk_contains_iff (hpos : 0 < veclen) (hdvd : veclen ∣ dim) {p q c d : Nat}
    (hc : c < dim / veclen) (hd : d < dim) :
    (chunkPosition dim veclen p (c * veclen) ≤ position dim veclen q d ∧
      position dim veclen q d < chunkPosition dim veclen p (c * veclen) + veclen) ↔
      q = p ∧ d / veclen = c := by
  constructor
  · rintro ⟨hle, hlt⟩
    obtain ⟨j, hj⟩ := Nat.exists_eq_add_of_le hle
    have hjlt : j < veclen := by omega
    rw [← position_chunk dim p c hjlt] at hj
    obtain ⟨hq, hcol⟩ := position_inj hpos hdvd hd (chunk_column_lt hdvd hc hjlt) hj
    refine ⟨hq, ?_⟩
    rw [hcol, Nat.mul_comm, high_digits hjlt]
  · rintro ⟨rfl, rfl⟩
    have hmod : d % veclen < veclen := Nat.mod_lt _ hpos
    have hplace := position_chunk dim q (d / veclen) hmod
    rw [Nat.div_add_mod'] at hplace
    omega

end InvertedFile.Interleave
