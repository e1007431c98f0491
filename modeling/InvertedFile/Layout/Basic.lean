import InvertedFile.Error

/-!
# Layouts

Records of a list are stored in groups of thirty-two. Inside a group the
columns of a record are cut into chunks of `veclen` columns, and a chunk is
stored for every record of the group before the next chunk starts. A
**layout** is the pair of widths that fixes this order: the columns of a
record, and the columns of a chunk, which are a power of two in number and
divide the record evenly.

The **extents** of a number of records under a layout are the shape of the
buffer that holds them, rounded up to whole groups.

## Main results

* `Layout.ofWidths_eq_ok_iff` — the widths that lay out a list.
* `Layout.dim_extents` — the extents lose no column.
* `Layout.le_rows_extents`, `Layout.rows_extents_of_dvd` — the extents have room
  for the records, and for no more where these fill whole groups.
* `widestVeclen_dvd`, `widestVeclen_isPowerOfTwo` — the automatic chunk width
  lays out every record.
-/

namespace InvertedFile

/-- Records in one group. -/
def groupSize : Nat :=
  32

/-- The shape of the buffer of a list: groups, chunks of a record and columns of a chunk. -/
structure Extents where
  groups : Nat
  chunks : Nat
  veclen : Nat
  deriving DecidableEq, Repr

namespace Extents

/-- Columns of a record. -/
def dim (e : Extents) : Nat :=
  e.chunks * e.veclen

/-- Records the buffer has room for. -/
def rows (e : Extents) : Nat :=
  e.groups * groupSize

/-- Elements of one group. -/
def groupLength (e : Extents) : Nat :=
  groupSize * e.dim

/-- Elements of the buffer. -/
def length (e : Extents) : Nat :=
  e.groups * e.groupLength

/-- The buffer as an array of rank four: groups, chunks, records of a group, columns of a chunk. -/
def toList (e : Extents) : List Nat :=
  [e.groups, e.chunks, groupSize, e.veclen]

theorem length_eq_rows_mul_dim (e : Extents) : e.length = e.rows * e.dim := by
  simp [length, rows, groupLength, Nat.mul_assoc]

end Extents

/-- A record width and a chunk width that lay out a list. -/
structure Layout where
  /-- Columns of a record. -/
  dim : Nat
  /-- Columns of a chunk. -/
  veclen : Nat
  dim_pos : 0 < dim
  dim_lt : dim < UInt32.size
  veclen_isPowerOfTwo : veclen.isPowerOfTwo
  veclen_dvd_dim : veclen ∣ dim
  deriving DecidableEq

namespace Layout

/-- The layout of a pair of widths, if they make one. -/
def ofWidths (dim veclen : UInt32) : Except LayoutFault Layout :=
  if hdim : dim.toNat = 0 then .error .zeroDim
  else if hpow : ¬ veclen.toNat.isPowerOfTwo then .error (.unevenVeclen veclen.toNat)
  else if hdvd : dim.toNat % veclen.toNat ≠ 0 then .error (.unevenDim dim.toNat veclen.toNat)
  else .ok
    { dim := dim.toNat
      veclen := veclen.toNat
      dim_pos := Nat.pos_of_ne_zero hdim
      dim_lt := dim.toNat_lt
      veclen_isPowerOfTwo := Decidable.not_not.mp hpow
      veclen_dvd_dim := Nat.dvd_of_mod_eq_zero (Decidable.not_not.mp hdvd) }

theorem ofWidths_eq_ok_iff {dim veclen : UInt32} {l : Layout} :
    ofWidths dim veclen = .ok l ↔ l.dim = dim.toNat ∧ l.veclen = veclen.toNat := by
  unfold ofWidths
  have hpos := l.dim_pos
  have hpow := l.veclen_isPowerOfTwo
  have hdvd := Nat.mod_eq_zero_of_dvd l.veclen_dvd_dim
  obtain ⟨ldim, lveclen, h₁, h₂, h₃, h₄⟩ := l
  simp only at hpos hpow hdvd
  split
  · next h => simp; omega
  · split
    · next h => simp; rintro - rfl; exact h hpow
    · split
      · next h => simp; rintro rfl rfl; exact h hdvd
      · simp [eq_comm]

theorem veclen_pos (l : Layout) : 0 < l.veclen :=
  Nat.pos_of_isPowerOfTwo l.veclen_isPowerOfTwo

theorem veclen_le_dim (l : Layout) : l.veclen ≤ l.dim :=
  Nat.le_of_dvd l.dim_pos l.veclen_dvd_dim

/-- The extents of a number of records, rounded up to whole groups. -/
def extents (l : Layout) (records : Nat) : Extents where
  groups := (records + (groupSize - 1)) / groupSize
  chunks := l.dim / l.veclen
  veclen := l.veclen

theorem dim_extents (l : Layout) (records : Nat) : (l.extents records).dim = l.dim :=
  Nat.div_mul_cancel l.veclen_dvd_dim

theorem le_rows_extents (l : Layout) (records : Nat) : records ≤ (l.extents records).rows := by
  simp only [extents, Extents.rows, groupSize]
  omega

/-- Extents of whole groups have room for no record more than was asked for. -/
theorem rows_extents_of_dvd (layout : Layout) {records : Nat} (h : groupSize ∣ records) :
    (layout.extents records).rows = records := by
  obtain ⟨groups, rfl⟩ := h
  simp only [extents, Extents.rows, groupSize]
  omega

end Layout

/-- Bytes of the widest chunk that is chosen without being asked for. -/
def chunkBytes : Nat :=
  16

/-- The first of the powers of two from `2 ^ k` down that divides a number. One always does. -/
def narrow (n : Nat) : Nat → Nat
  | 0 => 1
  | k + 1 => if n % (1 <<< (k + 1)) = 0 then 1 <<< (k + 1) else narrow n k

/-- The widest chunk of at most sixteen bytes that divides a record evenly. -/
def widestVeclen (t : ElementType) (dim : Nat) : Nat :=
  narrow dim (chunkBytes / t.size).log2

theorem narrow_isPowerOfTwo (n k : Nat) : (narrow n k).isPowerOfTwo := by
  induction k with
  | zero => exact Nat.isPowerOfTwo_one
  | succ k ih =>
      unfold narrow
      split
      · exact ⟨k + 1, Nat.one_shiftLeft _⟩
      · exact ih

theorem narrow_dvd (n k : Nat) : narrow n k ∣ n := by
  induction k with
  | zero => exact Nat.one_dvd n
  | succ k ih =>
      unfold narrow
      split
      · next h => exact Nat.dvd_of_mod_eq_zero h
      · exact ih

theorem widestVeclen_isPowerOfTwo (t : ElementType) (dim : Nat) :
    (widestVeclen t dim).isPowerOfTwo :=
  narrow_isPowerOfTwo _ _

theorem widestVeclen_dvd (t : ElementType) (dim : Nat) : widestVeclen t dim ∣ dim :=
  narrow_dvd _ _

end InvertedFile
