import Mathlib.Order.Bounds.Defs
import InvertedFile.Proofs.Index.Creation

/-!
# The width of chunks nobody asked for

Where its parameters leave the width of chunks open, an index is laid out
with the widest power of two that fits into a chunk of sixteen bytes and
divides a record evenly. There always is one, since one column is a chunk, so
that such an index fails to be created only for want of lists or of columns.

On words of thirty-two bits the width is found by halving. The loop passes
through every power of two from the widest chunk down, and so through no
divisor that it does not stop at.

## Main results

* `narrow_isGreatest` — the first power of two that divides, from the top down,
  is the greatest one.
* `halved_eq_narrow` — the loop on words stops at it.
* `widestVeclen_isGreatest` — what the width is, and what it is enough for.
-/

namespace InvertedFile

/-! ## The greatest divisor -/

theorem le_of_isPowerOfTwo_of_lt {width k : Nat} (hpow : width.isPowerOfTwo)
    (hlt : width < 2 ^ (k + 1)) : width ≤ 2 ^ k := by
  obtain ⟨j, rfl⟩ := hpow
  have hj : j < k + 1 := (Nat.pow_lt_pow_iff_right (by decide)).mp hlt
  exact Nat.pow_le_pow_right (by decide) (Nat.le_of_lt_succ hj)

theorem narrow_le (n k : Nat) : narrow n k ≤ 2 ^ k := by
  induction k with
  | zero => exact Nat.le_refl 1
  | succ k ih =>
      unfold narrow
      split
      · rw [Nat.one_shiftLeft]
      · exact Nat.le_trans ih (Nat.pow_le_pow_right (by decide) (Nat.le_succ k))

/-- Of the powers of two up to `2 ^ k` that divide a number, the first one from the top down is the
greatest. -/
theorem narrow_isGreatest (n k : Nat) :
    IsGreatest {width | width.isPowerOfTwo ∧ width ≤ 2 ^ k ∧ width ∣ n} (narrow n k) := by
  refine ⟨⟨narrow_isPowerOfTwo n k, narrow_le n k, narrow_dvd n k⟩, ?_⟩
  rintro width ⟨hpow, hle, hdvd⟩
  induction k with
  | zero => exact hle
  | succ k ih =>
      unfold narrow
      split
      · rwa [Nat.one_shiftLeft]
      · next hnot =>
          rw [Nat.one_shiftLeft] at hnot
          -- the width that was passed over divides nothing, so a divisor lies below it
          have hne : width ≠ 2 ^ (k + 1) := by
            rintro rfl
            exact hnot (Nat.mod_eq_zero_of_dvd hdvd)
          exact ih (le_of_isPowerOfTwo_of_lt hpow (Nat.lt_of_le_of_ne hle hne))

/-- The widest chunk is a power of two itself. -/
theorem two_pow_log2_chunk (t : ElementType) :
    2 ^ (chunkBytes / t.size).log2 = chunkBytes / t.size := by
  cases t <;> decide

theorem widestVeclen_le (t : ElementType) (dim : Nat) : widestVeclen t dim ≤ chunkBytes / t.size :=
  two_pow_log2_chunk t ▸ narrow_le dim _

/-- A width that is chosen is a word. -/
theorem toNat_widestVeclen (t : ElementType) (dim : Nat) :
    (UInt32.ofNat (widestVeclen t dim)).toNat = widestVeclen t dim := by
  have hle := widestVeclen_le t dim
  have hwidest : chunkBytes / t.size ≤ 16 := Nat.div_le_self _ _
  exact UInt32.toNat_ofNat_of_lt' (Nat.lt_of_le_of_lt (Nat.le_trans hle hwidest) (by decide))

/-! ## Halving -/

/-- Halves a width until it divides the columns of a record, or is one. -/
def halved (dim veclen : UInt32) : UInt32 :=
  if 1 < veclen ∧ dim % veclen ≠ 0 then halved dim (veclen >>> 1) else veclen
termination_by veclen.toNat
decreasing_by
  rename_i hgoes
  have hlt : 1 < veclen.toNat := UInt32.lt_iff_toNat_lt.mp hgoes.1
  rw [UInt32.toNat_shiftRight]
  show veclen.toNat >>> 1 < veclen.toNat
  rw [Nat.shiftRight_succ, Nat.shiftRight_zero]
  exact Nat.div_lt_self (by omega) (by decide)

theorem toNat_ofNat_two_pow {k : Nat} (hk : k < 32) : (UInt32.ofNat (2 ^ k)).toNat = 2 ^ k :=
  UInt32.toNat_ofNat_of_lt' (Nat.pow_lt_pow_right (by decide) hk)

theorem two_pow_succ_shiftRight {k : Nat} (hk : k + 1 < 32) :
    UInt32.ofNat (2 ^ (k + 1)) >>> 1 = UInt32.ofNat (2 ^ k) := by
  apply UInt32.toNat.inj
  rw [UInt32.toNat_shiftRight, toNat_ofNat_two_pow hk, toNat_ofNat_two_pow (by omega)]
  show (2 ^ (k + 1)) >>> 1 = 2 ^ k
  rw [Nat.shiftRight_succ, Nat.shiftRight_zero, Nat.pow_succ, Nat.mul_div_cancel _ (by decide)]

/-- From a power of two on, halving stops at the first one that divides. -/
theorem halved_eq_narrow (dim : UInt32) {k : Nat} (hk : k < 32) :
    halved dim (UInt32.ofNat (2 ^ k)) = UInt32.ofNat (narrow dim.toNat k) := by
  induction k with
  | zero =>
      rw [halved, if_neg (fun h => absurd h.1 (by decide))]
      rfl
  | succ k ih =>
      have hone : 1 < UInt32.ofNat (2 ^ (k + 1)) := by
        rw [UInt32.lt_iff_toNat_lt, toNat_ofNat_two_pow hk]
        exact Nat.one_lt_two_pow (Nat.succ_ne_zero k)
      have hdivides : dim % UInt32.ofNat (2 ^ (k + 1)) = 0 ↔ dim.toNat % 2 ^ (k + 1) = 0 := by
        rw [← UInt32.toNat_inj, UInt32.toNat_mod, toNat_ofNat_two_pow hk]
        rfl
      rw [halved, narrow, Nat.one_shiftLeft]
      by_cases hdvd : dim.toNat % 2 ^ (k + 1) = 0
      · rw [if_neg (fun h => h.2 (hdivides.mpr hdvd)), if_pos hdvd]
      · rw [if_pos ⟨hone, fun h => hdvd (hdivides.mp h)⟩, if_neg hdvd, two_pow_succ_shiftRight hk,
          ih (by omega)]

/-- From the widest chunk on, halving stops at the width that is chosen. -/
theorem halved_widest (t : ElementType) (dim : UInt32) :
    halved dim (UInt32.ofNat (max (chunkBytes / t.size) 1)) =
      UInt32.ofNat (widestVeclen t dim.toNat) := by
  have hlog : (chunkBytes / t.size).log2 < 32 := by cases t <;> decide
  have hpos : 1 ≤ chunkBytes / t.size := by cases t <;> decide
  rw [Nat.max_eq_left hpos, ← two_pow_log2_chunk t, halved_eq_narrow dim hlog, widestVeclen]

/-! ## Specs and indexes -/

/-- A record of any columns is laid out with the width that is chosen for it. -/
theorem ofWidths_widest (t : ElementType) {dim : UInt32} (hdim : dim ≠ 0) (growth : Growth) :
    ∃ spec, ListSpec.ofWidths dim (UInt32.ofNat (widestVeclen t dim.toNat)) growth = .ok spec ∧
      spec.dim = dim.toNat ∧ spec.veclen = widestVeclen t dim.toNat := by
  let layout : Layout :=
    { dim := dim.toNat
      veclen := widestVeclen t dim.toNat
      dim_pos := Nat.pos_of_ne_zero fun hzero => hdim (UInt32.toNat_inj.mp hzero)
      dim_lt := dim.toNat_lt
      veclen_isPowerOfTwo := widestVeclen_isPowerOfTwo t dim.toNat
      veclen_dvd_dim := widestVeclen_dvd t dim.toNat }
  have hlayout : Layout.ofWidths dim (UInt32.ofNat (widestVeclen t dim.toNat)) = .ok layout :=
    Layout.ofWidths_eq_ok_iff.mpr ⟨rfl, (toNat_widestVeclen t dim.toNat).symm⟩
  refine ⟨{ layout, growth }, ?_, rfl, rfl⟩
  rw [ListSpec.ofWidths, hlayout]
  rfl

/-- An index whose parameters leave the width open is created where there are lists and columns. -/
theorem new_ok_of_pos (t : ElementType) (i : IdType) {params : IndexParams} {dim : UInt32}
    (hveclen : params.veclen = none) (hlists : params.lists ≠ 0) (hdim : dim ≠ 0) :
    ∃ x, LoadedIndex.new t i params dim = .ok x ∧ x.spec.veclen = widestVeclen t dim.toNat := by
  obtain ⟨spec, hspec, -, hwidth⟩ := ofWidths_widest t hdim params.growth
  have hchosen : ListSpec.ofWidths dim
      (params.veclen.getD (UInt32.ofNat (widestVeclen t dim.toNat))) params.growth = .ok spec := by
    rwa [hveclen, Option.getD_none]
  exact ⟨_, LoadedIndex.new_eq hlists hchosen, hwidth⟩

/-- An index without lists or without columns is not created. -/
theorem new_error_of_zero (t : ElementType) (i : IdType) {params : IndexParams} {dim : UInt32}
    (h : params.lists = 0 ∨ dim = 0) : ∃ e, LoadedIndex.new t i params dim = .error e := by
  cases hnew : LoadedIndex.new t i params dim with
  | error e => exact ⟨e, rfl⟩
  | ok x =>
      obtain ⟨hcreatable, hparams, hcolumns, -⟩ := LoadedIndex.creatable_new hnew
      have hlists := hcreatable.lists_pos
      have hpos := x.spec.layout.dim_pos
      rcases h with hzero | hzero
      · rw [hparams, hzero] at hlists
        exact absurd hlists (by decide)
      · rw [ListSpec.dim, hzero] at hcolumns
        exact absurd hcolumns (Nat.ne_of_gt hpos)

/-- **The width that is chosen is the widest one there is.** Of the powers of two that fit into a
chunk and divide the columns of a record, it is the greatest, and halving the widest chunk comes to
it. Records of any columns are laid out with it. So an index whose parameters leave the width open
is not created exactly when it has no lists or no columns, and one that is created has it. -/
theorem widestVeclen_isGreatest (t : ElementType) (i : IdType) (dim : UInt32)
    {params : IndexParams} (hveclen : params.veclen = none) :
    IsGreatest {width | width.isPowerOfTwo ∧ width ≤ chunkBytes / t.size ∧ width ∣ dim.toNat}
      (widestVeclen t dim.toNat) ∧
    halved dim (UInt32.ofNat (max (chunkBytes / t.size) 1)) =
      UInt32.ofNat (widestVeclen t dim.toNat) ∧
    (UInt32.ofNat (widestVeclen t dim.toNat)).toNat = widestVeclen t dim.toNat ∧
    (dim ≠ 0 → ∀ growth, ∃ spec,
      ListSpec.ofWidths dim (UInt32.ofNat (widestVeclen t dim.toNat)) growth = .ok spec ∧
        spec.dim = dim.toNat ∧ spec.veclen = widestVeclen t dim.toNat) ∧
    ((∃ e, LoadedIndex.new t i params dim = .error e) ↔ params.lists = 0 ∨ dim = 0) ∧
    ∀ x, LoadedIndex.new t i params dim = .ok x → x.spec.veclen = widestVeclen t dim.toNat := by
  refine ⟨?greatest, halved_widest t dim, toNat_widestVeclen t dim.toNat,
    fun hdim growth => ofWidths_widest t hdim growth, ⟨?_, new_error_of_zero t i⟩, ?created⟩
  case greatest =>
    have hgreatest := narrow_isGreatest dim.toNat (chunkBytes / t.size).log2
    rwa [two_pow_log2_chunk] at hgreatest
  · rintro ⟨e, he⟩
    by_contra hnot
    rw [not_or] at hnot
    obtain ⟨x, hx, -⟩ := new_ok_of_pos t i hveclen hnot.1 hnot.2
    rw [hx] at he
    cases he
  case created =>
    intro x hx
    have hnot : ¬ (params.lists = 0 ∨ dim = 0) := by
      intro hzero
      obtain ⟨e, he⟩ := new_error_of_zero t i hzero
      rw [hx] at he
      cases he
    rw [not_or] at hnot
    obtain ⟨y, hy, hwidth⟩ := new_ok_of_pos t i hveclen hnot.1 hnot.2
    rw [hx] at hy
    cases hy
    exact hwidth

/-- Twelve columns of bytes are cut into chunks of four, since neither sixteen nor eight divides
them. -/
theorem widestVeclen_twelveColumns :
    (IndexParams.new 3).veclen = none ∧
    IsGreatest {width | width.isPowerOfTwo ∧ width ≤ 16 ∧ width ∣ 12} 4 ∧
    (∃ spec, ListSpec.ofWidths 12 4 .steady = .ok spec ∧ spec.dim = 12 ∧ spec.veclen = 4) ∧
    ¬ ∃ e, LoadedIndex.new .u8 .i32 (.new 3) 12 = .error e := by
  obtain ⟨hgreatest, -, -, hspec, hfails, -⟩ :=
    widestVeclen_isGreatest .u8 .i32 12 (rfl : (IndexParams.new 3).veclen = none)
  exact ⟨rfl, hgreatest, hspec (by decide) .steady, fun h => absurd (hfails.mp h) (by decide)⟩

end InvertedFile
