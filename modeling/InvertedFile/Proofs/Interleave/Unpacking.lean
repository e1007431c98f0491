import InvertedFile.Proofs.Interleave.Packing

/-!
# Packing and unpacking undo each other

A batch is packed group by group and unpacked record by record, so neither is
the other one run backwards. What ties them together is where the columns of
the records stand. `Packed` and `Unpacked` speak of the same positions, which
the one writes and the other reads. So a batch that was packed is what is
unpacked there, whatever stood in the buffer before, and a batch that was
unpacked is packed back into the buffer it is already in.

An unpacked record depends on its own columns alone. It comes out the same by
itself and in every batch of which it is a part, wherever the batch starts.

## Main results

* `unpack_cases`, `unpack_fails_iff` — how unpacking a batch ends.
* `Unpacked.eq_packed`, `Packed.eq_unpacked` — the two directions.
* `Unpacked.record`, `Unpacked.slice` — records and smaller batches are parts of
  what is unpacked.
* `unpack_pack`, `pack_unpacked`, `unpack_part` — what this makes of the two runs.
* `unpacking_inverts_packing` — all of this for the buffers of a layout.
-/

namespace InvertedFile.Interleave

variable {t : ElementType} {α : Type} {dim veclen start n : Nat}

/-! ## Flat batches -/

/-- The records of a batch from record `first` on, as many as there are up to record `last`. -/
theorem getElem?_extract_rows {a : Array α} {first last k : Nat}
    (hsize : last * dim ≤ a.size) (hk : first * dim + k < last * dim) :
    (a.extract (first * dim) (last * dim))[k]? = a[first * dim + k]? := by
  rw [Array.getElem?_extract, if_pos (by omega)]

theorem size_extract_rows {a : Array α} {first count : Nat}
    (hsize : (first + count) * dim ≤ a.size) :
    (a.extract (first * dim) ((first + count) * dim)).size = count * dim := by
  rw [Array.size_extract, Nat.min_eq_left hsize, Nat.add_mul, Nat.add_sub_cancel_left]

/-! ## Unpacked batches -/

namespace Unpacked

variable {data before after : Array α}

/-- A column of an unpacked record. -/
theorem row (h : Unpacked dim veclen start n data before after) {r d : Nat} (hr : r < n)
    (hd : d < dim) : after[r * dim + d]? = data[position dim veclen (start + r) d]? := by
  rw [h.cell r d hd, if_pos hr]

/-- What was packed is unpacked. -/
theorem eq_packed (hdim : 0 < dim) {codes old : Array α}
    (hpacked : Packed dim veclen start n codes old data) (hcodes : codes.size = n * dim)
    (h : Unpacked dim veclen start n data before after) (hbefore : before.size = n * dim) :
    after = codes := by
  refine eq_of_rows hdim (h.size_eq.trans hbefore) hcodes fun r hr d hd => ?_
  rw [h.row hr hd, hpacked.cell _ d hd, if_pos (by omega), Nat.add_sub_cancel_left]

/-- A record of an unpacked batch comes out the same when it is unpacked by itself. -/
theorem record (hpos : 0 < veclen) (hdvd : veclen ∣ dim)
    (h : Unpacked dim veclen start n data before after) (hbefore : before.size = n * dim)
    {k : Nat} (hk : k < n) (hcovers : Covers dim (start + k) data) {flat : Array α}
    (hflat : flat.size = dim) :
    unpackRecord dim veclen (start + k) data flat =
      .ok () (after.extract (k * dim) ((k + 1) * dim)) := by
  obtain ⟨flat', hok, hsize, hcell⟩ :=
    unpackRecord_ok hpos hdvd (Nat.le_of_eq hflat.symm) hcovers
  have hlast : (k + 1) * dim ≤ after.size := by
    rw [h.size_eq, hbefore]
    exact Nat.mul_le_mul_right dim hk
  have hnext : (k + 1) * dim = k * dim + dim := Nat.succ_mul k dim
  have heq : flat' = after.extract (k * dim) ((k + 1) * dim) := by
    apply Array.ext_getElem?
    intro d
    by_cases hd : d < dim
    · rw [hcell d, if_pos hd, getElem?_extract_rows hlast (by omega), h.row hk hd]
    · have hwidth : (after.extract (k * dim) ((k + 1) * dim)).size = dim := by
        rw [size_extract_rows hlast, Nat.one_mul]
      rw [Array.getElem?_eq_none (by omega), Array.getElem?_eq_none (by omega)]
  rw [hok, heq]

/-- A batch that lies in a larger one is a part of what is unpacked for that one. -/
theorem slice (hdim : 0 < dim) (h : Unpacked dim veclen start n data before after)
    (hbefore : before.size = n * dim) {first count : Nat} {out part : Array α}
    (hpart : Unpacked dim veclen first count data out part) (hout : out.size = count * dim)
    (hle : start ≤ first) (hlast : first + count ≤ start + n) :
    part = after.extract ((first - start) * dim) ((first - start + count) * dim) := by
  have hsize : (first - start + count) * dim ≤ after.size := by
    rw [h.size_eq, hbefore]
    exact Nat.mul_le_mul_right dim (by omega)
  refine eq_of_rows hdim (hpart.size_eq.trans hout) (size_extract_rows hsize) fun r hr d hd => ?_
  have hrecord : first - start + r < n := by omega
  have hin : (first - start) * dim + (r * dim + d) < (first - start + count) * dim := by
    calc (first - start) * dim + (r * dim + d) < (first - start + r) * dim + dim := by
          rw [Nat.add_mul]
          omega
      _ = (first - start + r + 1) * dim := (Nat.succ_mul _ dim).symm
      _ ≤ (first - start + count) * dim := Nat.mul_le_mul_right dim (by omega)
  rw [hpart.row hr hd, getElem?_extract_rows hsize hin, ← Nat.add_assoc, ← Nat.add_mul,
    h.row hrecord hd, ← Nat.add_assoc, Nat.add_sub_cancel' hle]

end Unpacked

/-- What was unpacked is packed back into the buffer it came from. -/
theorem Packed.eq_unpacked (hpos : 0 < veclen) (hdvd : veclen ∣ dim) (hdim : 0 < dim)
    {data out codes after : Array α} (hunpacked : Unpacked dim veclen start n data out codes)
    (h : Packed dim veclen start n codes data after) : after = data := by
  refine eq_of_cells hpos hdvd hdim fun q d hd => ?_
  rw [h.cell q d hd]
  split
  · next hq => rw [hunpacked.row (by omega) hd, Nat.add_sub_cancel' hq.1]
  · rfl

/-! ## How unpacking ends -/

/-- The length of the batch may be looked up before the buffer is checked. -/
theorem unpack_eq (e : Extents) (start : Nat) (data out : Array (Word t)) :
    unpack e start data out =
      (do
        Action.ofExcept (checkBuffer e data.size)
        let n ← Action.ofExcept (batchRecords out.size e.dim)
        Action.ofExcept (checkRange .unpacking start n e.rows)
        (List.range n).forM (unpackSlot e.dim e.veclen start data) :
        Action (Array (Word t)) Unit) out := by
  refine Action.bind_congr fun _ out' hchecked => ?_
  obtain ⟨-, rfl⟩ := Action.ofExcept_eq_ok.mp hchecked
  rfl

/-- A batch that fits is unpacked. One that does not is refused and stays as it was. -/
theorem unpack_cases {e : Extents} (hpos : 0 < e.veclen) (hdim : 0 < e.dim) (start : Nat)
    (data out : Array (Word t)) :
    (Fits e start out data ∧ ∃ out', unpack e start data out = .ok () out' ∧
      Unpacked e.dim e.veclen start (out.size / e.dim) data out out') ∨
    (¬ Fits e start out data ∧ ∃ err, unpack e start data out = .error err out) := by
  rw [unpack_eq]
  rcases checks_cases hdim .unpacking start out data
    (fun n => (List.range n).forM (unpackSlot e.dim e.veclen start data)) out with
    ⟨hfits, hmove⟩ | hrefused
  · obtain ⟨out', hok, hunpacked⟩ := unpackSlots_ok hpos (Nat.dvd_mul_left e.veclen e.chunks)
      (Nat.div_mul_le_self out.size e.dim) fun k hk => covers_of_extents hfits.buffer
        (Nat.lt_of_lt_of_le (Nat.add_lt_add_left hk start) hfits.room)
    exact Or.inl ⟨hfits, out', hmove.trans hok, hunpacked⟩
  · exact Or.inr hrefused

/-- Unpacking fails exactly where the batch does not fit, and then it leaves the batch as it was. -/
theorem unpack_fails_iff {e : Extents} (hpos : 0 < e.veclen) (hdim : 0 < e.dim) (start : Nat)
    (data out : Array (Word t)) :
    ((∃ err after, unpack e start data out = .error err after) ↔ ¬ Fits e start out data) ∧
      ∀ err after, unpack e start data out = .error err after → after = out := by
  rcases unpack_cases hpos hdim start data out with
    ⟨hfits, out', hok, -⟩ | ⟨hnot, err, herror⟩
  · simp [hok, hfits]
  · refine ⟨iff_of_true ⟨err, out, herror⟩ hnot, ?_⟩
    intro err' after herror'
    rw [herror] at herror'
    cases herror'
    rfl

/-! ## Both ways -/

section BothWays

variable {e : Extents} {data : Array (Word t)} (hpos : 0 < e.veclen) (hdim : 0 < e.dim)
  (hsize : data.size = e.length) (hroom : start + n ≤ e.rows)

include hpos hdim hsize hroom

/-- A batch that was packed is unpacked. -/
theorem unpack_pack {codes out : Array (Word t)} (hcodes : codes.size = n * e.dim)
    (hout : out.size = n * e.dim) :
    ∃ data', pack e start codes data = .ok () data' ∧
      unpack e start data' out = .ok () codes := by
  obtain ⟨data', hpack, hpacked⟩ := pack_ok hpos hdim hsize hcodes hroom
  obtain ⟨out', hunpack, hunpacked⟩ :=
    unpack_ok hpos hdim (hpacked.size_eq.trans hsize) hout hroom
  obtain rfl := hunpacked.eq_packed hdim hpacked hcodes hout
  exact ⟨data', hpack, hunpack⟩

/-- A batch that was unpacked is packed back into what it was unpacked from. -/
theorem pack_unpacked {codes out : Array (Word t)} (hout : out.size = n * e.dim)
    (hunpacked : Unpacked e.dim e.veclen start n data out codes) :
    pack e start codes data = .ok () data := by
  obtain ⟨data', hpack, hpacked⟩ :=
    pack_ok hpos hdim hsize (hunpacked.size_eq.trans hout) hroom
  rwa [hpacked.eq_unpacked hpos (Nat.dvd_mul_left e.veclen e.chunks) hdim hunpacked] at hpack

/-- Every smaller batch is unpacked as a part of a larger one. -/
theorem unpack_part {codes out part : Array (Word t)} (hout : out.size = n * e.dim)
    (hunpacked : Unpacked e.dim e.veclen start n data out codes) {first count : Nat}
    (hle : start ≤ first) (hlast : first + count ≤ start + n) (hpart : part.size = count * e.dim) :
    unpack e first data part =
      .ok () (codes.extract ((first - start) * e.dim) ((first - start + count) * e.dim)) := by
  obtain ⟨part', hrun, hslice⟩ := unpack_ok hpos hdim hsize hpart (Nat.le_trans hlast hroom)
  rw [hrun, hunpacked.slice hdim hout hslice hpart hle hlast]

end BothWays

/-- **Packing and unpacking undo each other.** In a buffer of the extents of a layout, a batch that
is packed is unpacked again from the same records, whatever the buffer held, and a batch that is
unpacked leaves the buffer as it is when it is packed back. What is unpacked holds side by side what
each of its records gives by itself, and every smaller batch is the part of it where its records
are. Unpacking fails for no other reason than that the buffer has another length, the batch is not
whole or the rows do not suffice, and what fails leaves the batch as it was. -/
theorem unpacking_inverts_packing (layout : Layout) (rows : Nat) (data : Array (Word t)) :
    let e := layout.extents rows
    (data.size = e.length →
      (∀ n start codes out, start + n ≤ e.rows → codes.size = n * layout.dim →
        out.size = n * layout.dim →
        ∃ data', pack e start codes data = .ok () data' ∧
          unpack e start data' out = .ok () codes) ∧
      (∀ n start out, start + n ≤ e.rows → out.size = n * layout.dim →
        ∃ codes, unpack e start data out = .ok () codes ∧ codes.size = n * layout.dim ∧
          pack e start codes data = .ok () data ∧
          (∀ k < n, ∀ flat, flat.size = layout.dim →
            unpackRecord layout.dim layout.veclen (start + k) data flat =
              .ok () (codes.extract (k * layout.dim) ((k + 1) * layout.dim))) ∧
          (∀ first count part, start ≤ first → first + count ≤ start + n →
            part.size = count * layout.dim →
            unpack e first data part =
              .ok () (codes.extract ((first - start) * layout.dim)
                ((first - start + count) * layout.dim))))) ∧
    (∀ start out,
      ((∃ err after, unpack e start data out = .error err after) ↔
        data.size ≠ e.length ∨ out.size % layout.dim ≠ 0 ∨
          e.rows < start + out.size / layout.dim) ∧
      (∀ err after, unpack e start data out = .error err after → after = out)) := by
  intro e
  have hpos : 0 < e.veclen := layout.veclen_pos
  have hwidth : e.dim = layout.dim := layout.dim_extents rows
  have hdim : 0 < e.dim := hwidth ▸ layout.dim_pos
  have hdvd : e.veclen ∣ e.dim := Nat.dvd_mul_left e.veclen e.chunks
  simp only [← hwidth]
  refine ⟨fun hsize => ⟨?back, ?forth⟩, fun start out => ?refusals⟩
  case back =>
    intro n start codes out hroom hcodes hout
    exact unpack_pack hpos hdim hsize hroom hcodes hout
  case forth =>
    intro n start out hroom hout
    obtain ⟨codes, hunpack, hunpacked⟩ := unpack_ok hpos hdim hsize hout hroom
    refine ⟨codes, hunpack, hunpacked.size_eq.trans hout,
      pack_unpacked hpos hdim hsize hroom hout hunpacked, ?_, ?_⟩
    · intro k hk flat hflat
      exact hunpacked.record hpos hdvd hout hk
        (covers_of_extents hsize (by omega : start + k < e.rows)) hflat
    · intro first count part hle hlast hpart
      exact unpack_part hpos hdim hsize hroom hout hunpacked hle hlast hpart
  case refusals =>
    rw [← not_fits_iff]
    exact unpack_fails_iff hpos hdim start data out

/-- Two groups of words that are told apart by their places. -/
def counted : Array (Word .u8) :=
  Array.ofFn (n := 384) fun place => BitVec.ofNat 8 place

/-- Two records on either side of the border between two groups. -/
theorem unpacking_inverts_packing_at_border :
    (∃ data',
      pack (pairs.extents 33) 31 twelve counted = .ok () data' ∧
      unpack (pairs.extents 33) 31 data' (Array.replicate 12 0) = .ok () twelve) ∧
    ∃ codes,
      unpack (pairs.extents 33) 31 counted (Array.replicate 12 0) = .ok () codes ∧
      pack (pairs.extents 33) 31 codes counted = .ok () counted ∧
      unpackRecord 6 2 32 counted (Array.replicate 6 0) = .ok () (codes.extract 6 12) ∧
      unpack (pairs.extents 33) 32 counted (Array.replicate 6 0) =
        .ok () (codes.extract 6 12) := by
  have hsize : counted.size = (pairs.extents 33).length := Array.size_ofFn
  obtain ⟨hback, hforth⟩ := (unpacking_inverts_packing pairs 33 counted).1 hsize
  refine ⟨hback 2 31 twelve (Array.replicate 12 0) (by decide) (by decide) Array.size_replicate,
    ?_⟩
  obtain ⟨codes, hunpack, -, hpack, hrecord, hslice⟩ :=
    hforth 2 31 (Array.replicate 12 0) (by decide) Array.size_replicate
  exact ⟨codes, hunpack, hpack,
    hrecord 1 (by decide) (Array.replicate 6 0) Array.size_replicate,
    hslice 32 1 (Array.replicate 6 0) (by decide) (by decide) Array.size_replicate⟩

end InvertedFile.Interleave
