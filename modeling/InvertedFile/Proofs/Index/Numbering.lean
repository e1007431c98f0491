import Mathlib.Data.List.Perm.Basic
import InvertedFile.Proofs.Index.Batching

/-!
# Ids that number the records

A row that comes without an id goes by its number, which is the number of
records the index held before it, over all lists together. Where no row comes
with an id, the ids of the lists are a way to deal out the numbers from zero
on: each number goes to one list, and what a list is dealt comes in the order
of the rows.

That a row has a number which is an id, and a label which is that of a list,
has been looked at before it was added. So nothing that was added is missing
in the lists, and no number is skipped.

## Main results

* `perm_dealtIds`, `sublist_dealtIds` — numbers are dealt out without gaps or
  repeats, and in their order.
* `Holds.add`, `Holds.alike` — an index that holds rows goes on to hold them.
* `Holds.numbered` — the ids of an index that holds rows without ids.
-/

namespace InvertedFile

variable {t : ElementType} {i : IdType}

/-- A number that is an id stands for itself. -/
theorem Id.value_of_ofNat? {n : Nat} {id : Id i} (h : Id.ofNat? i n = some id) : id.value = n := by
  obtain ⟨hlt, rfl⟩ := Id.ofNat?_eq_some_iff.mp h
  cases i <;>
    simp only [IdType.limit, UInt32.size, UInt64.size] at hlt <;>
    simp [Word.value, ElementType.isSigned, IdType.element, ElementType.size,
      BitVec.toInt_eq_toNat_cond, BitVec.toNat_ofNat] <;>
    omega

/-! ## Rows that are dealt out -/

/-- A row has the label of one of so many lists, and the `n`th number is an id if none was given. -/
structure Row.Placed (lists n : Nat) (r : Row t i) : Prop where
  label : ∃ label, r.label = some label ∧ label.toNat < lists
  id : r.id = none → (Id.ofNat? i n).isSome

/-- The ids that the list of a label is dealt. -/
def dealtIds (base : Nat) (rows : List (Row t i)) (label : Nat) : List Int :=
  (dealt base rows label).map fun record => record.1.value

/-- The id of a row that comes without one, for the list of its label. -/
theorem Row.record?_default {label n : Nat} {r : Row t i} (hdefault : r.id = none) :
    (r.record? label n).map (fun record => record.1.value) =
      if r.label.map UInt32.toNat = some label then
        (Id.ofNat? i n).map fun _ => (n : Int)
      else none := by
  rw [record?, hdefault, Option.none_or]
  split
  · cases hid : Id.ofNat? i n with
    | none => rfl
    | some id =>
        rw [Option.map_some, Option.map_some, Option.map_some, Id.value_of_ofNat? hid]
  · rfl

theorem dealtIds_cons (base : Nat) (r : Row t i) (rest : List (Row t i)) (label : Nat) :
    dealtIds base (r :: rest) label =
      ((r.record? label base).map fun record => record.1.value).toList ++
        dealtIds (base + 1) rest label := by
  rw [dealtIds, dealt_cons, List.map_append]
  cases r.record? label base <;> rfl

/-- Of all labels one is dealt the row. -/
private theorem flatMap_range_ite {n label : Nat} (hlabel : label < n) (a : Int) :
    ((List.range n).flatMap fun other => (if label = other then some a else none).toList) = [a] := by
  induction n with
  | zero => exact absurd hlabel (Nat.not_lt_zero label)
  | succ n ih =>
      rw [List.range_succ, List.flatMap_append, List.flatMap_singleton]
      by_cases heq : label = n
      · have hnone : ((List.range n).flatMap fun other =>
            (if label = other then some a else none).toList) = [] := by
          rw [List.flatMap_eq_nil_iff]
          intro other hother
          rw [if_neg (by have := List.mem_range.mp hother; omega)]
          rfl
        rw [hnone, if_pos heq]
        rfl
      · rw [ih (by omega), if_neg heq]
        rfl

/-- The numbers of rows that come without ids are dealt out without gaps and without repeats. -/
theorem perm_dealtIds {lists : Nat} (base : Nat) {rows : List (Row t i)}
    (hplaced : ∀ (k : Nat) (r : Row t i), rows[k]? = some r → r.Placed lists (base + k))
    (hdefault : ∀ r ∈ rows, r.id = none) :
    ((List.range lists).flatMap (dealtIds base rows)).Perm
      ((List.range' base rows.length).map fun k : Nat => (k : Int)) := by
  induction rows generalizing base with
  | nil =>
      have hnone : (List.range lists).flatMap (dealtIds base ([] : List (Row t i))) = [] :=
        List.flatMap_eq_nil_iff.mpr fun _ _ => rfl
      rw [hnone]
      exact List.Perm.nil
  | cons r rest ih =>
      obtain ⟨⟨label, hlabel, hlt⟩, hid⟩ := hplaced 0 r rfl
      have hnone := hdefault r (List.mem_cons_self ..)
      obtain ⟨id, hid⟩ := Option.isSome_iff_exists.mp (hid hnone)
      rw [Nat.add_zero] at hid
      have hfirst : ((List.range lists).flatMap fun other =>
          ((r.record? other base).map fun record => record.1.value).toList) = [(base : Int)] := by
        rw [← flatMap_range_ite hlt (base : Int)]
        apply List.flatMap_congr
        intro other _
        rw [Row.record?_default hnone, hid, Option.map_some]
        simp only [hlabel, Option.map_some, Option.some.injEq]
      have hrest := ih (base + 1)
        (fun k r' hr' => by
          rw [Nat.add_right_comm]
          exact hplaced (k + 1) r' hr')
        fun r' hr' => hdefault r' (List.mem_cons_of_mem r hr')
      have hsplit : (List.range lists).flatMap (dealtIds base (r :: rest)) =
          (List.range lists).flatMap fun other =>
            ((r.record? other base).map fun record => record.1.value).toList ++
              dealtIds (base + 1) rest other :=
        List.flatMap_congr fun other _ => dealtIds_cons base r rest other
      rw [hsplit, List.length_cons, List.range'_succ, List.map_cons]
      refine (List.flatMap_append_perm _ _ _).symm.trans ?_
      rw [hfirst]
      exact hrest.cons _

/-- The numbers of rows that come without ids are dealt to each list in their order. -/
theorem sublist_dealtIds (base : Nat) {rows : List (Row t i)}
    (hdefault : ∀ r ∈ rows, r.id = none) (label : Nat) :
    (dealtIds base rows label).Sublist
      ((List.range' base rows.length).map fun k : Nat => (k : Int)) := by
  induction rows generalizing base with
  | nil => exact List.Sublist.slnil
  | cons r rest ih =>
      have hrest := ih (base + 1) fun r' hr' => hdefault r' (List.mem_cons_of_mem r hr')
      rw [dealtIds_cons, Row.record?_default (hdefault r (List.mem_cons_self ..)), List.length_cons,
        List.range'_succ, List.map_cons]
      split
      · cases Id.ofNat? i base with
        | none => exact hrest.cons _
        | some id => exact hrest.cons_cons _
      · exact hrest.cons _

/-- What a list is dealt are rows with its label, under the ids they came with or under their
numbers. -/
theorem mem_dealt {base label : Nat} {rows : List (Row t i)} {record : Id i × List (Word t)}
    (h : record ∈ dealt base rows label) : ∃ (k : Nat) (r : Row t i), rows[k]? = some r ∧
      r.label.map UInt32.toNat = some label ∧ record.2 = r.columns ∧
      r.id.or (Id.ofNat? i (base + k)) = some record.1 := by
  obtain ⟨⟨r, n⟩, hmem, hrecord⟩ := List.mem_filterMap.mp h
  obtain ⟨hle, hget⟩ := List.mem_zipIdx_iff_le_and_getElem?_sub.mp hmem
  have hlabel : r.label.map UInt32.toNat = some label := by
    by_contra hne
    rw [Row.record?, if_neg hne] at hrecord
    cases hrecord
  rw [Row.record?, if_pos hlabel] at hrecord
  obtain ⟨id, hid, rfl⟩ := Option.map_eq_some_iff.mp hrecord
  refine ⟨n - base, r, hget, hlabel, rfl, ?_⟩
  rw [Nat.add_sub_cancel' hle]
  exact hid

namespace OpenIndex

/-- An index holds rows: it counts them, and they have been dealt out to its lists. -/
structure Holds (y : OpenIndex t i) (rows : List (Row t i)) : Prop where
  size_eq : y.index.size y.store = rows.length
  records_eq : ∀ label < y.index.lists, y.records label = dealt 0 rows label
  placed : ∀ (k : Nat) (r : Row t i), rows[k]? = some r → r.Placed y.index.lists k

variable {y z : OpenIndex t i} {refs refs' : List ListId} {rows : List (Row t i)}

/-- An index of empty lists holds nothing. -/
theorem holds_nil (hy : y.Sound refs) (hempty : y.Vacant) : y.Holds [] where
  size_eq := by
    have hzero : ∀ size ∈ y.index.sizes y.store, size = 0 := by
      intro size hsize
      obtain ⟨label, hlabel⟩ := List.getElem?_of_mem hsize
      have hlt : label < y.index.lists := by
        rw [← hy.index.size_slots, ← Index.length_sizes y.index y.store]
        exact (List.getElem?_eq_some_iff.mp hlabel).1
      obtain ⟨id, hid, hl⟩ := Option.bind_eq_some_iff.mp (hempty label hlt)
      rw [Index.getElem?_sizes hid hl, Option.some.injEq] at hlabel
      exact hlabel.symm
    exact List.sum_eq_zero hzero
  records_eq := by
    intro label hlt
    rw [records, hempty label hlt]
    rfl
  placed := by
    intro k r hr
    cases hr

/-- The rows of a batch that is accepted have labels of lists, and numbers that are ids. -/
theorem placed_of_accepted {dim : Nat} (hdim : 0 < dim) {sizes : List Nat} {lists : Nat}
    {b : Batch t i} {ids : Array (Id i)} {labels : Array Nat}
    (h : Index.Accepted dim sizes lists b.assigner b.vectors b.ids ids labels) {k : Nat}
    {r : Row t i} (hr : (b.rows dim)[k]? = some r) : r.Placed lists (sizes.sum + k) := by
  rw [h.whole.rows_eq hdim, List.getElem?_map] at hr
  obtain ⟨row, hrow, rfl⟩ := Option.map_eq_some_iff.mp hr
  obtain ⟨hlt, hrow⟩ := List.getElem?_eq_some_iff.mp hrow
  rw [List.getElem_range] at hrow
  subst hrow
  rw [List.length_range] at hlt
  have hsome : labels.size ≠ 0 := by omega
  obtain ⟨assigned, hassigned, hlabels⟩ := h.labels_eq hsome
  have hassigned' : k < assigned.size := by
    rwa [hlabels, Array.size_map] at hlt
  constructor
  · refine ⟨assigned[k], ?_, ?_⟩
    · rw [Batch.row, Batch.labels, hassigned]
      exact Array.getElem?_eq_getElem hassigned'
    · apply h.label_lt
      rw [hlabels]
      exact Array.mem_map.mpr ⟨_, Array.getElem_mem hassigned', rfl⟩
  · intro hnone
    have hid := (h.ids_eq hsome).getElem? hlt
    have hnone' : b.ids.bind (·[k]?) = none := hnone
    rw [hnone', Option.none_or, Array.getElem?_eq_getElem (h.size_ids ▸ hlt)] at hid
    rw [← hid]
    rfl

/-- An index that takes a batch holds its rows behind the others. -/
theorem Holds.add (h : y.Holds rows) (hy : y.Sound refs) {b : Batch t i}
    (hadd : b.add y = .ok () z) : z.Holds (rows ++ b.rows y.index.dim) := by
  have hdim : 0 < y.index.dim := y.index.spec.layout.dim_pos
  obtain ⟨-, -, hgrown⟩ := grown_add hy hadd
  have hlists : z.index.lists = y.index.lists := by
    rw [Index.lists, Index.lists, hgrown.params_eq]
  refine ⟨?_, ?_, ?_⟩
  · rw [hgrown.size_eq, h.size_eq, List.length_append]
  · intro label hlt
    rw [hlists] at hlt
    rw [hgrown.records_eq label hlt, h.records_eq label hlt, h.size_eq, dealt_append,
      Nat.zero_add]
  · intro k r hr
    rw [hlists]
    by_cases hold : k < rows.length
    · rw [List.getElem?_append_left hold] at hr
      exact h.placed k r hr
    · rw [List.getElem?_append_right (by omega)] at hr
      rcases Index.extend_cases hy.index hy.accounts b.assigner b.vectors b.ids with
        ⟨e, s', hrun, -⟩ | ⟨ids, labels, x', s', hrun, haccepted, -⟩
      · have hadd' := hadd.symm.trans hrun
        cases hadd'
      · have hplaced := placed_of_accepted hdim haccepted hr
        have hsum : (y.index.sizes y.store).sum = rows.length := h.size_eq
        rwa [hsum, Nat.add_sub_cancel' (by omega), hy.index.size_slots] at hplaced

/-- An index holds what one that looks like it holds. -/
theorem Holds.alike (h : y.Holds rows) (halike : y.Alike z) (hy : y.Sound refs)
    (hz : z.Sound refs') : z.Holds rows where
  size_eq := by
    rw [Index.size, halike.sizes_eq hy hz]
    exact h.size_eq
  records_eq := by
    intro label hlt
    rw [halike.lists_eq] at hlt
    obtain ⟨id, l, id', l', hid, hl, hid', hl', hlist⟩ := halike.list label hlt
    rw [OpenIndex.records_eq hid' hl', hlist.published_eq, ← OpenIndex.records_eq hid hl,
      h.records_eq label hlt]
  placed := by
    rw [halike.lists_eq]
    exact h.placed

/-- The ids of the published records of the list of a label. -/
def ids (y : OpenIndex t i) (label : Nat) : List Int :=
  (y.records label).map fun record => record.1.value

/-- The ids of an index that holds rows without ids number the rows. -/
theorem Holds.numbered (h : y.Holds rows) (hdefault : ∀ r ∈ rows, r.id = none) :
    ((List.range y.index.lists).flatMap y.ids).Perm
        ((List.range (y.index.size y.store)).map fun k : Nat => (k : Int)) ∧
      ∀ label < y.index.lists, (y.ids label).Pairwise (· < ·) ∧
        ∀ record ∈ y.records label, record.1 ≠ Id.invalid i ∧ ∃ (k : Nat) (r : Row t i),
          rows[k]? = some r ∧ record.1.value = k ∧ record.2 = r.columns ∧
            r.label.map UInt32.toNat = some label := by
  have hids : ∀ label < y.index.lists, y.ids label = dealtIds 0 rows label := by
    intro label hlt
    rw [ids, h.records_eq label hlt, dealtIds]
  refine ⟨?_, fun label hlt => ⟨?_, ?_⟩⟩
  · have hall : (List.range y.index.lists).flatMap y.ids =
        (List.range y.index.lists).flatMap (dealtIds 0 rows) :=
      List.flatMap_congr fun label hlabel => hids label (List.mem_range.mp hlabel)
    have hnumbers : List.range rows.length = List.range' 0 rows.length := List.range_eq_range'
    rw [hall, h.size_eq, hnumbers]
    refine perm_dealtIds 0 (fun k r hr => ?_) hdefault
    rw [Nat.zero_add]
    exact h.placed k r hr
  · rw [hids label hlt]
    refine List.Pairwise.sublist (sublist_dealtIds 0 hdefault label) ?_
    rw [List.pairwise_map]
    exact (List.pairwise_lt_range').imp fun hlt => Int.ofNat_lt.mpr hlt
  · intro record hrecord
    rw [h.records_eq label hlt] at hrecord
    obtain ⟨k, r, hr, hlabel, hcolumns, hid⟩ := mem_dealt hrecord
    rw [hdefault r (List.mem_of_getElem? hr), Option.none_or, Nat.zero_add] at hid
    refine ⟨?_, k, r, hr, Id.value_of_ofNat? hid, hcolumns, hlabel⟩
    intro hinvalid
    rw [hinvalid] at hid
    exact Id.ofNat?_ne_invalid i k hid

end OpenIndex

end InvertedFile
