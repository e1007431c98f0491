import InvertedFile.Proofs.Workspace.Chronicle

/-!
# The id that stands for none

One id of every type is set aside. The slots of a list are filled with it
before they are used, and no record should go by it. A row that comes without
an id never does: it goes by its number, and a number that would be this id is
refused like one that is too large.

An id that comes with a row is not looked at. A row that was given the id that
stands for none is published under it like any other, and goes through files
under it. So this id says nothing about a record, unless it is known that no row
was given it.

## Main results

* `filter_dealt` — the rows that are dealt under the id that stands for none.
* `Holds.filter_records`, `Holds.exists_invalid_iff` — the records that an index
  holds under it.
* `sentinel_published_iff` — the records of an index that go by this id, and when
  there are any.
-/

namespace InvertedFile

variable {t : ElementType} {i : IdType}

/-- A row goes by the id that stands for none if it was given it. -/
theorem Row.filter_record? (label n : Nat) (r : Row t i) :
    (r.record? label n).toList.filter (fun record => record.1 = Id.invalid i) =
      if r.label.map UInt32.toNat = some label ∧ r.id = some (Id.invalid i) then
        [(Id.invalid i, r.columns)]
      else [] := by
  unfold record?
  by_cases hlabel : r.label.map UInt32.toNat = some label
  · rw [if_pos hlabel]
    cases hgiven : r.id with
    | none =>
        -- the number of a row never is this id
        rw [Option.none_or, if_neg (by simp)]
        cases hid : Id.ofNat? i n with
        | none => rfl
        | some id =>
            have hne : id ≠ Id.invalid i := fun h => Id.ofNat?_ne_invalid i n (h ▸ hid)
            simp [hne]
    | some id =>
        by_cases hid : id = Id.invalid i
        · simp [hid, hlabel]
        · simp [hid]
  · rw [if_neg hlabel, if_neg fun h => hlabel h.1]
    rfl

/-- The rows that a list is dealt under the id that stands for none are those of its label that were
given this id. -/
theorem filter_dealt (base : Nat) (rows : List (Row t i)) (label : Nat) :
    (dealt base rows label).filter (fun record => record.1 = Id.invalid i) =
      (rows.filter fun r => r.label.map UInt32.toNat = some label ∧
        r.id = some (Id.invalid i)).map fun r => (Id.invalid i, r.columns) := by
  induction rows generalizing base with
  | nil => rfl
  | cons r rest ih =>
      rw [dealt_cons, List.filter_append, Row.filter_record?, ih (base + 1), List.filter_cons]
      by_cases hrow : r.label.map UInt32.toNat = some label ∧ r.id = some (Id.invalid i)
      · rw [if_pos hrow, if_pos (decide_eq_true hrow)]
        rfl
      · rw [if_neg hrow, if_neg (by simpa using hrow)]
        rfl

namespace OpenIndex

variable {y : OpenIndex t i} {rows : List (Row t i)}

/-- The records under the id that stands for none, in a list of an index that holds rows. -/
theorem Holds.filter_records (h : y.Holds rows) {label : Nat} (hlt : label < y.index.lists) :
    (y.records label).filter (fun record => record.1 = Id.invalid i) =
      (rows.filter fun r => r.label.map UInt32.toNat = some label ∧
        r.id = some (Id.invalid i)).map fun r => (Id.invalid i, r.columns) := by
  rw [h.records_eq label hlt, filter_dealt]

/-- An index holds records under this id if one of its rows was given it. All rows have been placed
in a list, so that none is missing. -/
theorem Holds.exists_invalid_iff (h : y.Holds rows) :
    (∃ label < y.index.lists, ∃ record ∈ y.records label, record.1 = Id.invalid i) ↔
      ∃ r ∈ rows, r.id = some (Id.invalid i) := by
  constructor
  · rintro ⟨label, hlt, record, hrecord, hinvalid⟩
    have hmem : record ∈ (y.records label).filter (fun record => record.1 = Id.invalid i) :=
      List.mem_filter.mpr ⟨hrecord, decide_eq_true hinvalid⟩
    rw [h.filter_records hlt] at hmem
    obtain ⟨r, hr, -⟩ := List.mem_map.mp hmem
    obtain ⟨hr, hgiven⟩ := List.mem_filter.mp hr
    exact ⟨r, hr, (of_decide_eq_true hgiven).2⟩
  · rintro ⟨r, hr, hgiven⟩
    obtain ⟨k, hk⟩ := List.getElem?_of_mem hr
    obtain ⟨label, hlabel, hlt⟩ := (h.placed k r hk).label
    have hrow : r.label.map UInt32.toNat = some label.toNat := by
      rw [hlabel]
      rfl
    have hmem : (Id.invalid i, r.columns) ∈
        (y.records label.toNat).filter (fun record => record.1 = Id.invalid i) := by
      rw [h.filter_records hlt]
      exact List.mem_map.mpr ⟨r, List.mem_filter.mpr ⟨hr, decide_eq_true ⟨hrow, hgiven⟩⟩, rfl⟩
    exact ⟨label.toNat, hlt, _, (List.mem_filter.mp hmem).1, rfl⟩

end OpenIndex

namespace Workspace

open InvertedFile.Action

variable {params : IndexParams} {dim : UInt32} {w : Workspace t i} {name : String}

/-- **The id that stands for none is published where it was given, and nowhere else.** The records
that go by it in a list of an index are the rows of the label of the list that were given it, in
their order. So there are such records in an index exactly if one of its rows was given this id. -/
theorem sentinel_published_iff {rows : List (Row t i)}
    (h : Chronicle params dim w name (some rows)) :
    ∃ x, w.indexes.find? name = some x ∧
      (∀ label < x.lists, ∃ id l, x.slots[label]? = some id ∧ w.store.list? id = some l ∧
        l.published.filter (fun record => record.1 = Id.invalid i) =
          (rows.filter fun r => r.label.map UInt32.toNat = some label ∧
            r.id = some (Id.invalid i)).map fun r => (Id.invalid i, r.columns)) ∧
      ((∃ (label : Nat) (id : ListId) (l : InvertedList t i), x.slots[label]? = some id ∧
          w.store.list? id = some l ∧ ∃ record ∈ l.published, record.1 = Id.invalid i) ↔
        ∃ r ∈ rows, r.id = some (Id.invalid i)) := by
  obtain ⟨x, hx⟩ := h.follows
  have hholds := hx.holds rows rfl
  obtain ⟨refs, hsound⟩ := hx.sound
  have hrecords : ∀ {label : Nat} {id : ListId} {l : InvertedList t i},
      x.slots[label]? = some id → w.store.list? id = some l →
      OpenIndex.records { index := x, store := w.store } label = l.published :=
    fun hid hl => OpenIndex.records_eq hid hl
  refine ⟨x, hx.find?_eq, fun label hlt => ?_, ?_⟩
  · obtain ⟨id, l, hid, hl, -⟩ := hsound.index.listed hlt
    exact ⟨id, l, hid, hl, hrecords hid hl ▸ hholds.filter_records hlt⟩
  rw [← hholds.exists_invalid_iff]
  constructor
  · rintro ⟨label, id, l, hid, hl, hinvalid⟩
    have hlt : label < x.lists :=
      hsound.index.lt_size.mp (Array.getElem?_eq_some_iff.mp hid).1
    exact ⟨label, hlt, (hrecords hid hl).symm ▸ hinvalid⟩
  · rintro ⟨label, hlt, hinvalid⟩
    obtain ⟨id, l, hid, hl, -⟩ := hsound.index.listed hlt
    exact ⟨label, id, l, hid, hl, hrecords hid hl ▸ hinvalid⟩

/-- A row for the list of the label 1 that is given the id that stands for none. -/
def unnamedRow : Batch .u8 .i32 where
  assigner := Assigner.precomputed #[1]
  vectors := #[5]
  ids := some #[Id.invalid .i32]

/-- The index that has taken three rows has taken it, too. -/
def takenUnnamed : Workspace .u8 .i32 :=
  final (performStep (adding "x" unnamedRow)) takenThree

theorem chronicle_takenUnnamed : Chronicle (.new 2) 1 takenUnnamed "x"
    (some ((forLabels #[1, 0, 1] #[7, 8, 9]).rows 1 ++ unnamedRow.rows 1)) := by
  have hfour : (failure? (performStep (adding "x" unnamedRow)) takenThree).isNone := by
    decide +kernel
  obtain ⟨_, hfour⟩ := exists_ok_of_failure? (Option.isNone_iff_eq_none.mp hfour)
  exact chronicle_takenThree.extended _ hfour

/-- Of its two lists the second one has one record under this id. -/
theorem sentinel_published_takenUnnamed : ∃ x, takenUnnamed.indexes.find? "x" = some x ∧
    (∃ id l, x.slots[0]? = some id ∧ takenUnnamed.store.list? id = some l ∧
      l.published.filter (fun record => record.1 = Id.invalid .i32) = []) ∧
    ∃ id l, x.slots[1]? = some id ∧ takenUnnamed.store.list? id = some l ∧
      l.published.filter (fun record => record.1 = Id.invalid .i32) =
        [(Id.invalid .i32, [5])] := by
  obtain ⟨x, hname, hlists, -⟩ := sentinel_published_iff chronicle_takenUnnamed
  obtain ⟨x', hx'⟩ := chronicle_takenUnnamed.follows
  obtain rfl := Option.some.inj (hname.symm.trans hx'.find?_eq)
  have hcount : x.lists = 2 := by
    rw [Index.lists, hx'.params_eq]
    rfl
  obtain ⟨id₀, l₀, hid₀, hl₀, hfirst⟩ := hlists 0 (hcount.symm ▸ by decide)
  obtain ⟨id₁, l₁, hid₁, hl₁, hsecond⟩ := hlists 1 (hcount.symm ▸ by decide)
  exact ⟨x, hname, ⟨id₀, l₀, hid₀, hl₀, hfirst.trans (by decide +kernel)⟩,
    id₁, l₁, hid₁, hl₁, hsecond.trans (by decide +kernel)⟩

/-- An index that has only been made and extended publishes a record under the id that stands for
none. -/
theorem sentinel_is_published : ∃ rows x id l,
    Chronicle (.new 2) 1 takenUnnamed "x" (some rows) ∧
    takenUnnamed.indexes.find? "x" = some x ∧ x.slots[1]? = some id ∧
    takenUnnamed.store.list? id = some l ∧
    ∃ record ∈ l.published, record.1 = Id.invalid .i32 := by
  have hlast : ((takenUnnamed.indexes.find? "x").bind fun x => x.slots[1]?.bind fun id =>
      (takenUnnamed.store.list? id).map InvertedList.published) =
        some [(0, [7]), (2, [9]), (Id.invalid .i32, [5])] := by
    decide +kernel
  obtain ⟨x, hname, hslot⟩ := Option.bind_eq_some_iff.mp hlast
  obtain ⟨id, hid, hlist⟩ := Option.bind_eq_some_iff.mp hslot
  obtain ⟨l, hl, hpublished⟩ := Option.map_eq_some_iff.mp hlist
  refine ⟨_, x, id, l, chronicle_takenUnnamed, hname, hid, hl, (Id.invalid .i32, [5]), ?_, rfl⟩
  rw [hpublished]
  decide

end Workspace

end InvertedFile
