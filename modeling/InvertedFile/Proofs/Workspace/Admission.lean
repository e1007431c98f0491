import InvertedFile.Proofs.Index.Admission
import InvertedFile.Proofs.Workspace.Extension

/-!
# What a limit admits

An index that was reached under a limit takes a batch exactly when there is
room under the limit for the lists that have to be made for it, next to
everything that is in use already. Lists with room for their rows do not
count, and the order of the labels does not either.

What was in use for the lists that are replaced is only free afterwards. So a
batch may be refused although it would fit in the end.

## Main results

* `extend_ok_iff_fits` — when a batch is taken, and what is in use then.
-/

namespace InvertedFile.Workspace

open InvertedFile.Action InvertedFile.InvertedList

variable {t : ElementType} {i : IdType}

/-- **A limit admits exactly what fits.** Take a batch whose arguments are accepted, for an index
that was reached under a limit. The lists that are outgrown need new ones for their new sizes. As
long as the host gives every buffer that is asked of it, the batch is taken exactly when there are
capacities for the new lists and their bytes, added to those in use, keep the limit. Under a limit
that is no greater than what the host gives to one buffer this holds without a condition; and a
batch is never taken against the host. When a batch has been taken these bytes are in use, without
those of the replaced lists that nobody else holds. So a batch for which every list has the room is
taken and costs nothing. -/
theorem extend_ok_iff_fits {limit : Nat} (hlimit : limit < byteLimit) {w : Workspace t i}
    (hw : Reached (some limit) w) {name : String} {x : Index}
    (hname : w.indexes.find? name = some x) {assigner : Assigner t} {vectors : Array (Word t)}
    {given : Option (Array (Id i))} {ids : Array (Id i)} {labels : Array Nat}
    (haccepted : Index.Accepted x.dim (x.sizes w.store) x.lists assigner vectors given ids
      labels) :
    let extended := Index.extend assigner vectors given { index := x, store := w.store }
    let outgrown := x.outgrown w.store labels
    let sizes := outgrown.map (·.size)
    let inUse := w.store.budget.inUse
    let fits := ∃ bytes, newBytes? t i x.spec sizes = some bytes ∧ inUse + bytes ≤ limit
    let hosted := ∀ size ∈ sizes, ∀ capacity, x.spec.growth.capacity? size = some capacity →
      HostGives t i x.spec capacity
    (hosted → ((∃ y, extended = .ok () y) ↔ fits)) ∧
    (limit ≤ hostLimit → ((∃ y, extended = .ok () y) ↔ fits)) ∧
    ((∃ y, extended = .ok () y) → hosted) ∧
    (∀ y bytes, extended = .ok () y → newBytes? t i x.spec sizes = some bytes →
      y.store.budget.inUse + w.store.soleBytes (outgrown.map (·.list)) = inUse + bytes) ∧
    ((∀ label id l, x.slots[label]? = some id → w.store.list? id = some l →
        l.size + (Index.rowsOf labels label).length ≤ l.capacity) →
      ∃ y, extended = .ok () y ∧ y.store.budget.inUse = inUse) := by
  intro extended outgrown sizes inUse fits hosted
  obtain ⟨held, hsound⟩ := hw.sound
  have hx := hsound.index name x hname
  have hacc := hsound.accounts_index hname
  have htaken : (∃ y, extended = .ok () y) ↔
      ∃ bytes, Admits t i w.store.budget x.spec sizes bytes :=
    Index.exists_extend_ok_iff hx hacc haccepted
  have hfits : (∃ y, extended = .ok () y) ↔ fits ∧ hosted := by
    simp only [htaken, admits_iff hw.limit_eq hlimit]
    constructor
    · rintro ⟨bytes, hbytes, hle, hhosted⟩
      exact ⟨⟨bytes, hbytes, hle⟩, hhosted⟩
    · rintro ⟨⟨bytes, hbytes, hle⟩, hhosted⟩
      exact ⟨bytes, hbytes, hle, hhosted⟩
  refine ⟨fun hhosted => ?_, fun hle => ?_, fun h => (hfits.mp h).2,
    fun y bytes hok hbytes => Index.inUse_extend hx hacc haccepted hok hbytes, fun hroom => ?_⟩
  · rw [hfits]
    exact and_iff_left hhosted
  · rw [hfits]
    refine and_iff_left_of_imp ?_
    rintro ⟨bytes, hbytes, hwithin⟩
    exact hostGives_of_newBytes? hbytes (by omega)
  · have hnone : outgrown = [] := by
      rw [List.eq_nil_iff_forall_not_mem]
      intro o ho
      obtain ⟨label, -, id, l, hid, hl, hgrow, -⟩ := (Index.mem_outgrown_iff hx).mp ho
      exact absurd (hroom label id l hid hl) (Nat.not_le.mpr hgrow)
    have hnil : sizes = [] := congrArg (List.map (·.size)) hnone
    have hadmits : Admits t i w.store.budget x.spec sizes 0 := by
      rw [hnil]
      exact admits_nil hacc.budget
    obtain ⟨y, hok⟩ := htaken.mpr ⟨0, hadmits⟩
    have hafter := Index.inUse_extend hx hacc haccepted hok hadmits.bytes_eq
    refine ⟨y, hok, ?_⟩
    rwa [show x.outgrown w.store labels = [] from hnone] at hafter

/-- An index of two lists of one column, of which the second is full, under a limit. -/
def secondFull (limit : Nat) : Workspace .u8 .i32 :=
  final (perform (.step (.extend "x" (Array.replicate 32 7) none
      (Assigner.precomputed (Array.replicate 32 1)))))
    (final (perform (.step (.createIndex "x" 1 (.new 2)))) (new .u8 .i32 (some limit)))

/-- A row for each list asks for 160 and for 320 bytes next to the 160 that the full list takes. A
limit of 640 bytes admits this, after which those of the full list are free; one byte less is not
enough. -/
theorem extend_ok_iff_fits_secondFull :
    (∃ x y, (secondFull 640).indexes.find? "x" = some x ∧
      Index.extend (Assigner.precomputed #[1, 0]) #[8, 9] (some #[40, 41])
        { index := x, store := (secondFull 640).store } = .ok () y ∧
      (secondFull 640).store.budget.inUse = 160 ∧ y.store.budget.inUse = 480) ∧
    ∃ x, (secondFull 639).indexes.find? "x" = some x ∧
      ∀ y, Index.extend (Assigner.precomputed #[1, 0]) #[8, 9] (some #[40, 41])
        { index := x, store := (secondFull 639).store } ≠ .ok () y := by
  have hreached : ∀ limit, Reached (some limit) (secondFull limit) :=
    fun limit => (Reached.new.perform _).perform _
  have hname : ∀ limit ∈ [639, 640],
      (secondFull limit).indexes.find? "x" = some (twoLists 0 2) := by
    decide +kernel
  have hsizes : ∀ limit ∈ [639, 640],
      (twoLists 0 2).sizes (secondFull limit).store = [0, 32] := by
    decide +kernel
  have haccepted : Index.Accepted (i := .i32) 1 [0, 32] 2
      (Assigner.precomputed (t := .u8) #[1, 0]) #[8, 9] (some #[40, 41]) #[40, 41] #[1, 0] :=
    { size_vectors := rfl
      size_ids := rfl
      ids_eq := fun _ => ⟨rfl, rfl⟩
      labels_eq := fun _ => ⟨#[1, 0], rfl, by simp⟩
      label_lt := by decide
      size_lt := by
        rintro (_ | _ | label) size hsize
        · cases hsize
          decide
        · cases hsize
          decide
        · cases hsize }
  have hlaw := fun limit (hlimit : limit ∈ [639, 640]) (hlt : limit < byteLimit) =>
    extend_ok_iff_fits hlt (hreached limit) (hname limit hlimit)
      ((hsizes limit hlimit).symm ▸ haccepted)
  have hinUse : ∀ limit ∈ [639, 640], (secondFull limit).store.budget.inUse = 160 := by
    decide +kernel
  have hbytes : ∀ limit ∈ [639, 640], newBytes? .u8 .i32 oneColumn
      (((twoLists 0 2).outgrown (secondFull limit).store #[1, 0]).map (·.size)) = some 480 := by
    decide +kernel
  constructor
  · obtain ⟨-, hverdict, -, hcharged, -⟩ := hlaw 640 (by decide) (by decide)
    have hwithin : (secondFull 640).store.budget.inUse + 480 ≤ 640 := by
      rw [hinUse 640 (by decide)]
    have hsole : (secondFull 640).store.soleBytes
        (((twoLists 0 2).outgrown (secondFull 640).store #[1, 0]).map (·.list)) = 160 := by
      decide +kernel
    obtain ⟨y, hok⟩ := (hverdict (by decide)).mpr ⟨480, hbytes 640 (by decide), hwithin⟩
    have hafter := hcharged y 480 hok (hbytes 640 (by decide))
    rw [hsole, hinUse 640 (by decide)] at hafter
    exact ⟨twoLists 0 2, y, hname 640 (by decide), hok, hinUse 640 (by decide), by omega⟩
  · obtain ⟨-, hverdict, -⟩ := hlaw 639 (by decide) (by decide)
    refine ⟨twoLists 0 2, hname 639 (by decide), fun y hok => ?_⟩
    obtain ⟨bytes, hneeded, hwithin⟩ := (hverdict (by decide)).mp ⟨y, hok⟩
    cases hneeded.symm.trans (hbytes 639 (by decide))
    rw [hinUse 639 (by decide)] at hwithin
    exact absurd hwithin (by decide)

end InvertedFile.Workspace
