import Mathlib.Algebra.BigOperators.Group.List.Basic
import Mathlib.Algebra.Ring.Nat
import InvertedFile.Index.Extend
import InvertedFile.Proofs.InvertedList.Records

/-!
# What a batch comes to

Before an extension touches a list it looks the batch over and files its rows
by label. All of that depends on the sizes of the lists and on nothing else
in the store, so it is told here as a computation of its own, `plan`, whose
result is the portions that the lists are to receive. `extend_eq` says that an
extension is its plan, then room for all portions, then the writing.

`Accepted` is what the checks establish: ids and labels, one for each row,
with every label in range and no list growing past the greatest record count.
A portion carries codes and ids in two arrays; `batch_portion` says that read
together they are the rows of the label with their ids, in order.

## Main results

* `extend_eq` — an extension is a plan that is carried out.
* `plan_eq_ok_iff` — a batch is planned exactly when it is accepted.
* `batch_portion` — the records of a portion are the rows of its label.
* `sum_length_rowsOf` — every row is filed under one label.
-/

namespace InvertedFile.Index

variable {t : ElementType} {i : IdType}

/-- The portions of a batch for lists of the given sizes. -/
def plan (dim : Nat) (sizes : List Nat) (lists : Nat) (assigner : Assigner t)
    (vectors : Array (Word t)) (ids : Option (Array (Id i))) :
    Except Error (List (Portion t i)) := do
  let rows ← batchRows vectors.size dim
  if rows = 0 then return []
  else
    let ids ← batchIds ids sizes.sum rows
    let labels := (← assigner vectors dim).map UInt32.toNat
    checkLabels lists rows labels
    let filed := rowsByLabel lists labels
    checkSizes sizes filed
    return portions dim vectors ids filed

/-- An extension is a plan that is carried out. -/
theorem extend_eq (assigner : Assigner t) (vectors : Array (Word t))
    (ids : Option (Array (Id i))) (x : OpenIndex t i) :
    extend assigner vectors ids x =
      (do
        let portions ← Action.ofExcept
          (plan x.index.dim (x.index.sizes x.store) x.index.slots.size assigner vectors ids)
        let staged ← stored (stageAll x.index portions)
        placeAll staged : Action (OpenIndex t i) Unit) x := by
  change (do
    let rows ← Action.ofExcept (batchRows vectors.size x.index.dim)
    if rows = 0 then return ()
    else
      let ids ← Action.ofExcept (batchIds ids (x.index.size x.store) rows)
      let labels := (← Action.ofExcept (assigner vectors x.index.dim)).map UInt32.toNat
      Action.ofExcept (checkLabels x.index.slots.size rows labels)
      let filed := rowsByLabel x.index.slots.size labels
      Action.ofExcept (checkSizes (x.index.sizes x.store) filed)
      let staged ← stored (stageAll x.index (portions x.index.dim vectors ids filed))
      placeAll staged : Action (OpenIndex t i) Unit) x = _
  simp only [plan, Action.ofExcept_bind, bind_assoc]
  cases batchRows vectors.size x.index.dim with
  | error e => rfl
  | ok rows =>
      by_cases hrows : rows = 0
      · subst hrows
        rfl
      · rw [Action.bind_ok (Action.ofExcept_ok rfl x), Action.bind_ok (Action.ofExcept_ok rfl x),
          if_neg hrows, if_neg hrows]
        simp only [Action.ofExcept_bind, Action.ofExcept_pure, bind_assoc, pure_bind]
        rfl

/-! ## The checks -/

/-- The ids a batch of `n` rows goes by: those given or, without any, the record numbers from
`base` on. -/
def EffectiveIds (given : Option (Array (Id i))) (base n : Nat) (ids : Array (Id i)) : Prop :=
  ids.size = n ∧
    match given with
    | some given => ids = given
    | none => ∀ k < n, ids[k]? = Id.ofNat? i (base + k)

/-- What the checks of an extension establish of a batch: the ids and the labels of its rows. No
label is asked for where there are no rows. -/
structure Accepted (dim : Nat) (sizes : List Nat) (lists : Nat) (assigner : Assigner t)
    (vectors : Array (Word t)) (given : Option (Array (Id i))) (ids : Array (Id i))
    (labels : Array Nat) : Prop where
  size_vectors : vectors.size = labels.size * dim
  size_ids : ids.size = labels.size
  ids_eq : labels.size ≠ 0 → EffectiveIds given sizes.sum labels.size ids
  labels_eq : labels.size ≠ 0 →
    ∃ assigned, assigner vectors dim = .ok assigned ∧ labels = assigned.map UInt32.toNat
  label_lt : ∀ label ∈ labels, label < lists
  size_lt : ∀ label size, sizes[label]? = some size →
    size + (rowsOf labels label).length < countLimit

theorem batchRows_eq_ok_iff {elements dim rows : Nat} (hdim : 0 < dim) :
    batchRows elements dim = .ok rows ↔ elements = rows * dim := by
  unfold batchRows
  by_cases hwhole : elements % dim = 0
  · rw [if_neg (not_not_intro hwhole), Except.ok.injEq]
    constructor
    · rintro rfl
      exact (Nat.div_mul_cancel (Nat.dvd_of_mod_eq_zero hwhole)).symm
    · rintro rfl
      exact Nat.mul_div_cancel rows hdim
  · rw [if_pos hwhole]
    simp only [reduceCtorEq, false_iff]
    rintro rfl
    exact hwhole (Nat.mul_mod_left rows dim)

theorem defaultIds_eq_ok_iff {base n : Nat} {ids : Array (Id i)} :
    defaultIds i base n = .ok ids ↔
      ids.size = n ∧ ∀ k < n, ids[k]? = Id.ofNat? i (base + k) := by
  unfold defaultIds
  rw [Except.bind_eq_ok]
  simp only [Except.mapM_eq_ok, List.forall₂_iff_get]
  constructor
  · rintro ⟨found, ⟨hlength, hfound⟩, ⟨⟩⟩
    rw [List.length_range] at hlength
    refine ⟨hlength.symm, ?_⟩
    intro k hk
    have hget := hfound k (by rwa [List.length_range]) (hlength ▸ hk)
    rw [List.get_eq_getElem, List.getElem_range] at hget
    rw [List.getElem?_toArray, List.getElem?_eq_getElem (hlength ▸ hk)]
    cases hnumber : Id.ofNat? i (base + k) with
    | none =>
        rw [hnumber] at hget
        cases hget
    | some id =>
        rw [hnumber] at hget
        exact congrArg some (Except.ok.inj hget).symm
  · rintro ⟨hsize, hids⟩
    refine ⟨ids.toList, ⟨by rw [List.length_range, Array.length_toList, hsize], ?_⟩, rfl⟩
    intro k hk hlt
    rw [List.length_range] at hk
    rw [List.get_eq_getElem, List.getElem_range]
    rw [← hids k hk, Array.getElem?_eq_getElem (hsize ▸ hk)]
    rfl

theorem batchIds_eq_ok_iff {given : Option (Array (Id i))} {base rows : Nat}
    {ids : Array (Id i)} :
    batchIds given base rows = .ok ids ↔ EffectiveIds given base rows ids := by
  unfold batchIds EffectiveIds
  cases given with
  | none => exact defaultIds_eq_ok_iff
  | some given =>
      by_cases hsize : given.size = rows
      · simp only [hsize, if_pos, Except.ok.injEq]
        constructor
        · rintro rfl
          exact ⟨hsize, rfl⟩
        · exact fun h => h.2.symm
      · simp only [hsize, if_false, reduceCtorEq, false_iff]
        rintro ⟨hids, rfl⟩
        exact hsize hids

/-- A batch has one set of ids and labels. -/
theorem Accepted.unique {dim : Nat} (hdim : 0 < dim) {sizes : List Nat} {lists : Nat}
    {assigner : Assigner t} {vectors : Array (Word t)} {given : Option (Array (Id i))}
    {ids ids' : Array (Id i)} {labels labels' : Array Nat}
    (h : Accepted dim sizes lists assigner vectors given ids labels)
    (h' : Accepted dim sizes lists assigner vectors given ids' labels') :
    ids' = ids ∧ labels' = labels := by
  have hsize : labels'.size = labels.size := by
    have heq := h'.size_vectors.symm.trans h.size_vectors
    exact Nat.eq_of_mul_eq_mul_right hdim heq
  by_cases hzero : labels.size = 0
  · have hids := Array.eq_empty_of_size_eq_zero (h.size_ids.trans hzero)
    have hids' := Array.eq_empty_of_size_eq_zero (h'.size_ids.trans (hsize.trans hzero))
    have hlabels := Array.eq_empty_of_size_eq_zero hzero
    have hlabels' := Array.eq_empty_of_size_eq_zero (hsize.trans hzero)
    exact ⟨hids'.trans hids.symm, hlabels'.trans hlabels.symm⟩
  · have hrun := batchIds_eq_ok_iff.mpr (h.ids_eq hzero)
    have hrun' := batchIds_eq_ok_iff.mpr (h'.ids_eq (hsize ▸ hzero))
    rw [hsize, hrun, Except.ok.injEq] at hrun'
    obtain ⟨assigned, hassigned, rfl⟩ := h.labels_eq hzero
    obtain ⟨assigned', hassigned', rfl⟩ := h'.labels_eq (hsize ▸ hzero)
    rw [hassigned, Except.ok.injEq] at hassigned'
    exact ⟨hrun'.symm, by rw [hassigned']⟩

theorem checkLabels_eq_ok_iff {lists rows : Nat} {labels : Array Nat} :
    checkLabels lists rows labels = .ok () ↔
      labels.size = rows ∧ ∀ label ∈ labels, label < lists := by
  unfold checkLabels
  rw [Except.bind_eq_ok]
  simp only [Except.ensure_eq_ok, Except.forM_eq_ok, Array.mem_toList_iff]
  simp

theorem checkSizes_eq_ok_iff {sizes : List Nat} {labels : Array Nat} :
    checkSizes sizes (rowsByLabel sizes.length labels) = .ok () ↔
      ∀ label size, sizes[label]? = some size →
        size + (rowsOf labels label).length < countLimit := by
  unfold checkSizes checkSize
  rw [Except.forM_eq_ok, toList_rowsByLabel]
  simp only [Except.ensure_eq_ok]
  constructor
  · intro h label size hsize
    have hlt : label < sizes.length := (List.getElem?_eq_some_iff.mp hsize).1
    apply h (size, rowsOf labels label)
    apply List.mem_of_getElem? (i := label)
    rw [List.getElem?_zip_eq_some]
    exact ⟨hsize, by simp [hlt]⟩
  · rintro h ⟨size, rows⟩ hmem
    obtain ⟨label, hlabel⟩ := List.getElem?_of_mem hmem
    obtain ⟨hsize, hrows⟩ := List.getElem?_zip_eq_some.mp hlabel
    have hlt : label < sizes.length := (List.getElem?_eq_some_iff.mp hsize).1
    have heq : rowsOf labels label = rows := by simpa [hlt] using hrows
    rw [← heq]
    exact h label size hsize

/-! ## The portions -/

theorem rowsOf_empty {labels : Array Nat} (h : labels.size = 0) (label : Nat) :
    rowsOf labels label = [] := by
  rw [rowsOf, h]
  rfl

theorem mem_rowsOf_iff {labels : Array Nat} {label row : Nat} :
    row ∈ rowsOf labels label ↔ labels[row]? = some label := by
  rw [rowsOf, List.mem_filter, List.mem_range, decide_eq_true_eq]
  constructor
  · exact fun h => h.2
  · exact fun h => ⟨(Array.getElem?_eq_some_iff.mp h).1, h⟩

theorem lt_of_mem_rowsOf {labels : Array Nat} {label row : Nat}
    (h : row ∈ rowsOf labels label) : row < labels.size :=
  (Array.getElem?_eq_some_iff.mp (mem_rowsOf_iff.mp h)).1

private theorem sum_indicator {n k : Nat} (hk : k < n) :
    ((List.range n).map fun c => if k = c then 1 else 0).sum = 1 := by
  induction n with
  | zero => exact absurd hk (Nat.not_lt_zero k)
  | succ n ih =>
      have hzero : ((List.range k).map fun c => if k = c then 1 else 0).sum = 0 := by
        apply List.sum_eq_zero
        intro value hvalue
        obtain ⟨c, hc, rfl⟩ := List.mem_map.mp hvalue
        have hlt := List.mem_range.mp hc
        rw [if_neg (by omega)]
      rw [List.range_succ, List.map_append, List.sum_append_nat]
      by_cases heq : k = n
      · subst heq
        rw [hzero]
        simp
      · rw [ih (by omega)]
        simp [heq]

/-- Rows that have one label each are counted by label. -/
private theorem sum_length_filter {f : Nat → Option Nat} {n : Nat} {rows : List Nat}
    (h : ∀ row ∈ rows, ∃ label < n, f row = some label) :
    ((List.range n).map fun label => (rows.filter fun row => f row = some label).length).sum =
      rows.length := by
  induction rows with
  | nil => simp
  | cons row rest ih =>
      obtain ⟨label, hlt, hlabel⟩ := h row (List.mem_cons_self ..)
      have hcons : ∀ c, ((row :: rest).filter fun row => f row = some c).length =
          (if label = c then 1 else 0) + (rest.filter fun row => f row = some c).length := by
        intro c
        by_cases heq : label = c
        · rw [List.filter_cons_of_pos (by simp [hlabel, heq]), if_pos heq, List.length_cons,
            Nat.add_comm]
        · rw [List.filter_cons_of_neg (by simp [hlabel, heq]), if_neg heq, Nat.zero_add]
      simp only [hcons]
      rw [List.sum_map_add, sum_indicator hlt, ih fun r hr => h r (List.mem_cons_of_mem row hr),
        List.length_cons, Nat.add_comm]

/-- Every row is filed under one label. -/
theorem sum_length_rowsOf {labels : Array Nat} {lists : Nat}
    (h : ∀ label ∈ labels, label < lists) :
    ((List.range lists).map fun label => (rowsOf labels label).length).sum = labels.size := by
  have hrows : ∀ row ∈ List.range labels.size, ∃ label < lists, labels[row]? = some label := by
    intro row hrow
    have hlt := List.mem_range.mp hrow
    exact ⟨labels[row], h _ (Array.getElem_mem hlt), Array.getElem?_eq_getElem hlt⟩
  have hsum := sum_length_filter hrows
  rwa [List.length_range] at hsum

/-- The records that the list of a label receives: the rows with that label, in the order of the
batch, with their ids. -/
def received (dim : Nat) (vectors : Array (Word t)) (ids : Array (Id i)) (labels : Array Nat)
    (label : Nat) : List (Id i × List (Word t)) :=
  (rowsOf labels label).filterMap fun row => ids[row]?.map fun id => (id, rowCodes dim vectors row)

theorem length_rowCodes {dim rows row : Nat} {vectors : Array (Word t)}
    (hvectors : vectors.size = rows * dim) (hrow : row < rows) :
    (rowCodes dim vectors row).length = dim := by
  apply length_flatRecord
  rw [hvectors]
  exact Nat.mul_le_mul_right dim hrow

/-- Rows that are gathered in two arrays are put together again by reading both. -/
theorem batch_gathered {dim rows : Nat} {vectors : Array (Word t)} {ids : Array (Id i)}
    (hvectors : vectors.size = rows * dim) (hids : ids.size = rows) (label : Nat)
    {gathered : List Nat} (hrows : ∀ row ∈ gathered, row < rows) :
    (portion dim vectors ids label gathered).codes.size =
        (portion dim vectors ids label gathered).ids.size * dim ∧
      (portion dim vectors ids label gathered).ids.size = gathered.length ∧
      InvertedList.batch dim (portion dim vectors ids label gathered).codes
          (portion dim vectors ids label gathered).ids =
        gathered.filterMap fun row => ids[row]?.map fun id => (id, rowCodes dim vectors row) := by
  induction gathered with
  | nil =>
      refine ⟨?_, rfl, rfl⟩
      simp [portion]
  | cons row rest ih =>
      obtain ⟨hcodes, hcount, hbatch⟩ := ih fun r hr => hrows r (List.mem_cons_of_mem row hr)
      have hrow : row < rows := hrows row (List.mem_cons_self ..)
      have hlength := length_rowCodes hvectors hrow
      obtain ⟨id, hid⟩ : ∃ id, ids[row]? = some id := by
        rw [← hids] at hrow
        exact ⟨_, Array.getElem?_eq_getElem hrow⟩
      simp only [portion, List.flatMap_cons, List.filterMap_cons, hid, Option.map_some,
        List.size_toArray, List.length_append, List.length_cons] at hcodes hcount hbatch ⊢
      refine ⟨?_, by rw [hcount], ?_⟩
      · rw [hlength, hcodes, Nat.succ_mul, Nat.add_comm]
      · rw [InvertedList.batch_cons hlength, hbatch]

/-- What the list of a label is given is what the label is to receive. -/
theorem batch_portion {dim : Nat} {vectors : Array (Word t)} {ids : Array (Id i)}
    {labels : Array Nat} (hvectors : vectors.size = labels.size * dim)
    (hids : ids.size = labels.size) (label : Nat) :
    InvertedList.batch dim (portion dim vectors ids label (rowsOf labels label)).codes
        (portion dim vectors ids label (rowsOf labels label)).ids =
      received dim vectors ids labels label :=
  (batch_gathered hvectors hids label fun _ => lt_of_mem_rowsOf).2.2

theorem length_received {dim : Nat} {vectors : Array (Word t)} {ids : Array (Id i)}
    {labels : Array Nat} (hvectors : vectors.size = labels.size * dim)
    (hids : ids.size = labels.size) (label : Nat) :
    (received dim vectors ids labels label).length = (rowsOf labels label).length := by
  rw [← batch_portion hvectors hids label, InvertedList.length_batch]
  exact (batch_gathered hvectors hids label fun _ => lt_of_mem_rowsOf).2.1

/-- The portions of a batch whose rows have ids and labels. -/
def portionsOf (lists dim : Nat) (vectors : Array (Word t)) (ids : Array (Id i))
    (labels : Array Nat) : List (Portion t i) :=
  ((List.range lists).filter fun label => rowsOf labels label ≠ []).map fun label =>
    portion dim vectors ids label (rowsOf labels label)

/-- A portion that lists can take: records of the right width for a list that is there. -/
structure Portion.Valid (dim lists : Nat) (p : Portion t i) : Prop where
  label_lt : p.label < lists
  size_codes : p.codes.size = p.ids.size * dim
  size_pos : 0 < p.ids.size

theorem valid_of_mem_portionsOf {lists dim : Nat} {vectors : Array (Word t)}
    {ids : Array (Id i)} {labels : Array Nat} (hvectors : vectors.size = labels.size * dim)
    (hids : ids.size = labels.size) {p : Portion t i}
    (hp : p ∈ portionsOf lists dim vectors ids labels) : p.Valid dim lists := by
  obtain ⟨label, hlabel, rfl⟩ := List.mem_map.mp hp
  obtain ⟨hlt, hrows⟩ := List.mem_filter.mp hlabel
  have hgathered : ∀ row ∈ rowsOf labels label, row < labels.size := fun _ => lt_of_mem_rowsOf
  obtain ⟨hcodes, hcount, -⟩ := batch_gathered hvectors hids label hgathered
  refine ⟨List.mem_range.mp hlt, hcodes, ?_⟩
  rw [hcount, List.length_pos_iff]
  exact of_decide_eq_true hrows

theorem labels_portionsOf (lists dim : Nat) (vectors : Array (Word t)) (ids : Array (Id i))
    (labels : Array Nat) :
    (portionsOf lists dim vectors ids labels).map Portion.label =
      (List.range lists).filter fun label => rowsOf labels label ≠ [] := by
  rw [portionsOf, List.map_map]
  exact List.map_id _

/-- There is one portion for a label. -/
theorem nodup_labels_portionsOf (lists dim : Nat) (vectors : Array (Word t)) (ids : Array (Id i))
    (labels : Array Nat) :
    ((portionsOf lists dim vectors ids labels).map Portion.label).Nodup := by
  rw [labels_portionsOf]
  exact List.nodup_range.filter _

/-! ## The plan -/

/-- A batch is planned exactly when it is accepted. -/
theorem plan_eq_ok_iff {dim : Nat} (hdim : 0 < dim) {sizes : List Nat} {lists : Nat}
    (hlists : sizes.length = lists) (hsizes : ∀ size ∈ sizes, size < countLimit)
    {assigner : Assigner t} {vectors : Array (Word t)} {given : Option (Array (Id i))}
    {ps : List (Portion t i)} :
    plan dim sizes lists assigner vectors given = .ok ps ↔
      ∃ ids labels, Accepted dim sizes lists assigner vectors given ids labels ∧
        ps = portionsOf lists dim vectors ids labels := by
  subst hlists
  unfold plan
  rw [Except.bind_eq_ok]
  simp only [batchRows_eq_ok_iff hdim]
  constructor
  · rintro ⟨rows, hvectors, hrest⟩
    by_cases hrows : rows = 0
    · rw [if_pos hrows] at hrest
      cases hrest
      refine ⟨#[], #[], ⟨?_, rfl, fun h => absurd rfl h, fun h => absurd rfl h, ?_, ?_⟩, ?_⟩
      · simp [hvectors, hrows]
      · simp
      · intro label size hsize
        rw [rowsOf_empty rfl]
        exact hsizes size (List.mem_of_getElem? hsize)
      · rw [portionsOf, List.filter_eq_nil_iff.mpr, List.map_nil]
        intro label _
        simp [rowsOf_empty]
    · rw [if_neg hrows, Except.bind_eq_ok] at hrest
      obtain ⟨ids, hids, hrest⟩ := hrest
      obtain ⟨assigned, hassigned, hrest⟩ := Except.bind_eq_ok.mp hrest
      obtain ⟨⟨⟩, hlabels, hrest⟩ := Except.bind_eq_ok.mp hrest
      obtain ⟨⟨⟩, hfits, hrest⟩ := Except.bind_eq_ok.mp hrest
      cases hrest
      obtain ⟨hcount, hlt⟩ := checkLabels_eq_ok_iff.mp hlabels
      have heffective := batchIds_eq_ok_iff.mp hids
      refine ⟨ids, assigned.map UInt32.toNat, ⟨?_, ?_, ?_, ?_, hlt, ?_⟩, ?_⟩
      · rw [hcount, hvectors]
      · rw [hcount, heffective.1]
      · exact fun _ => hcount ▸ heffective
      · exact fun _ => ⟨assigned, hassigned, rfl⟩
      · exact checkSizes_eq_ok_iff.mp hfits
      · exact portions_rowsByLabel _ _ _ _ _
  · rintro ⟨ids, labels, haccepted, rfl⟩
    refine ⟨labels.size, haccepted.size_vectors, ?_⟩
    by_cases hrows : labels.size = 0
    · rw [if_pos hrows, portionsOf, List.filter_eq_nil_iff.mpr]
      · rfl
      · intro label _
        simp [rowsOf_empty hrows]
    · rw [if_neg hrows]
      obtain ⟨assigned, hassigned, hlabels⟩ := haccepted.labels_eq hrows
      have hids := batchIds_eq_ok_iff.mpr (haccepted.ids_eq hrows)
      have hcheck := checkLabels_eq_ok_iff.mpr ⟨rfl, haccepted.label_lt⟩
      have hfits := checkSizes_eq_ok_iff.mpr haccepted.size_lt
      rw [hids, hassigned]
      change (checkLabels _ _ (assigned.map UInt32.toNat) >>= _) = _
      rw [← hlabels, hcheck]
      change (checkSizes _ _ >>= _) = _
      rw [hfits]
      exact congrArg Except.ok (portions_rowsByLabel _ _ _ _ _)

end InvertedFile.Index
