import InvertedFile.Proofs.Index.Alike

/-!
# How vectors are cut into batches

A batch is a number of rows, each with a label, with or without an id. An
index that takes batches one after the other grows by their rows, and what a
list holds in the end is told by the rows alone: behind what it held stand
those with its label, in their order. A row without an id goes by the number
it has in the index, which is the number of records it had before the first
batch and the place of the row among all that were added, wherever the
batches begin.

So it does not matter how the rows are cut into batches. The lists may have
grown in other steps, but a list has the room that its size asks for, however
it came to that size.

## Main results

* `dealt_append` — rows are dealt out one part after the other.
* `received_eq_dealt` — a list receives what is dealt to its label.
* `grown_add`, `grown_addAll` — an index grows by the rows of a batch, and by
  the rows of many.
* `Grown.alike` — indexes that grew by the same rows look alike.
* `alike_of_joined`, `alike_of_rows` — it does not matter where batches end.
-/

namespace InvertedFile

variable {t : ElementType} {i : IdType}

/-- A row of a batch: its label, its columns and its id, if one was given. -/
structure Row (t : ElementType) (i : IdType) where
  label : Option UInt32
  columns : List (Word t)
  id : Option (Id i)
  deriving DecidableEq

/-- What is given to an extension. -/
structure Batch (t : ElementType) (i : IdType) where
  assigner : Assigner t
  vectors : Array (Word t)
  ids : Option (Array (Id i))

namespace Batch

/-- Adds a batch to an index. -/
def add (b : Batch t i) : Action (OpenIndex t i) Unit :=
  Index.extend b.assigner b.vectors b.ids

/-- Adds batches to an index, one after the other, until one of them fails. -/
def addAll (bs : List (Batch t i)) : Action (OpenIndex t i) Unit :=
  bs.forM add

theorem addAll_singleton (b : Batch t i) : addAll [b] = b.add := by
  rw [addAll, List.forM_eq_forM, List.forM_cons, List.forM_nil]
  exact bind_pure b.add

/-- The labels of a batch, as far as the assigner has any. -/
def labels (dim : Nat) (b : Batch t i) : Array UInt32 :=
  match b.assigner b.vectors dim with
  | .ok labels => labels
  | .error _ => #[]

/-- A row of a batch. -/
def row (dim : Nat) (b : Batch t i) (k : Nat) : Row t i where
  label := (b.labels dim)[k]?
  columns := Index.rowCodes dim b.vectors k
  id := b.ids.bind (·[k]?)

/-- The rows of a batch. -/
def rows (dim : Nat) (b : Batch t i) : List (Row t i) :=
  (List.range (b.vectors.size / dim)).map (b.row dim)

/-- A batch has `n` complete rows, and as many labels, and as many ids if any are given. Nobody
counts the labels and the ids where there are no rows. -/
structure Whole (dim n : Nat) (b : Batch t i) : Prop where
  size_vectors : b.vectors.size = n * dim
  size_labels : n ≠ 0 → (b.labels dim).size = n
  size_ids : n ≠ 0 → ∀ ids, b.ids = some ids → ids.size = n

theorem Whole.rows_eq {dim n : Nat} (hdim : 0 < dim) {b : Batch t i} (h : b.Whole dim n) :
    b.rows dim = (List.range n).map (b.row dim) := by
  rw [rows, h.size_vectors, Nat.mul_div_cancel _ hdim]

theorem Whole.length_rows {dim n : Nat} (hdim : 0 < dim) {b : Batch t i} (h : b.Whole dim n) :
    (b.rows dim).length = n := by
  rw [h.rows_eq hdim, List.length_map, List.length_range]

/-! ## Two batches as one -/

/-- The vectors of two batches as one batch, with the labels of both and with the ids of both,
where these are given. -/
structure Joined (dim : Nat) (a b c : Batch t i) : Prop where
  vectors_eq : c.vectors = a.vectors ++ b.vectors
  labels_eq : c.labels dim = a.labels dim ++ b.labels dim
  ids_eq :
    (∃ first second, a.ids = some first ∧ b.ids = some second ∧ c.ids = some (first ++ second)) ∨
      (a.ids = none ∧ b.ids = none ∧ c.ids = none)

section Joined

variable {dim m n : Nat} {a b c : Batch t i}

theorem rowCodes_append_left {first : Array (Word t)} (hfirst : first.size = m * dim)
    (second : Array (Word t)) {k : Nat} (hk : k < m) :
    Index.rowCodes dim (first ++ second) k = Index.rowCodes dim first k := by
  have hend : (k + 1) * dim - first.size = 0 := by
    rw [hfirst, ← Nat.sub_mul, Nat.sub_eq_zero_of_le hk, Nat.zero_mul]
  rw [Index.rowCodes, Array.extract_append, hend, Array.extract_zero, Array.append_empty]
  rfl

theorem rowCodes_append_right {first : Array (Word t)} (hfirst : first.size = m * dim)
    (second : Array (Word t)) (k : Nat) :
    Index.rowCodes dim (first ++ second) (m + k) = Index.rowCodes dim second k := by
  have hnone : first.extract ((m + k) * dim) ((m + k + 1) * dim) = #[] := by
    apply Array.extract_empty_of_size_le_start
    rw [hfirst]
    exact Nat.mul_le_mul_right dim (Nat.le_add_right m k)
  rw [Index.rowCodes, Array.extract_append, hnone, Array.empty_append, hfirst, ← Nat.sub_mul,
    ← Nat.sub_mul, Nat.add_assoc, Nat.add_sub_cancel_left, Nat.add_sub_cancel_left]
  rfl

/-- The first rows of two batches as one are those of the first batch. -/
theorem Joined.row_left (h : Joined dim a b c) (ha : a.Whole dim m) {k : Nat} (hk : k < m) :
    c.row dim k = a.row dim k := by
  have hsome : m ≠ 0 := by omega
  have hlabel : (c.labels dim)[k]? = (a.labels dim)[k]? := by
    rw [h.labels_eq, Array.getElem?_append_left (by rwa [ha.size_labels hsome])]
  have hid : c.ids.bind (·[k]?) = a.ids.bind (·[k]?) := by
    rcases h.ids_eq with ⟨first, second, hfirst, -, hboth⟩ | ⟨hnone, -, hnone'⟩
    · rw [hboth, hfirst, Option.bind_some, Option.bind_some,
        Array.getElem?_append_left (by rwa [ha.size_ids hsome first hfirst])]
    · rw [hnone', hnone]
  rw [row, hlabel, hid, h.vectors_eq, rowCodes_append_left ha.size_vectors _ hk]
  rfl

/-- The other rows of two batches as one are those of the second batch. Where the second batch has
rows, what is given for it begins behind what is given for the rows of the first. -/
theorem Joined.row_right (h : Joined dim a b c) (ha : a.Whole dim m) (hb : b.Whole dim n)
    (hc : c.Whole dim (m + n)) {k : Nat} (hk : k < n) : c.row dim (m + k) = b.row dim k := by
  have hsome : n ≠ 0 := by omega
  have hboth : m + n ≠ 0 := by omega
  have hlabel : (c.labels dim)[m + k]? = (b.labels dim)[k]? := by
    have hsize : (a.labels dim).size = m := by
      have hall := hc.size_labels hboth
      rw [h.labels_eq, Array.size_append, hb.size_labels hsome] at hall
      exact Nat.add_right_cancel hall
    rw [h.labels_eq, Array.getElem?_append_right (by omega), hsize, Nat.add_sub_cancel_left]
  have hid : c.ids.bind (·[m + k]?) = b.ids.bind (·[k]?) := by
    rcases h.ids_eq with ⟨first, second, -, hsecond, hall⟩ | ⟨-, hnone, hnone'⟩
    · have hsize : first.size = m := by
        have hcount := hc.size_ids hboth _ hall
        rw [Array.size_append, hb.size_ids hsome second hsecond] at hcount
        exact Nat.add_right_cancel hcount
      rw [hall, hsecond, Option.bind_some, Option.bind_some,
        Array.getElem?_append_right (by omega), hsize, Nat.add_sub_cancel_left]
    · rw [hnone', hnone]
      rfl
  rw [row, hlabel, hid, h.vectors_eq, rowCodes_append_right ha.size_vectors]
  rfl

/-- The rows of two batches as one are those of the one and those of the other. -/
theorem Joined.rows_eq (hdim : 0 < dim) (h : Joined dim a b c) (ha : a.Whole dim m)
    (hb : b.Whole dim n) {total : Nat} (hc : c.Whole dim total) :
    c.rows dim = a.rows dim ++ b.rows dim := by
  have htotal : total = m + n := by
    have hsize := hc.size_vectors
    rw [h.vectors_eq, Array.size_append, ha.size_vectors, hb.size_vectors, ← Nat.add_mul] at hsize
    exact (Nat.eq_of_mul_eq_mul_right hdim hsize).symm
  subst htotal
  rw [hc.rows_eq hdim, ha.rows_eq hdim, hb.rows_eq hdim, List.range_add, List.map_append,
    List.map_map]
  congr 1
  · exact List.map_congr_left fun k hk => h.row_left ha (List.mem_range.mp hk)
  · exact List.map_congr_left fun k hk => h.row_right ha hb hc (List.mem_range.mp hk)

end Joined

end Batch

/-! ## Dealing out -/

/-- What a row comes to for the list of a label, if it is the `n`th record of the index. -/
def Row.record? (label n : Nat) (r : Row t i) : Option (Id i × List (Word t)) :=
  if r.label.map UInt32.toNat = some label then
    (r.id.or (Id.ofNat? i n)).map fun id => (id, r.columns)
  else none

/-- The records that the list of a label is dealt when rows are added to an index with `base`
records. -/
def dealt (base : Nat) (rows : List (Row t i)) (label : Nat) : List (Id i × List (Word t)) :=
  (rows.zipIdx base).filterMap fun entry => entry.1.record? label entry.2

/-- The first row is dealt before the others. -/
theorem dealt_cons (base : Nat) (r : Row t i) (rest : List (Row t i)) (label : Nat) :
    dealt base (r :: rest) label =
      (r.record? label base).toList ++ dealt (base + 1) rest label := by
  rw [dealt, List.zipIdx_cons, List.filterMap_cons]
  cases r.record? label base <;> rfl

/-- Rows are dealt out one part after the other. -/
theorem dealt_append (base : Nat) (rows more : List (Row t i)) (label : Nat) :
    dealt base (rows ++ more) label =
      dealt base rows label ++ dealt (base + rows.length) more label := by
  rw [dealt, List.zipIdx_append, List.filterMap_append]
  rfl

/-- Of three rows behind five records the first and the last go to the list of the label 1. -/
example :
    dealt (t := .u8) (i := .i32) 5
        [⟨some 1, [8], none⟩, ⟨some 0, [9], none⟩, ⟨some 1, [10], some 70⟩] 1 =
      [(5, [8]), (70, [10])] := by
  decide

private theorem zipIdx_map_range {α : Type} (f : Nat → α) (base n : Nat) :
    ((List.range n).map f).zipIdx base = (List.range n).map fun k => (f k, base + k) := by
  apply List.ext_getElem?
  intro k
  rw [List.getElem?_zipIdx, List.getElem?_map, List.getElem?_map]
  by_cases hk : k < n
  · rw [List.getElem?_range hk]
    rfl
  · rw [List.getElem?_eq_none (by rwa [List.length_range, ← Nat.not_lt])]
    rfl

namespace Index

/-- The id of a row is the one that was given for it, or else its number. -/
theorem EffectiveIds.getElem? {given : Option (Array (Id i))} {base n : Nat}
    {ids : Array (Id i)} (h : EffectiveIds given base n ids) {k : Nat} (hk : k < n) :
    ids[k]? = (given.bind (·[k]?)).or (Id.ofNat? i (base + k)) := by
  obtain ⟨hsize, hids⟩ := h
  cases given with
  | none => exact hids k hk
  | some given =>
      subst hids
      rw [← hsize] at hk
      rw [Option.bind_some, Array.getElem?_eq_getElem hk]
      rfl

/-- A batch that an index accepts is whole. -/
theorem Accepted.whole {dim : Nat} {sizes : List Nat} {lists : Nat} {b : Batch t i}
    {ids : Array (Id i)} {labels : Array Nat}
    (h : Accepted dim sizes lists b.assigner b.vectors b.ids ids labels) :
    b.Whole dim labels.size where
  size_vectors := h.size_vectors
  size_labels := by
    intro hsome
    obtain ⟨assigned, hassigned, hlabels⟩ := h.labels_eq hsome
    rw [Batch.labels, hassigned, hlabels, Array.size_map]
  size_ids := by
    intro hsome given hgiven
    obtain ⟨hsize, hids⟩ := h.ids_eq hsome
    rw [hgiven] at hids
    exact hids ▸ hsize

/-- What a list receives of a batch is what its label is dealt. -/
theorem received_eq_dealt {dim : Nat} (hdim : 0 < dim) {sizes : List Nat} {lists : Nat}
    {b : Batch t i} {ids : Array (Id i)} {labels : Array Nat}
    (h : Accepted dim sizes lists b.assigner b.vectors b.ids ids labels) (label : Nat) :
    received dim b.vectors ids labels label = dealt sizes.sum (b.rows dim) label := by
  rw [received, rowsOf, dealt, h.whole.rows_eq hdim, zipIdx_map_range, List.filterMap_filter,
    List.filterMap_map]
  apply List.filterMap_congr
  intro k hk
  have hlt : k < labels.size := List.mem_range.mp hk
  have hsome : labels.size ≠ 0 := by omega
  obtain ⟨assigned, hassigned, hlabels⟩ := h.labels_eq hsome
  have hlabel : labels[k]? = (b.row dim k).label.map UInt32.toNat := by
    rw [hlabels, Array.getElem?_map, Batch.row, Batch.labels, hassigned]
  have hid : ids[k]? = (b.row dim k).id.or (Id.ofNat? i (sizes.sum + k)) :=
    (h.ids_eq hsome).getElem? hlt
  simp only [Function.comp_apply, Row.record?, decide_eq_true_eq]
  rw [hlabel, hid]
  rfl

end Index

/-! ## Growing -/

namespace OpenIndex

/-- The published records of the list of a label. -/
def records (y : OpenIndex t i) (label : Nat) : List (Id i × List (Word t)) :=
  match y.index.slots[label]?.bind y.store.list? with
  | some l => l.published
  | none => []

theorem records_eq {y : OpenIndex t i} {label : Nat} {id : ListId} {l : InvertedList t i}
    (hid : y.index.slots[label]? = some id) (hl : y.store.list? id = some l) :
    y.records label = l.published := by
  rw [records, hid, Option.bind_some, hl]

/-- Rows have been added to an index: it counts them, and its lists have been dealt them by label,
behind what they held. In which batches they came is not told. -/
structure Grown (y : OpenIndex t i) (rows : List (Row t i)) (z : OpenIndex t i) : Prop where
  params_eq : z.index.params = y.index.params
  spec_eq : z.index.spec = y.index.spec
  size_eq : z.index.size z.store = y.index.size y.store + rows.length
  records_eq : ∀ label < y.index.lists,
    z.records label = y.records label ++ dealt (y.index.size y.store) rows label

variable {y z z' : OpenIndex t i} {refs refs' : List ListId}

/-- No rows make no difference. -/
theorem Grown.refl (y : OpenIndex t i) : Grown y [] y where
  params_eq := rfl
  spec_eq := rfl
  size_eq := rfl
  records_eq := fun _ _ => (List.append_nil _).symm

/-- Rows may be added in two parts. -/
theorem Grown.trans {rows more : List (Row t i)} (h : y.Grown rows z) (h' : z.Grown more z') :
    y.Grown (rows ++ more) z' where
  params_eq := h'.params_eq.trans h.params_eq
  spec_eq := h'.spec_eq.trans h.spec_eq
  size_eq := by
    rw [h'.size_eq, h.size_eq, List.length_append, Nat.add_assoc]
  records_eq := by
    intro label hlt
    have hlt' : label < z.index.lists := by
      rwa [Index.lists, h.params_eq]
    rw [h'.records_eq label hlt', h.records_eq label hlt, h.size_eq, dealt_append,
      List.append_assoc]

/-- A batch that an index takes is whole, and the index grows by its rows and stays in order. -/
theorem grown_add (hy : y.Sound refs) {b : Batch t i} (hadd : b.add y = .ok () z) :
    (∃ n, b.Whole y.index.dim n) ∧ z.Sound refs ∧ y.Grown (b.rows y.index.dim) z := by
  obtain ⟨x, s⟩ := y
  have hx : x.Sound s := hy.index
  have hdim : 0 < x.dim := x.spec.layout.dim_pos
  unfold Batch.add at hadd
  rcases Index.extend_cases hx hy.accounts b.assigner b.vectors b.ids with
    ⟨e, s', hrun, -⟩ | ⟨ids, labels, x', s', hrun, haccepted, hextended, hx', hacc', -⟩
  · rw [hrun] at hadd
    cases hadd
  · rw [hrun] at hadd
    cases hadd
    refine ⟨⟨_, haccepted.whole⟩, ⟨hx', hacc'⟩, hextended.params_eq, hextended.spec_eq, ?_, ?_⟩
    · rw [haccepted.whole.length_rows hdim]
      exact hextended.size_eq hx haccepted.size_vectors haccepted.size_ids haccepted.label_lt
    · intro label hlt
      obtain ⟨id, l, hid, hl, -⟩ := hx.listed hlt
      obtain ⟨id', l', hid', hl', hreceives⟩ := hextended.list label id l hid hl
      rw [records_eq hid' hl', records_eq hid hl, hreceives.published_eq,
        Index.received_eq_dealt hdim haccepted]
      rfl

/-- An index that takes batches grows by their rows, and stays in order. -/
theorem grown_addAll (hy : y.Sound refs) {bs : List (Batch t i)}
    (hadd : Batch.addAll bs y = .ok () z) :
    z.Sound refs ∧ y.Grown (bs.flatMap (Batch.rows y.index.dim)) z := by
  induction bs generalizing y with
  | nil =>
      cases hadd
      exact ⟨hy, Grown.refl _⟩
  | cons b rest ih =>
      obtain ⟨_, y', hfirst, hrest⟩ := Action.bind_eq_ok.mp hadd
      obtain ⟨-, hy', hgrown⟩ := grown_add hy hfirst
      obtain ⟨hz, hmore⟩ := ih hy' hrest
      rw [Index.dim, hgrown.spec_eq, ← Index.dim] at hmore
      exact ⟨hz, hgrown.trans hmore⟩

/-- An index that grew by the same rows looks the same, whichever way they were added. -/
theorem Grown.alike {rows : List (Row t i)} (h : y.Grown rows z) (h' : y.Grown rows z')
    (hz : z.Sound refs) (hz' : z'.Sound refs') : z.Alike z' where
  params_eq := h'.params_eq.trans h.params_eq.symm
  spec_eq := h'.spec_eq.trans h.spec_eq.symm
  list := by
    intro label hlt
    have hlists : z'.index.lists = z.index.lists := by
      rw [Index.lists, Index.lists, h'.params_eq, h.params_eq]
    have hlt' : label < y.index.lists := by
      rwa [Index.lists, ← h.params_eq]
    obtain ⟨id, l, hid, hl, hspec, htight⟩ := hz.index.listed hlt
    obtain ⟨id', l', hid', hl', hspec', htight'⟩ := hz'.index.listed (hlists ▸ hlt)
    have hpublished : l'.published = l.published := by
      rw [← OpenIndex.records_eq hid' hl', ← OpenIndex.records_eq hid hl,
        h'.records_eq label hlt', h.records_eq label hlt']
    refine ⟨_, l, _, l', hid, hl, hid', hl', ?_⟩
    apply InvertedList.alike_of_tight (hz.wellFormed hl) (hz'.wellFormed hl') htight htight'
    · rw [hspec', hspec, h'.spec_eq, h.spec_eq]
    · exact hpublished

/-- Two batches come to the same as one with the vectors, labels and ids of both. -/
theorem alike_of_joined (hy : y.Sound refs) {a b c : Batch t i}
    (hjoined : Batch.Joined y.index.dim a b c) {between : OpenIndex t i}
    (ha : a.add y = .ok () between) (hb : b.add between = .ok () z) (hc : c.add y = .ok () z') :
    z.Sound refs ∧ z'.Sound refs ∧ z.Alike z' := by
  have hdim : 0 < y.index.dim := y.index.spec.layout.dim_pos
  obtain ⟨⟨m, hfirst⟩, hbetween, hgrown⟩ := grown_add hy ha
  obtain ⟨⟨n, hsecond⟩, hz, hmore⟩ := grown_add hbetween hb
  obtain ⟨⟨total, hboth⟩, hz', hgrown'⟩ := grown_add hy hc
  rw [Index.dim, hgrown.spec_eq, ← Index.dim] at hsecond hmore
  rw [hjoined.rows_eq hdim hfirst hsecond hboth] at hgrown'
  exact ⟨hz, hz', (hgrown.trans hmore).alike hgrown' hz hz'⟩

/-- Batches with the same rows come to the same, wherever they end. -/
theorem alike_of_rows (hy : y.Sound refs) {bs cs : List (Batch t i)}
    (hrows : bs.flatMap (Batch.rows y.index.dim) = cs.flatMap (Batch.rows y.index.dim))
    (hb : Batch.addAll bs y = .ok () z) (hc : Batch.addAll cs y = .ok () z') :
    z.Sound refs ∧ z'.Sound refs ∧ z.Alike z' := by
  obtain ⟨hz, hgrown⟩ := grown_addAll hy hb
  obtain ⟨hz', hgrown'⟩ := grown_addAll hy hc
  rw [← hrows] at hgrown'
  exact ⟨hz, hz', hgrown.alike hgrown' hz hz'⟩

end OpenIndex

end InvertedFile
