import InvertedFile.Index.Assigner
import InvertedFile.Index.Basic
import InvertedFile.Store.Resize

/-!
# Extending an index

Adding a batch of vectors. The assigner gives a label for each vector, and
the rows of the batch go behind the published records of the list of their
label, in the order of the batch. Ids are those given or, without any, the
numbers from the size of the index on.

The batch is looked over first. Then every list that receives rows is given
room for them, in the order of the labels, and only when all of them have
room are the rows written. A list without room is not touched: the rows and
what it held go into a new list, which takes its place in the index when the
rows are in it. So a batch is added as a whole or not at all.

## Main results

* `toList_rowsByLabel` — the rows that are filed under a label are the rows
  with that label, in the order of the batch.
* `portions_rowsByLabel` — there is a portion for each label that a row has.
-/

namespace InvertedFile.Index

variable {t : ElementType} {i : IdType}

/-- The rows of a batch that go to one list. -/
structure Portion (t : ElementType) (i : IdType) where
  label : Nat
  codes : Array (Word t)
  ids : Array (Id i)

/-- A portion and the list that has room for it, which is held for the extension. -/
structure Staged (t : ElementType) (i : IdType) where
  portion : Portion t i
  list : ListId

/-- The ids of `n` rows behind the first `base` records. -/
def defaultIds (i : IdType) (base n : Nat) : Except Error (Array (Id i)) := do
  let ids ← (List.range n).mapM fun k =>
    match Id.ofNat? i (base + k) with
    | some id => Except.ok id
    | none => Except.error (Error.invalid (.idTooLarge (base + k)))
  return ids.toArray

/-- The number of vectors in a batch, which holds whole vectors only. -/
def batchRows (elements dim : Nat) : Except Error Nat :=
  if elements % dim ≠ 0 then .error (.invalid (.partialVectors elements dim))
  else .ok (elements / dim)

/-- The ids of a batch: those given, if they are as many as the vectors, or the default ones. -/
def batchIds (ids : Option (Array (Id i))) (base rows : Nat) : Except Error (Array (Id i)) :=
  match ids with
  | none => defaultIds i base rows
  | some ids =>
      if ids.size = rows then .ok ids else .error (.invalid (.idsForVectors ids.size rows))

/-- There is a label for each vector, and each label has a list. -/
def checkLabels (lists rows : Nat) (labels : Array Nat) : Except Error Unit := do
  ensure (labels.size = rows) (.invalid (.assignedLabels labels.size rows))
  labels.toList.forM fun label =>
    ensure (label < lists) (.outOfBounds .clusterLabel (label + 1) lists)

/-- The rows with a label, in the order of the batch. -/
def rowsOf (labels : Array Nat) (label : Nat) : List Nat :=
  (List.range labels.size).filter fun row => labels[row]? = some label

/-- The rows of each label, in the order of the batch. -/
def rowsByLabel (lists : Nat) (labels : Array Nat) : Array (List Nat) :=
  (List.range labels.size).foldr
    (fun row filed =>
      match labels[row]? with
      | none => filed
      | some label => filed.modify label (row :: ·))
    (Array.replicate lists [])

theorem getElem?_rowsByLabel (lists : Nat) (labels : Array Nat) (label : Nat) :
    (rowsByLabel lists labels)[label]? =
      if label < lists then some (rowsOf labels label) else none := by
  unfold rowsByLabel rowsOf
  induction List.range labels.size with
  | nil => simp [Array.getElem?_replicate]
  | cons row rest ih =>
      rw [List.foldr_cons, List.filter_cons]
      cases hrow : labels[row]? with
      | none => simpa using ih
      | some l =>
          rw [Array.getElem?_modify, ih]
          by_cases hl : l = label <;> by_cases hlt : label < lists <;> simp [hl, hlt]

theorem toList_rowsByLabel (lists : Nat) (labels : Array Nat) :
    (rowsByLabel lists labels).toList = (List.range lists).map (rowsOf labels) := by
  apply List.ext_getElem?
  intro label
  rw [Array.getElem?_toList, getElem?_rowsByLabel, List.getElem?_map]
  by_cases h : label < lists <;> simp [h]

/-- A list with so many records more has a size that is a record count. -/
def checkSize (size more : Nat) : Except Error Unit :=
  ensure (size + more < countLimit) (.outOfBounds .listSize (size + more) (countLimit - 1))

/-- No list grows beyond the greatest record count. -/
def checkSizes (sizes : List Nat) (filed : Array (List Nat)) : Except Error Unit :=
  (sizes.zip filed.toList).forM fun (size, rows) => checkSize size rows.length

/-- The columns of one row of a batch. -/
def rowCodes (dim : Nat) (vectors : Array (Word t)) (row : Nat) : List (Word t) :=
  (vectors.extract (row * dim) ((row + 1) * dim)).toList

/-- The rows of a batch that go to one list, with their ids. -/
def portion (dim : Nat) (vectors : Array (Word t)) (ids : Array (Id i)) (label : Nat)
    (rows : List Nat) : Portion t i where
  label := label
  codes := (rows.flatMap (rowCodes dim vectors)).toArray
  ids := (rows.filterMap fun row => ids[row]?).toArray

/-- The parts of a batch, one for each list that receives any of it. -/
def portions (dim : Nat) (vectors : Array (Word t)) (ids : Array (Id i))
    (filed : Array (List Nat)) : List (Portion t i) :=
  (filed.toList.zipIdx.filter fun entry => entry.1 ≠ []).map fun entry =>
    portion dim vectors ids entry.2 entry.1

theorem portions_rowsByLabel (lists dim : Nat) (vectors : Array (Word t)) (ids : Array (Id i))
    (labels : Array Nat) :
    portions dim vectors ids (rowsByLabel lists labels) =
      ((List.range lists).filter fun label => rowsOf labels label ≠ []).map fun label =>
        portion dim vectors ids label (rowsOf labels label) := by
  have hentries : (rowsByLabel lists labels).toList.zipIdx =
      (List.range lists).map fun label => (rowsOf labels label, label) := by
    apply List.ext_getElem?
    intro label
    rw [toList_rowsByLabel, List.getElem?_zipIdx]
    by_cases h : label < lists <;> simp [h]
  rw [portions, hentries, List.filter_map, List.map_map]
  rfl

/-- Makes room for a portion, in the list of its label or in a new one, and holds that list. -/
def stage (x : Index) (p : Portion t i) : Action (Store t i) (Staged t i) := do
  let id ← Action.ofExcept (x.slot p.label)
  let size := (← Store.holding id).list.size
  modify (Store.hold id)
  Action.undoing (Store.release id) do
    let list ← Store.resize id x.spec (size + p.ids.size) size
    return { portion := p, list }

/-- Makes room for every portion. When one finds none, the lists held for the others are let go. -/
def stageAll (x : Index) : List (Portion t i) → Action (Store t i) (List (Staged t i))
  | [] => pure []
  | p :: rest => do
      let staged ← stage x p
      let more ← Action.undoing (Store.release staged.list) (stageAll x rest)
      return staged :: more

/-- Writes a portion into the list that has room for it, through the writer of the list, and gives
the list its label. -/
def place (s : Staged t i) : Action (OpenIndex t i) Unit := do
  let _ ← stored (Store.withWriter s.list
    (Store.onList s.list (InvertedList.append s.portion.codes s.portion.ids)))
  modify fun x => { x with store := x.store.hold s.list }
  replaceSlot s.portion.label s.list

/-- Writes all portions and lets go of the lists held for them. -/
def placeAll (staged : List (Staged t i)) : Action (OpenIndex t i) Unit :=
  Action.closing (fun x => { x with store := x.store.releaseAll (staged.map (·.list)) })
    (staged.forM place)

/-- Adds a batch of flat vectors. -/
def extend (assigner : Assigner t) (vectors : Array (Word t)) (ids : Option (Array (Id i))) :
    Action (OpenIndex t i) Unit := do
  let x ← get
  let dim := x.index.dim
  let rows ← Action.ofExcept (batchRows vectors.size dim)
  if rows = 0 then return ()
  else
    let ids ← Action.ofExcept (batchIds ids (x.index.size x.store) rows)
    let labels := (← Action.ofExcept (assigner vectors dim)).map UInt32.toNat
    Action.ofExcept (checkLabels x.index.slots.size rows labels)
    let filed := rowsByLabel x.index.slots.size labels
    Action.ofExcept (checkSizes (x.index.sizes x.store) filed)
    let staged ← stored (stageAll x.index (portions dim vectors ids filed))
    placeAll staged

end InvertedFile.Index
