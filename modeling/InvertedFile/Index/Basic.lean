import InvertedFile.Index.Params
import InvertedFile.InvertedList.View
import InvertedFile.Store.Basic

/-!
# Indexes

An index is a fixed number of lists, one for each label. It does not own its
lists: it holds each of them in a store, where others may hold them too, and
a list that has to grow is replaced by another one. An index together with
its store is an `OpenIndex`, on which the operations act.

Resetting an index replaces every list by an empty one. The lists it held
stay as they are for everybody else who holds them.
-/

namespace InvertedFile

/-- A fixed number of lists, by label. -/
structure Index where
  params : IndexParams
  spec : ListSpec
  slots : Array ListId
  deriving DecidableEq

/-- An index and the store that holds its lists. -/
structure OpenIndex (t : ElementType) (i : IdType) where
  index : Index
  store : Store t i

/-- An index that is in no store yet: its parameters, its spec and its lists. -/
structure LoadedIndex (t : ElementType) (i : IdType) where
  params : IndexParams
  spec : ListSpec
  lists : List (InvertedList t i)

namespace LoadedIndex

variable {t : ElementType} {i : IdType}

/-- An index of empty lists. The width of a chunk is the widest one unless the parameters say
otherwise. -/
def new (t : ElementType) (i : IdType) (params : IndexParams) (dim : UInt32) :
    Except Error (LoadedIndex t i) :=
  if params.lists = 0 then .error (.invalid .noLists)
  else
    let veclen := params.veclen.getD (UInt32.ofNat (widestVeclen t dim.toNat))
    match ListSpec.ofWidths dim veclen params.growth with
    | .error cause => .error (.invalid (.layout cause))
    | .ok spec =>
        .ok { params, spec, lists := List.replicate params.lists.toNat (.empty t i spec) }

/-- Gives the lists of an index to a store, which then holds them for it. -/
def install (x : LoadedIndex t i) : Action (Store t i) Index := do
  let slots ← x.lists.mapM Store.insert
  return { params := x.params, spec := x.spec, slots := slots.toArray }

end LoadedIndex

namespace Index

variable {t : ElementType} {i : IdType}

/-- Columns of a vector. -/
def dim (x : Index) : Nat :=
  x.spec.dim

/-- Columns of a chunk. -/
def veclen (x : Index) : Nat :=
  x.spec.veclen

/-- The number of lists the index was made with. -/
def lists (x : Index) : Nat :=
  x.params.lists.toNat

/-- The name of the list of a label. -/
def slot (x : Index) (label : Nat) : Except Error ListId :=
  match x.slots[label]? with
  | some id => .ok id
  | none => .error (.outOfBounds .clusterLabel (label + 1) x.slots.size)

/-- The published size of each list. -/
def sizes (x : Index) (s : Store t i) : List Nat :=
  x.slots.toList.map fun id => ((s.list? id).map (·.size)).getD 0

/-- All published records. -/
def size (x : Index) (s : Store t i) : Nat :=
  (x.sizes s).foldr (· + ·) 0

/-- An index in words. -/
def describe (x : Index) (s : Store t i) : String :=
  s!"Index \x7b params: {x.params.describe}, dim: {x.dim}, veclen: {x.veclen}, " ++
    s!"size: {x.size s} \x7d"

/-- Copies the records of one list, from record `start` on, over a batch of flat records, as many as
it holds. -/
def unpack (x : Index) (s : Store t i) (label start : Nat) : Action (Array (Word t)) Unit := do
  let id ← Action.ofExcept (x.slot label)
  match s.list? id with
  | none => throw (.fault .unknownList)
  | some l => l.view.unpack start

theorem unpack_of_list {x : Index} {s : Store t i} {label : Nat} {id : ListId}
    {l : InvertedList t i} (hid : x.slot label = .ok id) (hl : s.list? id = some l) (start : Nat) :
    x.unpack s label start = l.view.unpack start := by
  funext out
  simp only [unpack, hid, bind, EStateM.bind, Action.ofExcept, hl]

theorem unpack_of_error {x : Index} {s : Store t i} {label : Nat} {e : Error}
    (h : x.slot label = .error e) (start : Nat) (out : Array (Word t)) :
    x.unpack s label start out = .error e out := by
  unfold unpack
  rw [h]
  rfl

/-- As many elements as asked for of the records of one list, from record `start` on. -/
def elements (x : Index) (s : Store t i) (label start length : Nat) :
    Except Error (Array (Word t)) :=
  match x.unpack s label start (Array.replicate length 0) with
  | .ok _ out => .ok out
  | .error e _ => .error e

/-- Lets go of the lists of an index. -/
def close (x : Index) (s : Store t i) : Store t i :=
  s.releaseAll x.slots.toList

/-- Puts a list in the place of the one a label has, which the index then lets go of. -/
def replaceSlot (label : Nat) (id : ListId) : Action (OpenIndex t i) Unit := do
  let old ← Action.ofExcept ((← get).index.slot label)
  modify fun x =>
    { index := { x.index with slots := x.index.slots.setIfInBounds label id }
      store := x.store.release old }

/-- An action on the store of an open index. -/
def stored {α : Type} (act : Action (Store t i) α) : Action (OpenIndex t i) α :=
  fun ⟨index, store⟩ =>
    match act store with
    | .ok a store => .ok a { index, store }
    | .error e store => .error e { index, store }

/-- Replaces every list by an empty one. -/
def reset : Action (OpenIndex t i) Unit := do
  let x := (← get).index
  (List.range x.slots.size).forM fun label => do
    let id ← stored (Store.insert (.empty t i x.spec))
    replaceSlot label id

end Index

end InvertedFile
