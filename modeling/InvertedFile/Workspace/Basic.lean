import InvertedFile.Index.Basic
import InvertedFile.Workspace.Answer

/-!
# Workspaces

A workspace is a store with names for what is in it: for lists, of which
several names may hold the same one, for indexes, and for blobs, which are
strings of bytes. A name holds what it stands for. When something else is put
under a name, what the name held before is let go afterwards.
-/

namespace InvertedFile

/-- Names for values of some kind, each at most once. -/
abbrev Names (α : Type) : Type :=
  List (String × α)

namespace Names

variable {α : Type}

/-- What a name stands for. -/
def find? (names : Names α) (name : String) : Option α :=
  names.lookup name

/-- A name that stands for nothing. -/
def erase (names : Names α) (name : String) : Names α :=
  names.filter fun entry => entry.1 ≠ name

/-- A name that stands for a value. -/
def put (names : Names α) (name : String) (value : α) : Names α :=
  (name, value) :: names.erase name

end Names

/-- A store with names for what is in it. -/
structure Workspace (t : ElementType) (i : IdType) where
  store : Store t i
  lists : Names ListId
  indexes : Names Index
  blobs : Names Bytes

/-- An operation of a workspace. -/
abbrev Run (t : ElementType) (i : IdType) (α : Type) : Type :=
  EStateM Failure (Workspace t i) α

namespace Workspace

variable {t : ElementType} {i : IdType} {α : Type}

/-- A workspace in which no name stands for anything. -/
def new (t : ElementType) (i : IdType) (limit : Option Nat) : Workspace t i where
  store := .new t i limit
  lists := []
  indexes := []
  blobs := []

/-- A computation that may fail, as an operation. -/
def check (x : Except Error α) : Run t i α :=
  match x with
  | .ok a => pure a
  | .error e => throw (.error e .nothing)

/-- An action on a part of the workspace. A failure tells what it left to see. -/
def attempt {σ : Type} (part : Workspace t i → σ) (put : Workspace t i → σ → Workspace t i)
    (act : Action σ α) (remains : Workspace t i → σ → Remains) : Run t i α := fun w =>
  match act (part w) with
  | .ok a s => .ok a (put w s)
  | .error e s => .error (.leaving e (remains (put w s) s)) (put w s)

/-- An action on the store. -/
def stored (act : Action (Store t i) α) : Run t i α :=
  attempt Workspace.store (fun w store => { w with store }) act fun _ _ => .nothing

/-- What a name stands for, if it stands for anything. -/
def named {β : Type} (names : Workspace t i → Names β) (name : String) : Run t i β := do
  match (names (← get)).find? name with
  | some value => return value
  | none => throw .missing

/-- The list of a name. -/
def listNamed (name : String) : Run t i (ListId × InvertedList t i) := do
  let id ← named Workspace.lists name
  let h ← stored (Store.holding id)
  return (id, h.list)

/-- Puts a list that is held for it under a name. -/
def putList (name : String) (id : ListId) (w : Workspace t i) : Workspace t i :=
  let w' := { w with lists := w.lists.put name id }
  match w.lists.find? name with
  | none => w'
  | some old => { w' with store := w.store.release old }

/-- Puts an index that is held for it under a name. -/
def putIndex (name : String) (x : Index) (w : Workspace t i) : Workspace t i :=
  let w' := { w with indexes := w.indexes.put name x }
  match w.indexes.find? name with
  | none => w'
  | some old => { w' with store := old.close w.store }

/-- Puts bytes under a name, if there is one. -/
def putBlob (name : Option String) (bytes : Bytes) (w : Workspace t i) : Workspace t i :=
  match name with
  | none => w
  | some name => { w with blobs := w.blobs.put name bytes }

/-- An index without its records. -/
def indexInfo (w : Workspace t i) (x : Index) : IndexInfo where
  params := x.params
  spec := x.spec
  sizes := x.sizes w.store

end Workspace

end InvertedFile
