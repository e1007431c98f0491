import InvertedFile.Index.Assigner
import InvertedFile.Index.Params
import InvertedFile.InvertedList.Basic
import InvertedFile.Workspace.Reading

/-!
# Steps of a workspace

What can be asked of a workspace, in which lists, indexes and blobs have
names. A step says the names and the arguments of one operation; nothing in
it has been checked yet.

A step may stand in for a whole run of others: to hold a list and a view of
it while the steps of the run are carried out.
-/

namespace InvertedFile

/-- The widths of a spec and the way to grow, as they were asked for. -/
structure SpecRequest where
  dim : UInt32
  veclen : UInt32
  growth : Growth
  deriving DecidableEq

namespace SpecRequest

/-- The spec that was asked for, if there is such a spec. -/
def spec (r : SpecRequest) : Except Error ListSpec :=
  match ListSpec.ofWidths r.dim r.veclen r.growth with
  | .ok spec => .ok spec
  | .error cause => .error (.invalid (.layout cause))

end SpecRequest

/-- What is done with the writer of a list. -/
inductive WriterStep (t : ElementType) (i : IdType) where
  | pack (codes : Array (Word t)) (start : Nat)
  | writeIds (ids : Array (Id i)) (start : Nat)
  | publish (size : Nat)
  | append (codes : Array (Word t)) (ids : Array (Id i))
  /-- Tries to take a second writer. -/
  | takeWriter
  | contents

/-- What is asked about a list. -/
inductive ListQuery where
  | info
  | contents
  | describe
  | record (p : Nat)
  | chunk (p c : Nat)
  | elements (start length : Nat)

/-- What is asked about an index. -/
inductive IndexQuery where
  | info
  | describe
  | elements (label start length : Nat)
  | contents

/-- Where a file lies that an index is saved to and loaded from. -/
inductive FilePlace where
  | regular
  | noSuchFile
  | noSuchFolder
  deriving DecidableEq, Repr

/-- An operation of a workspace. -/
inductive Step (t : ElementType) (i : IdType) where
  | memory
  | create (list : String) (spec : SpecRequest) (records : Nat)
  | createEmpty (list : String) (spec : SpecRequest)
  | share (list name : String)
  | drop (list : String)
  | same (list other : String)
  | query (list : String) (q : ListQuery)
  | write (list : String) (steps : List (WriterStep t i))
  | setSize (list : String) (size : Nat)
  | raw (list : String)
  | poke (list : String) (start : Nat) (data : Array (Word t)) (ids : Array (Id i))
  | resize (list : String) (spec : SpecRequest) (records used : Nat)
  | save (list : String) (store : SpecRequest) (length : Option UInt32) (room : Option Nat)
      (blob : Option String)
  | load (list : String) (source : Reading) (store device : SpecRequest)
  | createIndex (index : String) (dim : UInt32) (params : IndexParams)
  | queryIndex (index : String) (q : IndexQuery)
  | dropIndex (index : String)
  | extend (index : String) (vectors : Array (Word t)) (ids : Option (Array (Id i)))
      (assigner : Assigner t)
  | snapshot (index : String) (label : Nat) (list : String)
  | reset (index : String)
  | saveIndex (index : String) (room : Option Nat) (blob : Option String)
  | loadIndex (index : String) (source : Reading)
  | throughFile (index : String) (place : FilePlace) (edits : Edits) (name : String)

/-- A step, or a run of steps for which a list and a view of it are held. -/
inductive Command (t : ElementType) (i : IdType) where
  | step (s : Step t i)
  | hold (list : String) (steps : List (Command t i))

end InvertedFile
