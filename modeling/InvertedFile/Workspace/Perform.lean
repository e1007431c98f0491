import InvertedFile.Index.Extend
import InvertedFile.Index.Image
import InvertedFile.Workspace.Basic
import InvertedFile.Workspace.Step

/-!
# Carrying out the steps of a workspace

Each step is an operation on the workspace, made of the operations of lists,
indexes and stores. A failing step may leave something behind, and tells what;
the steps after it go on from there. `Workspace.run` carries out a sequence of
commands and tells what came of each and how many bytes were in use after it.
-/

namespace InvertedFile.Workspace

variable {t : ElementType} {i : IdType} {α : Type}

/-- Saves something of the store to a sink and tells what has reached it. A failure leaves that to
see as well. -/
def writing (room : Option Nat) (act : Action (Saving t i) Unit) : Run t i Bytes :=
  attempt (fun w => { store := w.store, sink := .empty room })
    (fun w s => { w with store := s.store })
    (do
      act
      return (← get).sink.written)
    (fun _ s => .written s.sink.written)

/-- Reads from a source with the budget of the store, and tells how many bytes were read. -/
def reading (source : Source) (act : Action (Transfer Source) α) : Run t i (α × Nat) :=
  attempt (fun w => { budget := w.store.budget, stream := source })
    (fun w s => { w with store := { w.store with budget := s.budget } })
    (do
      let a ← act
      return (a, source.bytes.length - (← get).stream.bytes.length))
    (fun _ _ => .nothing)

/-- The source of a reading. -/
def sourceOf (r : Reading) : Run t i Source := do
  let bytes ←
    match r.origin with
    | .given bytes => pure bytes
    | .blob name => named Workspace.blobs name
  return Source.upTo (r.edits.apply bytes) r.failAt

/-! ## Lists -/

/-- Takes in a list under a name. -/
def keepList (name : String) (l : InvertedList t i) : Run t i ListInfo := do
  let id ← stored (Store.insert l)
  modify (putList name id)
  return l.info

/-- What a question about a list is answered. -/
def answerQuery (l : InvertedList t i) : ListQuery → Except Error (Answer t i)
  | .info => .ok (.info l.info)
  | .contents => l.view.contents.map .contents
  | .describe => .ok (.text l.describe)
  | .record p => (l.view.record p).map .words
  | .chunk p c => (l.view.chunk p c).map .words
  | .elements start length => (l.view.elements start length).map .words

/-- One step with the writer of a list. -/
def performWriterStep (id : ListId) : WriterStep t i → Action (Store t i) (WriterAnswer t i)
  | .pack codes start => do
      Store.onList id (InvertedList.pack codes start)
      return .written (← Store.holding id).list.size
  | .writeIds ids start => do
      Store.onList id (InvertedList.writeIds ids start)
      return .written (← Store.holding id).list.size
  | .publish size => do
      Store.onList id (InvertedList.publish size)
      return .written (← Store.holding id).list.size
  | .append codes ids => do
      return .appended (← Store.onList id (InvertedList.append codes ids))
  | .takeWriter => do
      return .flag (← Store.takeWriter id)
  | .contents => do
      let l := (← Store.holding id).list
      return .contents (← Action.ofExcept l.view.contents)

/-- Steps with the writer of a list, each from where the one before it ended. -/
def performWriterSteps (id : ListId) :
    List (WriterStep t i) → Store t i →
      List (Except Error (WriterAnswer t i)) × Store t i
  | [], s => ([], s)
  | step :: rest, s =>
      match performWriterStep id step s with
      | .ok a s =>
          let (more, s) := performWriterSteps id rest s
          (.ok a :: more, s)
      | .error e s =>
          let (more, s) := performWriterSteps id rest s
          (.error e :: more, s)

/-- Takes the writer of a list, carries out steps with it and puts it back. -/
def write (name : String) (steps : List (WriterStep t i)) : Run t i (Answer t i) := do
  let (id, _) ← listNamed name
  let _ ← stored (Store.takeWriter id)
  let outcomes ← stored (modifyGet (performWriterSteps id steps))
  modify fun w => { w with store := w.store.putWriter id }
  let (_, l) ← listNamed name
  return .written outcomes l.size ((← get).store.writerIsFree id)

/-- An action for which a list must have no other holder. -/
def unshared (name : String) (act : Action (InvertedList t i) α)
    (answer : InvertedList t i → α → Answer t i) : Run t i (Answer t i) := do
  let (id, _) ← listNamed name
  match ← stored (Store.onUnshared id act) with
  | none => return .shared
  | some a =>
      let (_, l) ← listNamed name
      return answer l a

/-- What is held after a resize. -/
def remainsOfResize (name : String) (before : ListId) (w : Workspace t i) : Remains :=
  match w.lists.find? name with
  | none => .nothing
  | some id =>
      match w.store.list? id with
      | none => .nothing
      | some l => .list (id ≠ before) l.info

/-- Resizes the list of a name. -/
def resize (name : String) (request : SpecRequest) (records used : Nat) :
    Run t i (Answer t i) := do
  let spec ← check request.spec
  let (before, _) ← listNamed name
  let after ← attempt Workspace.store (fun w store => { w with store })
    (Store.resize before spec records used) (fun w _ => remainsOfResize name before w)
  modify fun w => { w with lists := w.lists.put name after }
  let (_, l) ← listNamed name
  return .resized (after ≠ before) l.info

/-- Saves the list of a name. -/
def save (name : String) (request : SpecRequest) (length : Option UInt32) (room : Option Nat)
    (blob : Option String) : Run t i (Answer t i) := do
  let store ← check request.spec
  let (id, _) ← listNamed name
  let bytes ← writing room (Saving.writeList id store length)
  modify (putBlob blob bytes)
  return .bytes bytes

/-- Loads a list under a name. -/
def load (name : String) (r : Reading) (store device : SpecRequest) : Run t i (Answer t i) := do
  let source ← sourceOf r
  let store ← check store.spec
  let device ← check device.spec
  let (l, read) ← reading source (InvertedList.readRecord t i store device)
  return .loaded (← keepList name l) read

/-! ## Indexes -/

/-- Takes in an index under a name. -/
def keepIndex (name : String) (x : LoadedIndex t i) : Run t i IndexInfo := do
  let index ← stored x.install
  modify (putIndex name index)
  return (← get).indexInfo index

/-- The capacity and the contents of each list of an index. -/
def listContents (x : Index) (s : Store t i) : Except Error (List (Nat × Contents t i)) :=
  (List.range x.lists).mapM fun label => do
    let id ← x.slot label
    match s.list? id with
    | none => throw (.fault .unknownList)
    | some l => return (l.capacity, ← l.view.contents)

/-- What a question about an index is answered. -/
def answerIndexQuery (w : Workspace t i) (x : Index) : IndexQuery → Except Error (Answer t i)
  | .info => .ok (.indexInfo (w.indexInfo x))
  | .describe => .ok (.text (x.describe w.store))
  | .elements label start length => (x.elements w.store label start length).map .words
  | .contents => (listContents x w.store).map .lists

/-- An action on the index of a name. A failure tells the sizes of its lists. -/
def onIndex (name : String) (act : Action (OpenIndex t i) Unit) : Run t i Index := do
  let index ← named Workspace.indexes name
  attempt (fun w => ({ index, store := w.store } : OpenIndex t i))
    (fun w x => { w with store := x.store, indexes := w.indexes.put name x.index })
    act (fun _ x => .sizes (x.index.sizes x.store))
  named Workspace.indexes name

/-- Holds one list of an index under a name of its own. -/
def snapshot (index : String) (label : Nat) (name : String) : Run t i (Answer t i) := do
  let x ← named Workspace.indexes index
  let id ← check (x.slot label)
  let h ← stored (Store.holding id)
  modify fun w => putList name id { w with store := w.store.hold id }
  return .info h.list.info

/-- Saves an index. -/
def saveIndex (name : String) (room : Option Nat) : Run t i Bytes := do
  let x ← named Workspace.indexes name
  writing room x.save

/-- Loads an index under a name. -/
def loadIndex (name : String) (source : Source) : Run t i (IndexInfo × Nat) := do
  let (x, read) ← reading source (LoadedIndex.read t i)
  return (← keepIndex name x, read)

/-- Forgets what a failed operation left to see. -/
def withoutRemains (act : Run t i α) : Run t i α := fun w =>
  match act w with
  | .ok a w => .ok a w
  | .error (.error e _) w => .error (.error e .nothing) w
  | .error .missing w => .error .missing w

/-- Saves an index to a file, edits the file and loads it under another name. Where there is no
such file nothing is saved, and whether there is an index to save does not matter. -/
def throughFile (index : String) (place : FilePlace) (edits : Edits) (name : String) :
    Run t i (Answer t i) := do
  check (ensure (place ≠ .noSuchFile) (.io .noSuchFile))
  let _ ← named Workspace.indexes index
  check (ensure (place ≠ .noSuchFolder) (.io .noSuchFile))
  let file ← withoutRemains (saveIndex index none)
  let (info, _) ← loadIndex name { bytes := edits.apply file, ending := .endOfInput }
  return .throughFile file info

/-! ## Steps and commands -/

/-- Carries out one step. -/
def performStep : Step t i → Run t i (Answer t i)
  | .memory => do
      let b := (← get).store.budget
      return .memory b.inUse b.limit
  | .create name request records => do
      let spec ← check request.spec
      let l ← stored (Store.budgeted (InvertedList.create t i spec records))
      return .info (← keepList name l)
  | .createEmpty name request => do
      let spec ← check request.spec
      return .info (← keepList name (.empty t i spec))
  | .share name other => do
      let id ← named Workspace.lists name
      modify fun w => putList other id { w with store := w.store.hold id }
      return .flag true
  | .drop name => do
      match (← get).lists.find? name with
      | none => return .flag false
      | some id =>
          modify fun w => { w with lists := w.lists.erase name, store := w.store.release id }
          return .flag true
  | .same name other => do
      let id ← named Workspace.lists name
      let id' ← named Workspace.lists other
      return .flag (id = id')
  | .query name q => do
      let (_, l) ← listNamed name
      check (answerQuery l q)
  | .write name steps => write name steps
  | .setSize name size =>
      unshared name (InvertedList.setSize size) fun l _ => .info l.info
  | .raw name => unshared name get fun _ l => .raw l.data l.ids
  | .poke name start data ids =>
      unshared name (InvertedList.poke start data ids) fun _ _ => .flag true
  | .resize name request records used => resize name request records used
  | .save name request length room blob => save name request length room blob
  | .load name source store device => load name source store device
  | .createIndex name dim params => do
      let x ← check (LoadedIndex.new t i params dim)
      return .indexInfo (← keepIndex name x)
  | .queryIndex name q => do
      let x ← named Workspace.indexes name
      check (answerIndexQuery (← get) x q)
  | .dropIndex name => do
      match (← get).indexes.find? name with
      | none => return .flag false
      | some x =>
          modify fun w => { w with indexes := w.indexes.erase name, store := x.close w.store }
          return .flag true
  | .extend name vectors ids assigner => do
      let x ← onIndex name (Index.extend assigner vectors ids)
      return .sizes (x.sizes (← get).store)
  | .snapshot index label name => snapshot index label name
  | .reset name => do
      let x ← onIndex name Index.reset
      return .indexInfo ((← get).indexInfo x)
  | .saveIndex name room blob => do
      let bytes ← saveIndex name room
      modify (putBlob blob bytes)
      return .bytes bytes
  | .loadIndex name r => do
      let (info, read) ← loadIndex name (← sourceOf r)
      return .indexLoaded info read
  | .throughFile index place edits name => throughFile index place edits name

/-- What came of an operation, which is carried out from where the one before it ended. -/
def outcome (act : Run t i (Answer t i)) (w : Workspace t i) : Outcome t i × Workspace t i :=
  match act w with
  | .ok a w => (.done a w.store.budget.inUse, w)
  | .error f w => (.failed f w.store.budget.inUse, w)

mutual

/-- Carries out one command. For a run of commands, the list of a name is held, and what its view
from before the run shows is told after it. -/
def perform : Command t i → Run t i (Answer t i)
  | .step s => performStep s
  | .hold name steps => do
      let (id, l) ← listNamed name
      modify fun w => { w with store := w.store.hold id }
      let outcomes ← modifyGet (performAll steps)
      let h ← stored (Store.holding id)
      let contents := View.contents { list := h.list, size := l.size }
      modify fun w => { w with store := w.store.release id }
      return .held outcomes (← check contents)

/-- Carries out commands, each from where the one before it ended. -/
def performAll : List (Command t i) → Workspace t i → List (Outcome t i) × Workspace t i
  | [], w => ([], w)
  | c :: rest, w =>
      let (o, w) := outcome (perform c) w
      let (more, w) := performAll rest w
      (o :: more, w)

end

/-- Carries out commands in a new workspace and tells what came of each. -/
def run (limit : Option Nat) (commands : List (Command t i)) : List (Outcome t i) :=
  (performAll commands (new t i limit)).1

end InvertedFile.Workspace
