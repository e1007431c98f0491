import InvertedFile.Proofs.Workspace.Reached

/-!
# Sessions

A command of a workspace works on lists by their names and puts back what it
took before it ends. A program that uses the lists is freer than that. It may
have handles to lists that stand under no name, take and drop them whenever it
likes, resize a list through one of them, and do the steps of a writer one at
a time with anything else in between.

A **session** is a workspace together with the handles that are held besides
its names, and its events are all that can happen to it: a command, a step of
a writer, and what is done with a handle. Events are not assumed to succeed;
the next one goes on from where the last one ended, whatever came of it.

`Session.Sound` has the references that are held outside as a parameter. No
event knows of them, so what it keeps for them it keeps for every observer.

## Main results

* `after_kept` — an event keeps a session in order, and the lists that are held
  outside.
* `run_kept` — so does every sequence of events.
-/

namespace InvertedFile

open InvertedFile.Action

/-- A workspace, and the lists that are held besides its names, each as often as it is held. -/
structure Session (t : ElementType) (i : IdType) where
  workspace : Workspace t i
  handles : List ListId

/-- What can happen to a session. -/
inductive Event (t : ElementType) (i : IdType) where
  | command (c : Command t i)
  /-- One step with the writer of a list. -/
  | write (id : ListId) (step : WriterStep t i)
  | putWriter (id : ListId)
  /-- Takes a handle to a list, if it is there. -/
  | hold (id : ListId)
  /-- Drops a handle. -/
  | release (id : ListId)
  /-- Resizes the list of a handle, which leads to what comes of it afterwards. -/
  | resize (id : ListId) (spec : ListSpec) (records used : Nat)

namespace Session

variable {t : ElementType} {i : IdType}

/-- A session in which nothing has happened. -/
def new (t : ElementType) (i : IdType) (limit : Option Nat) : Session t i where
  workspace := .new t i limit
  handles := []

/-- The store of the workspace. -/
def store (s : Session t i) : Store t i :=
  s.workspace.store

/-- The lists that are held, by a name or by a handle, each as often as it is held. -/
def refs (s : Session t i) : List ListId :=
  s.workspace.refs ++ s.handles

/-- The same names, over another store. -/
def withStore (s : Session t i) (store : Store t i) (handles : List ListId) : Session t i where
  workspace := { s.workspace with store }
  handles := handles

/-- The session after an event, whatever came of it. -/
def after (s : Session t i) : Event t i → Session t i
  | .command c => { s with workspace := final (Workspace.perform c) s.workspace }
  | .write id step => s.withStore (final (Workspace.performWriterStep id step) s.store) s.handles
  | .putWriter id => s.withStore (s.store.putWriter id) s.handles
  | .hold id =>
      if (s.store.find? id).isSome then s.withStore (s.store.hold id) (id :: s.handles) else s
  | .release id =>
      if id ∈ s.handles then s.withStore (s.store.release id) (s.handles.erase id) else s
  | .resize id spec records used =>
      if id ∈ s.handles then
        match Store.resize id spec records used s.store with
        | .ok new store => s.withStore store (new :: s.handles.erase id)
        | .error _ store => s.withStore store s.handles
      else s

/-- The session after a sequence of events. -/
def run (s : Session t i) (events : List (Event t i)) : Session t i :=
  events.foldl after s

theorem run_append (s : Session t i) (events more : List (Event t i)) :
    s.run (events ++ more) = (s.run events).run more :=
  List.foldl_append

/-! ## Sessions in order -/

/-- The names and the handles hold the lists of the store, together with those who hold `kept`. -/
def Sound (s : Session t i) (kept : List ListId) : Prop :=
  s.workspace.Sound (s.handles ++ kept) 0

/-- A session is in order again, over a budget of the same limit, and those who hold `kept` still
have their lists. -/
structure Kept (s : Session t i) (kept : List ListId) (s' : Session t i) : Prop where
  sound : s'.Sound kept
  keeps : Store.Keeps kept s.store s'.store
  limit_eq : s'.store.budget.limit = s.store.budget.limit

theorem sound_new (limit : Option Nat) : (new t i limit).Sound [] :=
  Workspace.sound_new limit

section Kept

variable {s s' s'' : Session t i} {kept : List ListId}

theorem Kept.refl (h : s.Sound kept) : s.Kept kept s :=
  ⟨h, Store.Keeps.refl _ _, rfl⟩

theorem Kept.trans (h : s.Kept kept s') (h' : s'.Kept kept s'') : s.Kept kept s'' :=
  ⟨h'.sound, h.keeps.trans h'.keeps, h'.limit_eq.trans h.limit_eq⟩

/-- What keeps the workspace in order for the handles keeps the session in order. -/
theorem Kept.of_workspace {w : Workspace t i}
    (h : s.workspace.Kept (s.handles ++ kept) w) : s.Kept kept { s with workspace := w } :=
  ⟨h.sound, h.keeps.mono fun _ hid => List.mem_append_right _ hid, h.limit_eq⟩

/-- A handle stands among all references with the others behind it. -/
theorem Sound.split (h : s.Sound kept) {id : ListId} (hid : id ∈ s.handles) :
    s.workspace.Sound (id :: (s.handles.erase id ++ kept)) 0 := by
  apply h.congr
  intro other
  rw [← List.cons_append]
  exact ((List.perm_cons_erase hid).append_right kept).symm.count_eq other

theorem hold_kept (h : s.Sound kept) (id : ListId) : s.Kept kept (s.after (.hold id)) := by
  rw [after]
  split
  · next hfound =>
      obtain ⟨holding, hfind⟩ := Option.isSome_iff_exists.mp hfound
      obtain ⟨hsound, hkeeps, hlimit⟩ := Workspace.Sound.hold h (h.accounts.mem hfind)
      exact ⟨hsound, hkeeps.mono fun _ hid => List.mem_append_right _ hid, hlimit⟩
  · exact Kept.refl h

theorem release_kept (h : s.Sound kept) (id : ListId) : s.Kept kept (s.after (.release id)) := by
  rw [after]
  split
  · next hid =>
      have hreleased := (h.split hid).release
      exact ⟨hreleased.sound, hreleased.keeps.mono fun _ hid => List.mem_append_right _ hid,
        hreleased.limit_eq⟩
  · exact Kept.refl h

theorem resize_kept (h : s.Sound kept) (id : ListId) (spec : ListSpec) (records used : Nat) :
    s.Kept kept (s.after (.resize id spec records used)) := by
  rw [after]
  split
  · next hid =>
      have hsplit := h.split hid
      have hacc : s.store.Accounts (id :: (s.workspace.refs ++ (s.handles.erase id ++ kept))) 0 :=
        hsplit.accounts.congr fun other => by
          simp only [List.count_append, List.count_cons]
          omega
      rcases Store.resize_accounts hacc spec records used with
        ⟨e, hrun⟩ | ⟨new, store, hrun, hnew, hleaves, hlimit⟩
      · rw [hrun]
        exact Kept.refl h
      · rw [hrun]
        have hothers := hleaves.mono fun other hother => List.mem_append_left _ hother
        have hsound : ({ s.workspace with store } : Workspace t i).Sound
            (new :: (s.handles.erase id ++ kept)) 0 := by
          refine h.withStore (hnew.congr fun other => ?_) hothers.keeps
          simp only [List.count_append, List.count_cons]
          omega
        exact ⟨hsound, (hleaves.mono fun other hother =>
          List.mem_append_right _ (List.mem_append_right _ hother)).keeps, hlimit⟩
  · exact Kept.refl h

/-- An event keeps a session in order, and the lists that are held outside. -/
theorem after_kept (h : s.Sound kept) (e : Event t i) : s.Kept kept (s.after e) := by
  cases e with
  | command c => exact .of_workspace (Workspace.perform_kept h c)
  | write id step =>
      exact .of_workspace (Workspace.Sound.worked h
        (Workspace.leads_performWriterStep id step s.store).final)
  | putWriter id =>
      exact .of_workspace (Workspace.Sound.worked h (Store.worked_putWriter id s.store))
  | hold id => exact hold_kept h id
  | release id => exact release_kept h id
  | resize id spec records used => exact resize_kept h id spec records used

/-- Events keep a session in order, one after the other. -/
theorem run_kept (h : s.Sound kept) (events : List (Event t i)) :
    s.Kept kept (s.run events) := by
  induction events generalizing s with
  | nil => exact Kept.refl h
  | cons e rest ih =>
      have hone := after_kept h e
      exact hone.trans (ih hone.sound)

end Kept

end Session

end InvertedFile
