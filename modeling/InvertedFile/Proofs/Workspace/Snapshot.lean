import InvertedFile.Proofs.InvertedList.View
import InvertedFile.Proofs.Workspace.Session

/-!
# Snapshots

Who holds a reference to a list has it for as long as he holds it. Others may
write to the list, resize it through handles of their own, extend or reset the
index it belongs to, or drop all they have; the list stays in the store, and
whatever happens to it happens behind the records that are published.

So a view is a snapshot. Read at any later time, it shows what it showed when
it was taken, down to the records of a group that was then published in part
and has been filled since.

## Main results

* `perform_hold` — a command that holds a list tells what there was before it.
* `keeping_sound` — a reference that is held outside of a session.
* `snapshot_immutable` — what is seen through it never changes, and the
  published size never falls.
-/

namespace InvertedFile

open InvertedFile.Action

variable {t : ElementType} {i : IdType}

namespace Workspace

/-- Whatever commands are carried out while a list is held, what is told of it after them is what
its view showed before. -/
theorem perform_hold {w : Workspace t i} {held : List ListId} (h : w.Sound held 0) {name : String}
    {id : ListId} {l : InvertedList t i} (hname : w.lists.find? name = some id)
    (hl : w.store.list? id = some l) (commands : List (Command t i)) :
    ∃ outcomes c w', perform (.hold name commands) w = .ok (.held outcomes c) w' ∧
      l.view.contents = .ok c := by
  obtain ⟨c, hc⟩ := (h.accounts.wellFormed_list hl).contents_ok (Nat.le_refl _)
  obtain ⟨hheld, -, -⟩ := h.hold (Sound.mem_refs_of_list hname)
  let start : Workspace t i := { w with store := w.store.hold id }
  have hrun : start.Kept (id :: held) (performAll commands start).2 :=
    performAll_kept hheld commands
  have hstart : start.store.list? id = some l := (Store.list?_hold w.store id id).trans hl
  obtain ⟨later, hlater, hevolves⟩ := hrun.keeps id (List.mem_cons_self ..) l hstart
  obtain ⟨holding, hfind, rfl⟩ := Store.list?_eq_some_iff.mp hlater
  -- what is held has changed behind the records of the view only
  have hcontents : View.contents { list := holding.list, size := l.size } = .ok c :=
    (hevolves.view_agrees (Nat.le_refl l.size)).contents_eq.trans hc
  let after : Workspace t i := (performAll commands start).2
  refine ⟨(performAll commands start).1, c, { after with store := after.store.release id }, ?_, hc⟩
  rw [perform, bind_ok (listNamed_ok hname hl)]
  refine (bind_ok (t := start) rfl).trans ?_
  refine (bind_ok (t := after) rfl).trans ?_
  refine (bind_ok (stored_ok (Store.holding_ok hfind))).trans ?_
  rw [hcontents]
  rfl

end Workspace

namespace Session

/-- A session with one list held once more, by somebody of whom no event knows. -/
def keeping (s : Session t i) (id : ListId) : Session t i :=
  s.withStore (s.store.hold id) s.handles

theorem keeping_sound {s : Session t i} {kept : List ListId} (h : s.Sound kept) {id : ListId}
    {l : InvertedList t i} (hl : s.store.list? id = some l) :
    (s.keeping id).Sound (id :: kept) ∧ (s.keeping id).store.list? id = some l := by
  obtain ⟨holding, hfind, -⟩ := Store.list?_eq_some_iff.mp hl
  have hheld := (Workspace.Sound.hold h (h.accounts.mem hfind)).1
  refine ⟨hheld.congr fun other => ?_, ?_⟩
  · simp only [keeping, withStore, List.count_append, List.count_cons]
    omega
  · exact (Store.list?_hold s.store id id).trans hl

/-- A list that is held outside evolves. -/
theorem run_evolves {s : Session t i} {kept : List ListId} (h : s.Sound kept) {id : ListId}
    (hid : id ∈ kept) {l : InvertedList t i} (hl : s.store.list? id = some l)
    (events : List (Event t i)) :
    ∃ l', (s.run events).store.list? id = some l' ∧ l.Evolves l' :=
  (run_kept h events).keeps id hid l hl

/-- **Snapshots are immutable.** Somebody takes a reference to a list of a session, whatever has
happened in it, and looks at the list at some later time. From then on, whatever else happens, the
list is there, its published size has not fallen, and all that can be read through the view is what
it was. -/
theorem snapshot_immutable {limit : Option Nat} {start : List (Event t i)} {id : ListId}
    {l : InvertedList t i} (hl : ((new t i limit).run start).store.list? id = some l)
    (before after : List (Event t i)) :
    let held := ((new t i limit).run start).keeping id
    ∃ seen later c,
      (held.run before).store.list? id = some seen ∧
      (held.run (before ++ after)).store.list? id = some later ∧
      l.size ≤ seen.size ∧ seen.size ≤ later.size ∧
      seen.view.Agrees { list := later, size := seen.size } ∧
      seen.view.contents = .ok c ∧
      View.contents { list := later, size := seen.size } = .ok c := by
  intro held
  obtain ⟨hsound, hheld⟩ := keeping_sound (run_kept (sound_new limit) start).sound hl
  have hid : id ∈ [id] := List.mem_singleton_self id
  have hbefore := (run_kept hsound before).sound
  obtain ⟨seen, hseen, hgrown⟩ := run_evolves hsound hid hheld before
  obtain ⟨later, hlater, hevolves⟩ := run_evolves hbefore hid hseen after
  obtain ⟨c, hc⟩ := (hbefore.accounts.wellFormed_list hseen).contents_ok (Nat.le_refl _)
  have hagrees := hevolves.view_agrees (Nat.le_refl seen.size)
  refine ⟨seen, later, c, hseen, ?_, hgrown.size_le, hevolves.size_le, hagrees, hc, ?_⟩
  · rw [run_append]
    exact hlater
  · exact hagrees.contents_eq.trans hc

/-- An index of two lists, of which the second has taken in a record. -/
def firstRecord : List (Event .u8 .i32) :=
  [.command (.step (.createIndex "x" 1 (.new 2))),
    .command (.step (.extend "x" #[7] none (Assigner.precomputed #[1])))]

/-- The index takes in two more records, a writer tries to write over the first one, and the index
goes. -/
def laterEvents : List (Event .u8 .i32) :=
  [.command (.step (.extend "x" #[8, 9] none (Assigner.precomputed #[1, 1]))),
    .write ⟨2⟩ (.pack #[5] 0), .command (.step (.dropIndex "x"))]

/-- A snapshot of one record outlives the index. -/
theorem snapshot_outlives_index : ∃ later,
    ((((new .u8 .i32 none).run firstRecord).keeping ⟨2⟩).run laterEvents).store.list? ⟨2⟩ =
        some later ∧
      (View.record { list := later, size := 1 } 0).toOption = some #[7] := by
  have hfound : (((new .u8 .i32 none).run firstRecord).store.list? ⟨2⟩).isSome := by
    decide +kernel
  have hshown : ((((new .u8 .i32 none).run firstRecord).keeping ⟨2⟩).store.list? ⟨2⟩).map
      (fun l => (l.size, (l.view.record 0).toOption)) = some (1, some #[7]) := by
    decide +kernel
  obtain ⟨l, hl⟩ := Option.isSome_iff_exists.mp hfound
  obtain ⟨seen, later, -, hseen, hlater, -, -, hagrees, -⟩ :=
    snapshot_immutable hl [] laterEvents
  have hseen : (((new .u8 .i32 none).run firstRecord).keeping ⟨2⟩).store.list? ⟨2⟩ = some seen :=
    hseen
  rw [hseen, Option.map_some, Option.some.injEq, Prod.mk.injEq] at hshown
  have hrecord := hagrees.record_eq 0
  rw [hshown.1] at hrecord
  refine ⟨later, hlater, ?_⟩
  rw [hrecord]
  exact hshown.2

end Session

end InvertedFile
