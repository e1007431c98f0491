import InvertedFile.Proofs.Workspace.Steps

/-!
# Workspaces that can be reached

A workspace is reached by carrying out commands from a new one. In the middle
of a command that holds a list, other commands are carried out in a workspace
in which that list has one holder more; these workspaces are reached, too.

Whatever is reached is in order. What has to be shown for it is that a command
keeps a workspace in order for all lists that are held besides, and this goes
by recursion on the commands that a command may contain.

## Main results

* `perform_kept`, `performAll_kept` — commands keep a workspace in order.
* `Reached.sound` — a workspace that is reached is in order.
-/

namespace InvertedFile.Workspace

open InvertedFile.Action

variable {t : ElementType} {i : IdType}

theorem snd_outcome (act : Run t i (Answer t i)) (w : Workspace t i) :
    (outcome act w).2 = final act w := by
  unfold outcome final
  cases act w with
  | ok a w' => rfl
  | error e w' => rfl

mutual

/-- A command keeps a workspace in order, whether it succeeds or fails. -/
theorem perform_kept {w : Workspace t i} {held : List ListId} (h : w.Sound held 0) :
    (c : Command t i) → w.Kept held (final (perform c) w)
  | .step s => by
      rw [perform]
      exact (leads_performStep h s).final
  | .hold name steps => by
      rw [perform]
      apply Leads.final
      refine (looks_listNamed name w).then (Kept.refl h) ?_
      rintro ⟨id, l⟩ ⟨hname, -⟩
      obtain ⟨hheld, hkeeps, hlimit⟩ := h.hold (Sound.mem_refs_of_list hname)
      refine leads_bind_ok rfl ?_
      have hrun := performAll_kept hheld steps
      refine leads_bind_ok rfl ?_
      -- the list is still held, so it is still there to be let go
      have hrest : Store.Keeps held w.store
          (performAll steps { w with store := w.store.hold id }).2.store :=
        hkeeps.trans (hrun.keeps.mono fun _ hid => List.mem_cons_of_mem id hid)
      have hmem : id ∈ (performAll steps { w with store := w.store.hold id }).2.refs ++
          id :: held :=
        List.mem_append_right _ (List.mem_cons_self ..)
      obtain ⟨holding, hfind⟩ := hrun.sound.accounts.found hmem
      refine leads_bind_ok (stored_ok (Store.holding_ok hfind)) ?_
      refine leads_bind_ok rfl ?_
      have hreleased := hrun.sound.release.after hrest (hrun.limit_eq.trans hlimit)
      refine (looks_check _ _).then hreleased ?_
      exact fun _ _ => leads_pure hreleased

/-- Commands keep a workspace in order, one after the other. -/
theorem performAll_kept {w : Workspace t i} {held : List ListId} (h : w.Sound held 0) :
    (commands : List (Command t i)) → w.Kept held (performAll commands w).2
  | [] => by
      rw [performAll]
      exact Kept.refl h
  | c :: rest => by
      have hone := perform_kept h c
      rw [← snd_outcome] at hone
      rw [performAll]
      exact hone.trans (performAll_kept hone.sound rest)

end

/-- The workspaces that are reached from a new one over a budget of a limit. -/
inductive Reached (limit : Option Nat) : Workspace t i → Prop where
  | new : Reached limit (new t i limit)
  | perform {w : Workspace t i} (h : Reached limit w) (c : Command t i) :
      Reached limit (final (perform c) w)
  /-- Within a command that holds a list. -/
  | within {w : Workspace t i} (h : Reached limit w) {name : String} {id : ListId}
      (hname : w.lists.find? name = some id) :
      Reached limit { w with store := w.store.hold id }

/-- A workspace that is reached is in order. -/
theorem Reached.sound {limit : Option Nat} {w : Workspace t i} (h : Reached limit w) :
    ∃ held, w.Sound held 0 := by
  induction h with
  | new => exact ⟨[], sound_new limit⟩
  | perform _ c ih =>
      obtain ⟨held, hsound⟩ := ih
      exact ⟨held, (perform_kept hsound c).sound⟩
  | within _ hname ih =>
      obtain ⟨held, hsound⟩ := ih
      exact ⟨_, (hsound.hold (Sound.mem_refs_of_list hname)).1⟩

/-- A limit stays what it was. -/
theorem Reached.limit_eq {limit : Option Nat} {w : Workspace t i} (h : Reached limit w) :
    w.store.budget.limit = limit := by
  induction h with
  | new => rfl
  | perform hbefore c ih =>
      obtain ⟨held, hsound⟩ := hbefore.sound
      exact (perform_kept hsound c).limit_eq.trans ih
  | within _ _ ih => rwa [Store.budget_hold]

end InvertedFile.Workspace
