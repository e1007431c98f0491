import InvertedFile.Proofs.Index.Alike
import InvertedFile.Proofs.Workspace.Reached

/-!
# What a step on an index comes to

A step names an index, and the operation it stands for acts on the index and
the store. The step succeeds where the operation does. What it tells is told
of the index it leaves under the name.

An index that is made or read is taken in under a name with the lists it came
with. Where the name stood for another index, that one is let go of when the
new one is there already; so the lists of the new one stay.

## Main results

* `extend_ok`, `extend_error`, `reset_ok` — changes to the index of a name.
* `queryIndex_eq`, `saveIndex_eq`, `saveIndex_step_eq` — what is told of the
  index of a name.
* `createIndex_ok` — an index is made wherever there is such an index.
* `createIndex_cases`, `loadIndex_cases`, `throughFile_cases` — where an index
  of a name has come from.
-/

namespace InvertedFile.Workspace

open InvertedFile.Action

variable {t : ElementType} {i : IdType} {w w' : Workspace t i} {held : List ListId}
  {name : String} {x : Index}

/-- The index of a name is in order, beside all that is held otherwise. -/
theorem Sound.opened (h : w.Sound held 0) (hname : w.indexes.find? name = some x) :
    OpenIndex.Sound { index := x, store := w.store } (Sound.others w name held) :=
  ⟨h.index name x hname, h.accounts_index hname⟩

theorem check_eq_ok {α : Type} {c : Except Error α} {a : α} :
    (check c : Run t i α) w = .ok a w' ↔ c = .ok a ∧ w' = w := by
  cases c with
  | ok b =>
      rw [check, pure_eq_ok, Except.ok.injEq]
      exact and_congr_right fun _ => eq_comm
  | error e =>
      simp only [reduceCtorEq, false_and, iff_false]
      exact throw_ne_ok

theorem named_eq_ok {β : Type} {names : Workspace t i → Names β} {b : β} :
    named names name w = .ok b w' ↔ (names w).find? name = some b ∧ w' = w := by
  rw [named, bind_ok (get_ok w)]
  cases (names w).find? name with
  | some c =>
      show (pure c : Run t i β) w = .ok b w' ↔ some c = some b ∧ w' = w
      rw [pure_eq_ok, Option.some.injEq]
      exact and_congr_right fun _ => eq_comm
  | none =>
      simp only [reduceCtorEq, false_and, iff_false]
      exact throw_ne_ok

theorem named_ok {β : Type} {names : Workspace t i → Names β} {b : β}
    (hname : (names w).find? name = some b) : named names name w = .ok b w :=
  named_eq_ok.mpr ⟨hname, rfl⟩

theorem withoutRemains_eq_ok {α : Type} {act : Run t i α} {a : α} :
    withoutRemains act w = .ok a w' ↔ act w = .ok a w' := by
  unfold withoutRemains
  cases act w with
  | ok b v => rfl
  | error f v => cases f <;> simp

/-! ## Changes -/

/-- The workspace in which an operation on the index of a name has come to an index. -/
def withOpen (w : Workspace t i) (name : String) (y : OpenIndex t i) : Workspace t i :=
  { w with store := y.store, indexes := w.indexes.put name y.index }

theorem find?_withOpen (w : Workspace t i) (name : String) (y : OpenIndex t i) :
    (w.withOpen name y).indexes.find? name = some y.index :=
  Names.find?_put_self ..

section Changes

variable {act : Action (OpenIndex t i) Unit} {y : OpenIndex t i}

theorem onIndex_ok (hname : w.indexes.find? name = some x)
    (hact : act { index := x, store := w.store } = .ok () y) :
    onIndex name act w = .ok y.index (w.withOpen name y) := by
  rw [onIndex, bind_ok (named_ok hname), bind_ok (a := ()) (t := w.withOpen name y)]
  · exact named_ok (find?_withOpen w name y)
  · rw [attempt, hact]
    rfl

theorem onIndex_error {e : Error} (hname : w.indexes.find? name = some x)
    (hact : act { index := x, store := w.store } = .error e y) :
    onIndex name act w =
      .error (.leaving e (.sizes (y.index.sizes y.store))) (w.withOpen name y) := by
  rw [onIndex, bind_ok (named_ok hname)]
  apply bind_error
  rw [attempt, hact]
  rfl

variable {vectors : Array (Word t)} {ids : Option (Array (Id i))} {assigner : Assigner t}

theorem extend_ok (hname : w.indexes.find? name = some x)
    (hact : Index.extend assigner vectors ids { index := x, store := w.store } = .ok () y) :
    performStep (.extend name vectors ids assigner) w =
      .ok (.sizes (y.index.sizes y.store)) (w.withOpen name y) := by
  rw [performStep, bind_ok (onIndex_ok hname hact)]
  rfl

theorem extend_error {e : Error} (hname : w.indexes.find? name = some x)
    (hact : Index.extend assigner vectors ids { index := x, store := w.store } = .error e y) :
    performStep (.extend name vectors ids assigner) w =
      .error (.leaving e (.sizes (y.index.sizes y.store))) (w.withOpen name y) := by
  rw [performStep, bind_error (onIndex_error hname hact)]

theorem reset_ok (hname : w.indexes.find? name = some x)
    (hact : Index.reset { index := x, store := w.store } = .ok () y) :
    performStep (.reset name) w =
      .ok (.indexInfo ((w.withOpen name y).indexInfo y.index)) (w.withOpen name y) := by
  rw [performStep, bind_ok (onIndex_ok hname hact)]
  rfl

end Changes

/-! ## Questions and images -/

theorem queryIndex_eq (hname : w.indexes.find? name = some x) (q : IndexQuery) :
    performStep (.queryIndex name q) w =
      (check (answerIndexQuery w x q) : Run t i (Answer t i)) w := by
  rw [performStep, bind_ok (named_ok hname), bind_ok (get_ok w)]

/-- What is written of an index is told, and what had been written when a write fails. The workspace
stays as it was. -/
theorem saveIndex_eq (h : w.Sound held 0) (hname : w.indexes.find? name = some x)
    (room : Option Nat) :
    saveIndex name room w =
      match x.write w.store { budget := w.store.budget, stream := .empty room } with
      | .ok _ tr => .ok tr.stream.written w
      | .error e tr => .error (.leaving e (.written tr.stream.written)) w := by
  have hbudget := Index.budget_write (h.index name x hname) h.accounts
    { budget := w.store.budget, stream := .empty room }
  have hsave := x.save_eq { store := w.store, sink := .empty room }
  rw [saveIndex, bind_ok (named_ok hname)]
  cases hwrite : x.write w.store { budget := w.store.budget, stream := .empty room } with
  | ok u tr =>
      rw [final_ok hwrite] at hbudget
      rw [writing_ok (hsave.trans (Saving.transferring_ok hwrite)), Saving.transferred, hbudget]
  | error e tr =>
      rw [final_error hwrite] at hbudget
      rw [writing_error (hsave.trans (Saving.transferring_error hwrite)), Saving.transferred,
        hbudget]

/-- An index is saved exactly when it is written. -/
theorem saveIndex_ok_iff (h : w.Sound held 0) (hname : w.indexes.find? name = some x)
    {room : Option Nat} {bytes : Bytes} :
    saveIndex name room w = .ok bytes w' ↔ ∃ tr,
      x.write w.store { budget := w.store.budget, stream := .empty room } = .ok () tr ∧
        tr.stream.written = bytes ∧ w' = w := by
  rw [saveIndex_eq h hname]
  cases x.write w.store { budget := w.store.budget, stream := .empty room } with
  | ok u tr => simp [eq_comm]
  | error e tr => simp

/-- A step that saves an index changes nothing but the blob of a name. -/
theorem saveIndex_step_eq (h : w.Sound held 0) (hname : w.indexes.find? name = some x)
    (room : Option Nat) (blob : Option String) :
    performStep (.saveIndex name room blob) w =
      match x.write w.store { budget := w.store.budget, stream := .empty room } with
      | .ok _ tr => .ok (.bytes tr.stream.written) (putBlob blob tr.stream.written w)
      | .error e tr => .error (.leaving e (.written tr.stream.written)) w := by
  have hsave := saveIndex_eq h hname room
  cases hwrite : x.write w.store { budget := w.store.budget, stream := .empty room } with
  | ok u tr =>
      rw [hwrite] at hsave
      rw [performStep, bind_ok hsave]
      rfl
  | error e tr =>
      rw [hwrite] at hsave
      rw [performStep, bind_error hsave]

/-- An index that is saved, or not, stays as it was. -/
theorem saveIndex_step_leaves (h : w.Sound held 0) (hname : w.indexes.find? name = some x)
    (room : Option Nat) (blob : Option String) :
    (final (performStep (.saveIndex name room blob)) w).store = w.store ∧
      (final (performStep (.saveIndex name room blob)) w).indexes = w.indexes := by
  have hstep := saveIndex_step_eq h hname room blob
  cases hwrite : x.write w.store { budget := w.store.budget, stream := .empty room } with
  | ok u tr =>
      rw [hwrite] at hstep
      rw [final_ok hstep]
      cases blob <;> exact ⟨rfl, rfl⟩
  | error e tr =>
      rw [hwrite] at hstep
      rw [final_error hstep]
      exact ⟨rfl, rfl⟩

/-- What a step that saves an index has written. -/
theorem saveIndex_cases (h : w.Sound held 0) {room : Option Nat} {blob : Option String}
    {a : Answer t i} (hstep : performStep (.saveIndex name room blob) w = .ok a w') :
    ∃ x tr, w.indexes.find? name = some x ∧
      x.write w.store { budget := w.store.budget, stream := .empty room } = .ok () tr ∧
      a = .bytes tr.stream.written := by
  cases hname : w.indexes.find? name with
  | none =>
      rw [performStep, bind_eq_ok] at hstep
      obtain ⟨bytes, _, hsave, -⟩ := hstep
      rw [saveIndex, bind_eq_ok] at hsave
      obtain ⟨x, _, hnamed, -⟩ := hsave
      rw [(named_eq_ok.mp hnamed).1] at hname
      cases hname
  | some x =>
      rw [saveIndex_step_eq h hname] at hstep
      cases hwrite : x.write w.store { budget := w.store.budget, stream := .empty room } with
      | ok u tr =>
          rw [hwrite] at hstep
          cases hstep
          exact ⟨x, tr, rfl, hwrite, rfl⟩
      | error e tr =>
          rw [hwrite] at hstep
          cases hstep

/-! ## Indexes that come -/

/-- An index has been taken in under a name. -/
structure Takes (made : LoadedIndex t i) (w : Workspace t i) (name : String) (x : Index) : Prop where
  find?_eq : w.indexes.find? name = some x
  params_eq : x.params = made.params
  spec_eq : x.spec = made.spec
  list : ∀ label : Nat, x.slots[label]?.bind w.store.list? = made.lists[label]?

/-- An index that is put under a name keeps its lists when the one that was there is let go. -/
theorem leaves_putIndex (h : w.Sound (x.slots.toList ++ held) 0) (name : String) :
    Store.Leaves x.slots.toList w.store (w.putIndex name x).store := by
  unfold putIndex
  cases hname : w.indexes.find? name with
  | none => exact Store.Leaves.refl _ _
  | some old =>
      obtain ⟨-, hleaves⟩ := Index.releaseAll_accounts (h.accounts_index hname)
      exact hleaves.mono fun id hid =>
        List.mem_append_right _ (List.mem_append_left _ hid)

theorem indexes_putIndex (w : Workspace t i) (name : String) (x : Index) :
    (w.putIndex name x).indexes = w.indexes.put name x := by
  unfold putIndex
  cases w.indexes.find? name <;> rfl

/-- An index that is made is taken in. -/
theorem keepIndex_ok {made : LoadedIndex t i} (h : w.Sound held made.reserved)
    (hmade : made.Sound) (name : String) :
    ∃ info w' x, keepIndex name made w = .ok info w' ∧ Takes made w' name x := by
  have hpending : w.store.Accounts (w.refs ++ held) (0 + (made.lists.map (·.reserved)).sum) := by
    rw [Nat.zero_add]
    exact h.accounts
  obtain ⟨index, s, hinstall, hparams, hspec, hacc, hleaves, -, -, hlist⟩ :=
    LoadedIndex.install_ok hmade hpending
  have htaken : ({ w with store := s }).Sound (index.slots.toList ++ held) 0 := by
    refine h.withStore ?_ (hleaves.mono fun _ hid => List.mem_append_left _ hid).keeps
    apply hacc.congr
    intro id
    simp only [List.count_append]
    omega
  refine ⟨_, _, index, by rw [keepIndex, bind_ok (stored_ok hinstall)]; rfl, ?_, hparams, hspec,
    ?_⟩
  · rw [indexes_putIndex]
    exact Names.find?_put_self ..
  · intro label
    rw [← hlist label]
    cases hid : index.slots[label]? with
    | none => rfl
    | some id => exact leaves_putIndex htaken name id (Index.mem_of_slot hid)

/-- A new index is made where there is one of the parameters and the width it is asked for with. -/
theorem createIndex_ok (h : w.Sound held 0) {dim : UInt32} {params : IndexParams}
    {made : LoadedIndex t i} (hnew : LoadedIndex.new t i params dim = .ok made) (name : String) :
    ∃ a w' x, performStep (.createIndex name dim params) w = .ok a w' ∧ Takes made w' name x := by
  obtain ⟨hmade, hzero⟩ := LoadedIndex.sound_new hnew
  obtain ⟨info, w', x, hkeep, htakes⟩ := keepIndex_ok (hzero.symm ▸ h) hmade name
  refine ⟨.indexInfo info, w', x, ?_, htakes⟩
  rw [performStep, bind_ok (check_eq_ok.mpr ⟨hnew, rfl⟩), bind_ok hkeep]
  rfl

/-- A new index is made of the parameters and the width it was asked for with. -/
theorem createIndex_cases (h : w.Sound held 0) {dim : UInt32} {params : IndexParams}
    {a : Answer t i} (hstep : performStep (.createIndex name dim params) w = .ok a w') :
    ∃ made x, LoadedIndex.new t i params dim = .ok made ∧ Takes made w' name x := by
  have hmade := hstep
  rw [performStep, bind_eq_ok] at hmade
  obtain ⟨made, _, hcheck, -⟩ := hmade
  obtain ⟨hnew, -⟩ := check_eq_ok.mp hcheck
  obtain ⟨_, _, x, hrun, htakes⟩ := createIndex_ok h hnew name
  rw [hstep] at hrun
  cases hrun
  exact ⟨made, x, hnew, htakes⟩

/-- An index that was loaded is what was read. -/
theorem loadIndex_takes (h : w.Sound held 0) {source : Source} {a : IndexInfo × Nat}
    (hload : loadIndex name source w = .ok a w') :
    ∃ made tr x, LoadedIndex.read t i { budget := w.store.budget, stream := source } = .ok made tr ∧
      Takes made w' name x := by
  have hstart : ({ budget := w.store.budget, stream := source } : Transfer Source).budget.Sound :=
    h.accounts.budget
  rcases LoadedIndex.read_cases (t := t) (i := i) hstart with
    ⟨e, tr, hread, -⟩ | ⟨made, tr, hread, hcharged, hbudget, hmade⟩
  · rw [loadIndex, bind_error (reading_error hread)] at hload
    cases hload
  · rw [loadIndex, bind_ok (reading_ok hread)] at hload
    obtain ⟨info, v, hkept, hload⟩ := bind_eq_ok.mp hload
    cases hload
    obtain ⟨_, _, x, hkeep, htakes⟩ := keepIndex_ok (h.charged hcharged hbudget) hmade name
    cases hkept.symm.trans hkeep
    exact ⟨made, tr, x, hread, htakes⟩

/-- An index is loaded from where the reading says. -/
theorem loadIndex_cases (h : w.Sound held 0) {r : Reading} {a : Answer t i}
    (hstep : performStep (.loadIndex name r) w = .ok a w') :
    ∃ source made tr x, sourceOf r w = .ok source w ∧
      LoadedIndex.read t i { budget := w.store.budget, stream := source } = .ok made tr ∧
      Takes made w' name x := by
  rw [performStep, bind_eq_ok] at hstep
  obtain ⟨source, v, hsource, hstep⟩ := hstep
  have hlooks := looks_sourceOf r w
  rw [Looks, Leads, hsource] at hlooks
  obtain ⟨rfl, -⟩ := hlooks
  obtain ⟨loaded, v', hload, hstep⟩ := bind_eq_ok.mp hstep
  cases hstep
  obtain ⟨made, tr, x, hread, htakes⟩ := loadIndex_takes h hload
  exact ⟨source, made, tr, x, hsource, hread, htakes⟩

/-- An index that goes through a file is written to it and read from it. -/
theorem throughFile_cases (h : w.Sound held 0) {index : String} {place : FilePlace}
    {edits : Edits} {a : Answer t i}
    (hstep : performStep (.throughFile index place edits name) w = .ok a w') :
    ∃ old file made tr x, w.indexes.find? index = some old ∧
      old.write w.store { budget := w.store.budget, stream := .empty none } = .ok () file ∧
      LoadedIndex.read t i
          { budget := w.store.budget
            stream := { bytes := edits.apply file.stream.written, ending := .endOfInput } } =
        .ok made tr ∧
      Takes made w' name x := by
  rw [performStep, throughFile, bind_eq_ok] at hstep
  obtain ⟨_, _, hplace, hnamed⟩ := hstep
  obtain ⟨-, rfl⟩ := check_eq_ok.mp hplace
  obtain ⟨old, _, hold, hfolder⟩ := bind_eq_ok.mp hnamed
  obtain ⟨hindex, rfl⟩ := named_eq_ok.mp hold
  obtain ⟨_, _, hthere, hsaved⟩ := bind_eq_ok.mp hfolder
  obtain ⟨-, rfl⟩ := check_eq_ok.mp hthere
  obtain ⟨bytes, _, hsave, hloaded⟩ := bind_eq_ok.mp hsaved
  obtain ⟨file, hwrite, rfl, rfl⟩ :=
    (saveIndex_ok_iff h hindex).mp (withoutRemains_eq_ok.mp hsave)
  obtain ⟨loaded, _, hload, hanswer⟩ := bind_eq_ok.mp hloaded
  cases hanswer
  obtain ⟨made, tr, x, hread, htakes⟩ := loadIndex_takes h hload
  exact ⟨old, file, made, tr, x, hindex, hwrite, hread, htakes⟩

end InvertedFile.Workspace
