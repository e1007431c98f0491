import InvertedFile.Proofs.Index.Changes
import InvertedFile.Proofs.Index.RoundTrip
import InvertedFile.Proofs.Workspace.Extension

/-!
# Saving an index and loading it again

An index is written in one workspace and read in another one, or in the same.
Of what the image leaves out, the capacities follow from the sizes, since no
list of an index that was reached has more room than it needs; and the names
of the lists and what stands in unused slots cannot be seen.

That there is no limit to the memory means two things here. The budgets have
none, and the bytes in use stay a number that can be counted. What reading
takes are the bytes of the lists, so that there always is room for them where
nothing is in use; what writing takes is at most twice as much.

## Main results

* `read_write` — an index that was saved is loaded, and from then on the two
  cannot be told apart.
-/

namespace InvertedFile.Workspace

open InvertedFile.Action

variable {t : ElementType} {i : IdType}

/-- An index is read from an image and taken in, unless its bytes cannot be counted. It is in order,
beside all that the workspace holds, and looks like the one the image is of. -/
theorem Sound.load_cases {w : Workspace t i} {held : List ListId} (h : w.Sound held 0)
    (hunlimited : w.store.budget.limit = none) {x : Index} {s : Store t i} {refs : List ListId}
    {pending : Nat} (hx : x.Sound s) (hacc : s.Accounts refs pending) {fields : List Bytes}
    (himage : x.IsImage s fields) (tail : Bytes) (ending : Ending) :
    (byteLimit ≤ w.store.budget.inUse + x.memoryBytes s ∧ ∃ e tr,
        LoadedIndex.read t i
            { budget := w.store.budget
              stream := { bytes := fields.flatten ++ tail, ending } } =
          .error e tr ∧ e.IsAllocation) ∨
      ∃ (loaded : LoadedIndex t i) (y : OpenIndex t i),
        LoadedIndex.read t i
            { budget := w.store.budget
              stream := { bytes := fields.flatten ++ tail, ending } } =
          .ok loaded
            { budget := w.store.budget.charged (x.memoryBytes s)
              stream := { bytes := tail, ending } } ∧
        loaded.install (w.store.charged (x.memoryBytes s)) = .ok y.index y.store ∧
        y.Sound (w.refs ++ held) ∧ y.store.budget.limit = none ∧
        OpenIndex.Alike { index := x, store := s } y := by
  rcases LoadedIndex.read_of_image hx hacc himage w.store.budget tail ending with
    ⟨hcount, hrefused⟩ | ⟨loaded, hread, hparams, hspec, halikes⟩
  · exact Or.inl ⟨hcount hunlimited, hrefused⟩
  right
  have hbudget : ({
      budget := w.store.budget
      stream := { bytes := fields.flatten ++ tail, ending } } : Transfer Source).budget.Sound :=
    h.accounts.budget
  rcases LoadedIndex.read_cases (t := t) (i := i) hbudget with
    ⟨e, _, hrun, -⟩ | ⟨_, _, hrun, hcharged, hgood, hloaded⟩
  · rw [hread] at hrun
    cases hrun
  rw [hread] at hrun
  cases hrun
  have hreserved : x.memoryBytes s = loaded.reserved :=
    Nat.add_left_cancel (congrArg Budget.inUse hcharged)
  have haccounts := h.accounts.charged hgood
  rw [hreserved] at haccounts
  obtain ⟨index, s', hinstall, hparams', hspec', hacc', -, hsame, hindex, hlists⟩ :=
    LoadedIndex.install_ok hloaded haccounts
  rw [← hreserved] at hinstall hsame
  refine ⟨loaded, { index, store := s' }, hread, hinstall, ⟨hindex, hacc'⟩, ?_, ?_⟩
  · exact (congrArg Budget.limit hsame).trans hunlimited
  · exact LoadedIndex.alike_of_lists hx halikes (hparams'.trans hparams) (hspec'.trans hspec)
      hlists

/-- The lists of an index take fewer bytes than can be counted. What was written of it reads back,
with anything behind it, unless these bytes and those in use where it is read cannot be counted
together. The index that is read looks like the one that was written, is written alike, and comes
to the same by any changes that follow. -/
theorem read_write {limit limit' : Option Nat} {w w' : Workspace t i} (hw : Reached limit w)
    (hw' : Reached limit' w') (hunlimited : w.store.budget.limit = none)
    (hunlimited' : w'.store.budget.limit = none) {name : String} {x : Index}
    (hname : w.indexes.find? name = some x) {tr : Transfer Sink}
    (hwrite : x.write w.store { budget := w.store.budget, stream := .empty none } = .ok () tr)
    (tail : Bytes) (ending : Ending) :
    x.memoryBytes w.store < byteLimit ∧
    ((byteLimit ≤ w'.store.budget.inUse + x.memoryBytes w.store ∧ ∃ e s,
        LoadedIndex.read t i
            { budget := w'.store.budget
              stream := { bytes := tr.stream.written ++ tail, ending } } =
          .error e s ∧ e.IsAllocation) ∨
      ∃ (loaded : LoadedIndex t i) (y : OpenIndex t i),
        LoadedIndex.read t i
            { budget := w'.store.budget
              stream := { bytes := tr.stream.written ++ tail, ending } } =
          .ok loaded
            { budget := w'.store.budget.charged (x.memoryBytes w.store)
              stream := { bytes := tail, ending } } ∧
        loaded.install (w'.store.charged (x.memoryBytes w.store)) = .ok y.index y.store ∧
        OpenIndex.Alike { index := x, store := w.store } y ∧
        y.index.write y.store = x.write w.store ∧
        (∀ again : Transfer Sink, again.budget.limit = none → again.stream.room = none →
          again.budget.inUse + 2 * x.memoryBytes w.store < byteLimit →
          ∃ done, y.index.write y.store again = .ok () done ∧
            done.stream.written = again.stream.written ++ tr.stream.written) ∧
        ∀ cs : List (Change t i),
          (∀ o ∈ (OpenIndex.changes cs { index := x, store := w.store }).1, ¬ Overflowed o) →
          (∀ o ∈ (OpenIndex.changes cs y).1, ¬ Overflowed o) →
          (OpenIndex.changes cs y).1 =
              (OpenIndex.changes cs { index := x, store := w.store }).1 ∧
            (OpenIndex.changes cs { index := x, store := w.store }).2.Alike
              (OpenIndex.changes cs y).2) := by
  obtain ⟨held, hsound⟩ := hw.sound
  obtain ⟨held', hsound'⟩ := hw'.sound
  have hx := hsound.index name x hname
  have hacc := hsound.accounts_index hname
  obtain ⟨fields, himage, hwritten⟩ := Index.image_of_write hx hacc hwrite
  have hbytes : tr.stream.written = fields.flatten := hwritten
  refine ⟨Nat.lt_of_le_of_lt (hx.memoryBytes_le hacc) hacc.budget.inUse_lt, ?_⟩
  rw [hbytes]
  rcases hsound'.load_cases hunlimited' hx hacc himage tail ending with
    hrefused | ⟨loaded, y, hread, hinstall, hy, hlimit, halike⟩
  · exact Or.inl hrefused
  right
  have hsame : y.index.write y.store = x.write w.store := halike.write_eq ⟨hx, hacc⟩ hy
  refine ⟨loaded, y, hread, hinstall, halike, hsame, ?_, ?_⟩
  · intro again hagain hsink hcount
    obtain ⟨done, hdone⟩ := Index.write_of_room hx hacc hagain hsink hcount
    obtain ⟨fields', himage', hwritten'⟩ := Index.image_of_write hx hacc hdone
    rw [hsame]
    exact ⟨done, hdone, himage.unique himage' ▸ hwritten'⟩
  · intro cs hcount hcount'
    exact halike.changes ⟨hx, hacc⟩ hy hunlimited hlimit cs hcount hcount'

/-- An index of two lists is loaded into a new workspace, three bytes are left, and its second list
holds the record that was saved. -/
theorem read_write_oneRecord : ∃ x tr loaded y id l,
    oneRecord.indexes.find? "x" = some x ∧
      x.write oneRecord.store { budget := oneRecord.store.budget, stream := .empty none } =
        .ok () tr ∧
      LoadedIndex.read .u8 .i32
          { budget := .new none
            stream := { bytes := tr.stream.written ++ [1, 2, 3], ending := .endOfInput } } =
        .ok loaded
          { budget := Budget.charged (.new none) 160
            stream := { bytes := [1, 2, 3], ending := .endOfInput } } ∧
      loaded.install ((Store.new .u8 .i32 none).charged 160) = .ok y.index y.store ∧
      OpenIndex.Alike { index := x, store := oneRecord.store } y ∧
      y.index.slots[1]? = some id ∧ y.store.list? id = some l ∧ l.published = [(0, [7])] := by
  have hwrite : (twoLists 0 2).write oneRecord.store
      { budget := oneRecord.store.budget, stream := .empty none } = .ok ()
        (final ((twoLists 0 2).write oneRecord.store)
          { budget := oneRecord.store.budget, stream := .empty none }) := by
    apply eq_ok_of_failure?
    decide +kernel
  have hname : oneRecord.indexes.find? "x" = some (twoLists 0 2) := by
    decide +kernel
  have hreached : Reached none oneRecord := (Reached.new.perform _).perform _
  have hbytes : (twoLists 0 2).memoryBytes oneRecord.store = 160 := by
    decide +kernel
  rcases read_write hreached Reached.new (by decide +kernel) rfl hname hwrite [1, 2, 3]
    .endOfInput with ⟨-, ⟨hroom, -⟩ | ⟨loaded, y, hread, hinstall, halike, -⟩⟩
  · rw [hbytes] at hroom
    exact absurd hroom (by decide)
  rw [hbytes] at hread hinstall
  obtain ⟨id, l, id', l', hid, hl, hid', hl', hlist⟩ := halike.list 1 (by decide)
  cases hid
  have hpublished : (oneRecord.store.list? ⟨2⟩).map (·.published) = some [(0, [7])] := by
    decide +kernel
  have hheld : oneRecord.store.list? ⟨2⟩ = some l := hl
  rw [hheld, Option.map_some, Option.some.injEq] at hpublished
  exact ⟨twoLists 0 2, _, loaded, y, id', l', hname, hwrite, hread, hinstall, halike, hid', hl',
    hlist.published_eq.trans hpublished⟩

end InvertedFile.Workspace
