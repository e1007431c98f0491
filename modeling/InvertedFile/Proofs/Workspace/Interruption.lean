import InvertedFile.Proofs.Index.Interruption
import InvertedFile.Proofs.Workspace.Extension

/-!
# A save that fails has written the front of an image

There are two ways for a save to fail. The sink takes a number of bytes and no
more, or the budget refuses a buffer. The first may happen anywhere, in the
middle of a number as well as between two lists. The second happens at a list,
before the first byte of its record. Either way the bytes that have arrived are
the front of the image that a run without any limit writes, and how many they
are tells which of the two it was.

A save takes the writer of each list for as long as it reads the list, and
charges buffers until the record is written. Whatever comes of it, a refusal
while the writer is held or a full sink behind that, both are given back: the
workspace is the one the save was made in, with its bytes in use, its lists and
their writers.

## Main results

* `leads_save_store`, `leads_saveIndex_store` — a step that saves leaves the
  store alone.
* `interrupted_save` — what has been written when a save ends, for every list,
  every index that is reached, every budget and every sink.
-/

namespace InvertedFile.Workspace

open InvertedFile.Action
open InvertedList (fourColumns single)

variable {t : ElementType} {i : IdType} {w : Workspace t i} {held : List ListId}

/-- The store and everything that is held in it under a name are as before. -/
structure Untouched (w w' : Workspace t i) : Prop where
  store_eq : w'.store = w.store
  lists_eq : w'.lists = w.lists
  indexes_eq : w'.indexes = w.indexes

theorem Untouched.refl (w : Workspace t i) : Untouched w w :=
  ⟨rfl, rfl, rfl⟩

theorem untouched_putBlob (w : Workspace t i) (blob : Option String) (bytes : Bytes) :
    Untouched w (w.putBlob blob bytes) := by
  cases blob with
  | none => exact Untouched.refl w
  | some name => exact ⟨rfl, rfl, rfl⟩

/-- Saving a list leaves the store alone. -/
theorem leads_save_store (h : w.Sound held 0) (name : String) (request : SpecRequest)
    (length : Option UInt32) (room : Option Nat) (blob : Option String) :
    Leads (save name request length room blob) w (fun _ => Untouched w) (Untouched w) := by
  have hrefl := Untouched.refl w
  refine (looks_check request.spec w).then hrefl ?_
  intro store _
  refine (looks_listNamed name w).then hrefl ?_
  rintro ⟨id, l⟩ ⟨-, holding, hfind, rfl⟩
  refine (looks_writeList h hfind store length room).then hrefl ?_
  exact fun bytes _ => leads_bind_ok rfl (leads_pure (untouched_putBlob w blob bytes))

/-- Saving an index leaves the store alone. -/
theorem leads_saveIndex_store (h : w.Sound held 0) (name : String) (room : Option Nat)
    (blob : Option String) :
    Leads (performStep (.saveIndex name room blob)) w (fun _ => Untouched w) (Untouched w) := by
  refine (looks_saveIndex h name room).then (Untouched.refl w) ?_
  exact fun bytes _ => leads_bind_ok rfl (leads_pure (untouched_putBlob w blob bytes))

/-- **A save that fails has written the front of an image.** A list that is stored in a layout of
its width, with any number of records, fills a sink with its image when the budget grants its
buffers: of a sink with room for `r` bytes these are the first `r`, and the save fails exactly when
they are not all. When the budget refuses a buffer, nothing is written. An index that was reached
fills a sink in the same way when the buffers of all its lists are granted, and otherwise it breaks
off behind the header and the records of the lists before the first one that is refused. In every
case the budget is as before. The steps that save take the writers of the lists and put them back:
they leave the store as it is, whatever comes of them, and a writer that could be taken can be taken
again. -/
theorem interrupted_save :
    (∀ l : InvertedList t i, l.WellFormed → ∀ (store : ListSpec) (length : Option UInt32)
        (b : Budget),
      (store.dim = l.spec.dim →
        InvertedList.Encodes l store.layout (l.imageLength length) b ∧
            Fills (l.writeRecord store length)
              (InvertedList.recordBytes store.layout (l.padded (l.imageLength length))) b ∨
          ¬ InvertedList.Encodes l store.layout (l.imageLength length) b ∧
            Declines (l.writeRecord store length) b) ∧
      (store.dim ≠ l.spec.dim → ∀ s, l.writeRecord store length { budget := b, stream := s } =
        .error (.invalid (.storeDim l.spec.dim store.dim)) { budget := b, stream := s })) ∧
    ∀ limit (w : Workspace t i), Reached limit w →
      (∀ name x, w.indexes.find? name = some x → ∀ b : Budget,
        (∀ label < x.lists, x.Encodes w.store label b) ∧
            Fills (x.write w.store) (x.imageUpTo w.store x.lists) b ∨
          ∃ n < x.lists, (∀ label < n, x.Encodes w.store label b) ∧ ¬ x.Encodes w.store n b ∧
            x.imageUpTo w.store n <+: x.imageUpTo w.store x.lists ∧
            BreaksOff (x.write w.store) (x.imageUpTo w.store n) b) ∧
      ∀ step : Step t i,
        (∃ name request length room blob, step = .save name request length room blob) ∨
          (∃ name room blob, step = .saveIndex name room blob) →
        Untouched w (final (perform (.step step)) w) ∧
        ∀ id, w.store.writerIsFree id = true → ∃ s,
          Store.takeWriter id (final (perform (.step step)) w).store = .ok true s := by
  refine ⟨?list, fun limit w hw => ⟨?index, ?step⟩⟩
  case list =>
    intro l hl store length b
    refine ⟨fun hdim => ?_, fun hdim s => InvertedList.writeRecord_dim hdim length _⟩
    by_cases hgranted : InvertedList.Encodes l store.layout (l.imageLength length) b
    · exact Or.inl ⟨hgranted, InvertedList.fills_writeRecord hl hdim length hgranted⟩
    · exact Or.inr ⟨hgranted, InvertedList.declines_writeRecord hl hdim hgranted⟩
  case index =>
    intro name x hname b
    obtain ⟨held, hsound⟩ := hw.sound
    have hx := hsound.index name x hname
    have hacc := hsound.accounts_index hname
    rcases x.encodes_or_refused w.store b with hall | ⟨n, hn, hbefore, hrefused⟩
    · exact Or.inl ⟨hall, Index.fills_write hx hacc hall⟩
    · exact Or.inr ⟨n, hn, hbefore, hrefused, x.imageUpTo_prefix w.store (Nat.le_of_lt hn),
        Index.breaksOff_write hx hacc hn hbefore hrefused⟩
  case step =>
    intro step hstep
    obtain ⟨held, hsound⟩ := hw.sound
    have huntouched : Untouched w (final (perform (.step step)) w) := by
      rw [perform]
      rcases hstep with ⟨name, request, length, room, blob, rfl⟩ | ⟨name, room, blob, rfl⟩
      · exact (leads_save_store hsound name request length room blob).final
      · exact (leads_saveIndex_store hsound name room blob).final
    refine ⟨huntouched, fun id hfree => ?_⟩
    rw [huntouched.store_eq]
    exact Store.takeWriter_of_writerIsFree hfree

set_option maxRecDepth 4000 in
/-- A list with room for three records does not fit into ten bytes, and its buffers not into a
budget for a hundred. An index of two lists does not fit into thirty bytes, and stays as it is. -/
theorem interrupted_save_oneRecord :
    (∃ out, single.writeRecord (fourColumns 1 (by decide) .steady) (some 3)
        { budget := .new none, stream := .empty (some 10) } =
          .error (.io .sinkFull) { budget := .new none, stream := out } ∧
      out.written = [3, 0, 0, 0, 3, 1, 3, 0, 0, 0]) ∧
    (∃ e, single.writeRecord (fourColumns 1 (by decide) .steady) (some 3)
        { budget := .new (some 100), stream := .empty (some 10) } =
          .error e { budget := .new (some 100), stream := .empty (some 10) }) ∧
    (∃ out, (twoLists 0 2).write oneRecord.store
        { budget := .new none, stream := .empty (some 12) } =
          .error (.io .sinkFull) { budget := .new none, stream := out } ∧
      out.written = [73, 86, 70, 76, 1, 0, 0, 0, 2, 3, 1, 0]) ∧
    Untouched oneRecord
      (final (perform (.step (.saveIndex "x" (some 12) none))) oneRecord) := by
  have hwell : single.WellFormed :=
    ⟨Or.inr ⟨1, rfl⟩, by decide +kernel, by decide +kernel, by decide, by decide +kernel⟩
  have hreached : Reached none oneRecord := (Reached.new.perform _).perform _
  have hname : oneRecord.indexes.find? "x" = some (twoLists 0 2) := by
    decide +kernel
  refine ⟨?_, ?_, ?_, ?_⟩
  · rcases (interrupted_save.1 single hwell (fourColumns 1 (by decide) .steady) (some 3)
      (.new none)).1 rfl with ⟨-, hfills⟩ | ⟨hrefused, -⟩
    · obtain ⟨out, hwritten, -, herror⟩ := hfills.limited (.empty (some 10)) 10 rfl
      refine ⟨out, herror (by decide +kernel), ?_⟩
      rw [hwritten]
      decide +kernel
    · refine absurd (fun _ => ?_) hrefused
      exact ⟨⟨by decide, by decide, nofun⟩, ⟨by decide, by decide, nofun⟩,
        ⟨by decide, by decide, nofun⟩⟩
  · rcases (interrupted_save.1 single hwell (fourColumns 1 (by decide) .steady) (some 3)
      (.new (some 100))).1 rfl with ⟨hgranted, -⟩ | ⟨-, hdeclines⟩
    · exact absurd ((hgranted (by decide)).words.le_limit 100 rfl) (by decide)
    · obtain ⟨e, he, -⟩ := hdeclines (.empty (some 10))
      exact ⟨e, he⟩
  · rcases (interrupted_save.2 none oneRecord hreached).1 "x" _ hname (.new none) with
      ⟨-, hfills⟩ | ⟨n, hn, -, hrefused, -⟩
    · obtain ⟨out, hwritten, -, herror⟩ := hfills.limited (.empty (some 12)) 12 rfl
      refine ⟨out, herror (by decide +kernel), ?_⟩
      rw [hwritten]
      decide +kernel
    · -- the two lists take a few bytes, and nothing limits them
      refine absurd (fun l hl _ => ?_) hrefused
      obtain ⟨held, hsound⟩ := hreached.sound
      have hmem := List.mem_of_getElem? hl
      obtain ⟨hlist, hhosted, hspec, -⟩ :=
        (hsound.index "x" _ hname).of_mem_heldLists (hsound.accounts_index hname) hmem
      have hbytes : (twoLists 0 2).memoryBytes oneRecord.store = 160 := by
        decide +kernel
      have hle : l.memoryBytes ≤ (twoLists 0 2).memoryBytes oneRecord.store :=
        List.le_sum_of_mem (List.mem_map_of_mem hmem)
      rw [← hspec]
      refine InvertedList.encodingGranted_of_room hlist hhosted rfl ?_
      rw [hbytes] at hle
      show 0 + 2 * l.memoryBytes < byteLimit
      exact Nat.lt_of_le_of_lt (show 0 + 2 * l.memoryBytes ≤ 320 by omega) (by decide)
  · exact ((interrupted_save.2 none oneRecord hreached).2 _
      (Or.inr ⟨"x", some 12, none, rfl⟩)).1

end InvertedFile.Workspace
