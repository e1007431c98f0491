import InvertedFile.Proofs.Index.Truncation
import InvertedFile.Proofs.Workspace.Extension

/-!
# No image that is cut short is taken for another one

What is stored says its own extent. A list says how many records follow, an
index how many lists, and either is stored with its last field at the end. So
of all the bytes that may be left of an image there are none that a reader
takes for a shorter list, for a smaller index or for an image of another
version, and after none of them anything is in use that was not before.

## Main results

* `truncated_refused` — every proper prefix of an image ends in the truncation
  error.
-/

namespace InvertedFile.Workspace

open InvertedFile.Action
open InvertedList (fourColumns single)

variable {t : ElementType} {i : IdType}

/-- **No image that is cut short is accepted.** A list that was written with any number of records
and in any layout is not read from a proper prefix of its image, into whatever layout and out of
whatever budget: the bytes are truncated, and nothing has been charged. Neither is an index of a
workspace that was reached. What is read of it on the way are the lists that the prefix holds
whole; they are given back in any case, and when there was room for them, the bytes are told to be
truncated here, too. -/
theorem truncated_refused :
    (∀ l : InvertedList t i, l.WellFormed → ∀ (store device : ListSpec) length tr out record,
      device.dim = l.spec.dim → l.writeRecord store length tr = .ok () out →
      out.stream.written = tr.stream.written ++ record →
        ∀ cut, cut <+: record → cut ≠ record → ∀ b,
          InvertedList.readRecord t i store device
              { budget := b, stream := { bytes := cut, ending := .endOfInput } } =
            .error (.malformed .truncated)
              { budget := b, stream := { bytes := [], ending := .endOfInput } }) ∧
    ∀ limit (w : Workspace t i), Reached limit w → ∀ name x, w.indexes.find? name = some x →
      ∀ tr out image, x.write w.store tr = .ok () out →
      out.stream.written = tr.stream.written ++ image →
        image = x.imageUpTo w.store x.lists ∧
        ∀ cut, cut <+: image → cut ≠ image → ∀ b, ∃ e left,
          LoadedIndex.read t i
              { budget := b, stream := { bytes := cut, ending := .endOfInput } } =
            .error e left ∧
          left.budget = b ∧ (e = .malformed .truncated ∨ e.IsAllocation) ∧
          ((∀ n, x.imageUpTo w.store n <+: cut → (b.charged (x.bytesUpTo w.store n)).Sound) →
            e = .malformed .truncated) := by
  refine ⟨?list, ?index⟩
  case list =>
    intro l hl store device length tr out record hdevice hwrite hrecord cut hcut hne b
    obtain ⟨hstore, fields, himage, hfields⟩ := InvertedList.image_of_writeRecord hl hwrite
    have hbytes : fields.flatten = record := List.append_cancel_left (hfields.symm.trans hrecord)
    rw [← hbytes] at hcut hne
    exact InvertedList.readRecord_cut hl (hstore.trans hdevice.symm)
      (InvertedList.imageLength_lt hl length) himage hcut hne b .endOfInput
  case index =>
    intro limit w hw name x hname tr out image hwrite hwritten
    obtain ⟨held, hsound⟩ := hw.sound
    have hx := hsound.index name x hname
    have hacc := hsound.accounts_index hname
    obtain ⟨fields, himage, hfields⟩ := Index.image_of_write hx hacc hwrite
    have hbytes : fields.flatten = image := List.append_cancel_left (hfields.symm.trans hwritten)
    refine ⟨hbytes.symm.trans (LoadedIndex.image_eq hx hacc himage), ?_⟩
    intro cut hcut hne b
    rw [← hbytes] at hcut hne
    rcases LoadedIndex.read_cut hx hacc himage hcut hne b .endOfInput with
      ⟨n, hprefix, hrefused, e, left, hread, hbudget, he⟩ | hread
    · exact ⟨e, left, hread, hbudget, Or.inr he, fun hroom => absurd (hroom n hprefix) hrefused⟩
    · exact ⟨_, _, hread, rfl, Or.inl rfl, fun _ => rfl⟩

set_option maxRecDepth 4000 in
/-- A list that is stored with room for three records, and an index of two lists, cut short
anywhere. -/
theorem truncated_refused_oneRecord :
    (∃ out,
      single.writeRecord (fourColumns 1 (by decide) .steady) (some 3)
          { budget := .new none, stream := .empty none } = .ok () out ∧
        ∀ n < out.stream.written.length,
          InvertedList.readRecord .u8 .i32 (fourColumns 1 (by decide) .steady)
              (fourColumns 2 (by decide) .doubling)
              { budget := .new none
                stream := { bytes := out.stream.written.take n, ending := .endOfInput } } =
            .error (.malformed .truncated)
              { budget := .new none, stream := { bytes := [], ending := .endOfInput } }) ∧
    ∃ out,
      (twoLists 0 2).write oneRecord.store { budget := .new none, stream := .empty none } =
          .ok () out ∧
        ∀ n < out.stream.written.length, ∃ left,
          LoadedIndex.read .u8 .i32
              { budget := .new none
                stream := { bytes := out.stream.written.take n, ending := .endOfInput } } =
            .error (.malformed .truncated) left ∧ left.budget = .new none := by
  have hshort : ∀ (bytes : Bytes) (n : Nat), n < bytes.length → bytes.take n ≠ bytes := by
    intro bytes n hn heq
    have hlength := List.length_take_le n bytes
    rw [heq] at hlength
    exact Nat.not_le.mpr hn hlength
  constructor
  · have hwell : single.WellFormed :=
      ⟨Or.inr ⟨1, rfl⟩, by decide +kernel, by decide +kernel, by decide, by decide +kernel⟩
    have hwrite : single.writeRecord (fourColumns 1 (by decide) .steady) (some 3)
        { budget := .new none, stream := .empty none } = .ok ()
          (final (single.writeRecord (fourColumns 1 (by decide) .steady) (some 3))
            { budget := .new none, stream := .empty none }) := rfl
    refine ⟨_, hwrite, fun n hn => ?_⟩
    exact truncated_refused.1 single hwell _ (fourColumns 2 (by decide) .doubling) (some 3) _ _ _
      rfl hwrite (List.nil_append _).symm _ (List.take_prefix n _) (hshort _ n hn) (.new none)
  · have hwrite : (twoLists 0 2).write oneRecord.store
        { budget := .new none, stream := .empty none } = .ok ()
          (final ((twoLists 0 2).write oneRecord.store)
            { budget := .new none, stream := .empty none }) := by
      apply eq_ok_of_failure?
      decide +kernel
    have hname : oneRecord.indexes.find? "x" = some (twoLists 0 2) := by
      decide +kernel
    have hreached : Reached none oneRecord := (Reached.new.perform _).perform _
    have hbytes : (twoLists 0 2).memoryBytes oneRecord.store = 160 := by
      decide +kernel
    obtain ⟨-, hcuts⟩ := truncated_refused.2 none oneRecord hreached "x" _ hname _ _ _ hwrite
      (List.nil_append _).symm
    refine ⟨_, hwrite, fun n hn => ?_⟩
    obtain ⟨e, left, hread, hbudget, -, htruncated⟩ :=
      hcuts _ (List.take_prefix n _) (hshort _ n hn) (.new none)
    refine ⟨left, ?_, hbudget⟩
    rw [hread, htruncated]
    -- the two lists take a few bytes, and nothing limits them
    intro m _
    refine ⟨?_, nofun⟩
    have hle := (twoLists 0 2).bytesUpTo_le oneRecord.store m
    rw [hbytes] at hle
    exact Nat.lt_of_le_of_lt (Nat.le_trans (Nat.le_of_eq (Nat.zero_add _)) hle) (by decide)

end InvertedFile.Workspace
