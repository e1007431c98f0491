import InvertedFile.Index.Image
import InvertedFile.Proofs.Index.Sound
import InvertedFile.Proofs.InvertedList.Saving
import InvertedFile.Proofs.Store.Saving

/-!
# The image of an index

What is written for an index is its header and then the image of each list,
in the order of the labels, in the layout of the index. The header is fixed by
the parameters and the spec, and the image of a list by its records.

The buffers for the image of one list are given back before those for the
next one are asked for, so that the budget is as before at every list.

## Main results

* `write_cases` — an index is refused, or its image is written.
* `image_of_write` — what reaches a sink when an index is written is its image.
* `write_ok` — an index whose lists can be encoded is written.
* `budget_write` — whatever comes of it, the budget is as before.
* `save_eq` — what an index is saved by is the writing of its image.
-/

namespace InvertedFile.Index

variable {t : ElementType} {i : IdType} {x : Index} {s : Store t i}

/-- The fields of the image of the list of a label. -/
def IsSlotImage (x : Index) (s : Store t i) (label : Nat) (fields : List Bytes) : Prop :=
  ∃ id l, x.slots[label]? = some id ∧ s.list? id = some l ∧
    InvertedList.IsImage l x.spec.layout l.size fields

/-- The fields of the image of an index. -/
def IsImage (x : Index) (s : Store t i) (fields : List Bytes) : Prop :=
  ∃ records, List.Forall₂ (x.IsSlotImage s) (List.range x.lists) records ∧
    fields = headerFields t i x ++ records.flatten

theorem writeSlot_eq {id : ListId} {l : InvertedList t i} {label : Nat}
    (hid : x.slots[label]? = some id) (hl : s.list? id = some l) (tr : Transfer Sink) :
    writeSlot x s label tr = l.writeRecord x.spec none tr := by
  rw [writeSlot, Action.bind_ok (Action.ofExcept_ok (slot_ok hid) tr), hl]

/-- The lists of some labels are written one after the other. -/
theorem forM_writeSlot_cases (hx : x.Sound s) {refs : List ListId} {pending : Nat}
    (hacc : s.Accounts refs pending) {labels : List Nat}
    (hlabels : ∀ label ∈ labels, label < x.slots.size) (tr : Transfer Sink) :
    (∃ e tr', labels.forM (writeSlot x s) tr = .error e tr' ∧ tr'.budget = tr.budget) ∨
      ∃ records tr', labels.forM (writeSlot x s) tr = .ok () tr' ∧ tr'.budget = tr.budget ∧
        List.Forall₂ (x.IsSlotImage s) labels records ∧
        tr'.stream.written = tr.stream.written ++ records.flatten.flatten := by
  induction labels generalizing tr with
  | nil => exact Or.inr ⟨[], tr, rfl, rfl, .nil, (List.append_nil _).symm⟩
  | cons label rest ih =>
      have hlt := hlabels label (List.mem_cons_self ..)
      have hid := Array.getElem?_eq_getElem hlt
      obtain ⟨l, hl, hspec, -⟩ := hx.list label _ hid
      have hwell := hacc.wellFormed_list hl
      have hdim : x.spec.dim = l.spec.dim := by rw [hspec]
      have hbudget := InvertedList.budget_writeRecord hwell x.spec none tr
      change (∃ e tr', (writeSlot x s label >>= fun _ => rest.forM (writeSlot x s)) tr = _ ∧ _) ∨
        ∃ records tr', (writeSlot x s label >>= fun _ => rest.forM (writeSlot x s)) tr = _ ∧ _
      cases hwrite : l.writeRecord x.spec none tr with
      | error e tr₁ =>
          rw [Action.final_error hwrite] at hbudget
          rw [← writeSlot_eq hid hl] at hwrite
          exact Or.inl ⟨e, tr₁, Action.bind_error hwrite, hbudget⟩
      | ok u tr₁ =>
          rw [Action.final_ok hwrite] at hbudget
          rcases InvertedList.writeRecord_cases hwell hdim none tr with
            ⟨e, he, -⟩ | ⟨-, fields, himage, hrun⟩
          · rw [hwrite] at he
            cases he
          · have hwritten : tr₁.stream.written = tr.stream.written ++ fields.flatten := by
              rw [hrun] at hwrite
              obtain ⟨stream, hput, rfl⟩ := Action.focus_eq_ok.mp hwrite
              exact Sink.putAll_ok hput
            rw [← writeSlot_eq hid hl] at hwrite
            rw [Action.bind_ok hwrite]
            rcases ih (fun other hother => hlabels other (List.mem_cons_of_mem label hother)) tr₁
              with ⟨e, tr', hrest, hsame⟩ | ⟨records, tr', hrest, hsame, himages, hmore⟩
            · exact Or.inl ⟨e, tr', hrest, hsame.trans hbudget⟩
            · refine Or.inr ⟨fields :: records, tr', hrest, hsame.trans hbudget,
                .cons ⟨_, _, hid, hl, himage⟩ himages, ?_⟩
              rw [hmore, hwritten, List.flatten_cons, List.flatten_append, List.append_assoc]

/-- An index is refused, or its image is written. -/
theorem write_cases (hx : x.Sound s) {refs : List ListId} {pending : Nat}
    (hacc : s.Accounts refs pending) (tr : Transfer Sink) :
    (∃ e tr', write x s tr = .error e tr' ∧ tr'.budget = tr.budget) ∨
      ∃ fields tr', write x s tr = .ok () tr' ∧ tr'.budget = tr.budget ∧ x.IsImage s fields ∧
        tr'.stream.written = tr.stream.written ++ fields.flatten := by
  cases hheader : Sink.putAll (headerFields t i x) tr.stream with
  | error e stream =>
      exact Or.inl ⟨e, _, Action.bind_error (Transfer.streamed_error hheader), rfl⟩
  | ok u stream =>
      rw [write, Action.bind_ok (Transfer.streamed_ok hheader)]
      have hlabels : ∀ label ∈ List.range x.lists, label < x.slots.size :=
        fun label hlabel => hx.lt_size.mpr (List.mem_range.mp hlabel)
      rcases forM_writeSlot_cases hx hacc hlabels { tr with stream } with
        ⟨e, tr', hrun, hsame⟩ | ⟨records, tr', hrun, hsame, himages, hwritten⟩
      · exact Or.inl ⟨e, tr', hrun, hsame⟩
      · refine Or.inr ⟨headerFields t i x ++ records.flatten, tr', hrun, hsame,
          ⟨records, himages, rfl⟩, ?_⟩
        rw [hwritten, Sink.putAll_ok hheader, List.flatten_append, List.append_assoc]

/-- What has been written is an image of the index. -/
theorem image_of_write (hx : x.Sound s) {refs : List ListId} {pending : Nat}
    (hacc : s.Accounts refs pending) {tr tr' : Transfer Sink} (h : write x s tr = .ok () tr') :
    ∃ fields, x.IsImage s fields ∧
      tr'.stream.written = tr.stream.written ++ fields.flatten := by
  rcases write_cases hx hacc tr with ⟨e, _, hrun, -⟩ | ⟨fields, _, hrun, -, himage, hwritten⟩
  · rw [h] at hrun
    cases hrun
  · rw [h] at hrun
    cases hrun
    exact ⟨fields, himage, hwritten⟩

/-- An index has one image. -/
theorem IsImage.unique {fields fields' : List Bytes} (h : x.IsImage s fields)
    (h' : x.IsImage s fields') : fields' = fields := by
  obtain ⟨records, hrecords, rfl⟩ := h
  obtain ⟨records', hrecords', rfl⟩ := h'
  have hsame : records' = records := by
    apply List.ext_getElem
    · rw [← hrecords.length_eq, ← hrecords'.length_eq]
    · intro k hk' hk
      obtain ⟨hlength, himages⟩ := List.forall₂_iff_get.mp hrecords
      obtain ⟨-, himages'⟩ := List.forall₂_iff_get.mp hrecords'
      obtain ⟨id, l, hid, hl, himage⟩ := himages k (hlength.symm ▸ hk) hk
      obtain ⟨id', l', hid', hl', himage'⟩ := himages' k (hlength.symm ▸ hk) hk'
      rw [hid, Option.some.injEq] at hid'
      subst hid'
      rw [hl, Option.some.injEq] at hl'
      subst hl'
      exact himage.unique himage'
  rw [hsame]

/-- Lists that can be encoded are written to a sink without a limit. -/
theorem forM_writeSlot_ok (hx : x.Sound s) {refs : List ListId} {pending : Nat}
    (hacc : s.Accounts refs pending) {labels : List Nat}
    (hlabels : ∀ label ∈ labels, label < x.slots.size) {tr : Transfer Sink}
    (hgranted : ∀ label ∈ labels, ∀ (id : ListId) (l : InvertedList t i),
      x.slots[label]? = some id → s.list? id = some l →
      InvertedList.EncodingGranted l l.spec.layout l.size tr.budget)
    (hroom : tr.stream.room = none) : ∃ tr', labels.forM (writeSlot x s) tr = .ok () tr' := by
  induction labels generalizing tr with
  | nil => exact ⟨tr, rfl⟩
  | cons label rest ih =>
      have hid := Array.getElem?_eq_getElem (hlabels label (List.mem_cons_self ..))
      obtain ⟨l, hl, hspec, -⟩ := hx.list label _ hid
      have hencoding := hgranted label (List.mem_cons_self ..) _ _ hid hl
      change ∃ tr', (writeSlot x s label >>= fun _ => rest.forM (writeSlot x s)) tr = .ok () tr'
      rcases InvertedList.writeRecord_cases (hacc.wellFormed_list hl) rfl none tr with
        ⟨e, -, -, -, hrefused⟩ | ⟨-, fields, -, hrun⟩
      · exact absurd hencoding hrefused
      · obtain ⟨stream, hput, hunlimited⟩ := Sink.putAll_unlimited fields hroom
        have hwrite : writeSlot x s label tr = .ok () { tr with stream } := by
          rw [writeSlot_eq hid hl, ← hspec, hrun]
          exact Transfer.streamed_ok hput
        rw [Action.bind_ok hwrite]
        exact ih (fun other hother => hlabels other (List.mem_cons_of_mem label hother))
          (fun other hother => hgranted other (List.mem_cons_of_mem label hother)) hunlimited

/-- An index whose lists can be encoded is written to a sink without a limit. -/
theorem write_ok (hx : x.Sound s) {refs : List ListId} {pending : Nat}
    (hacc : s.Accounts refs pending) {tr : Transfer Sink}
    (hgranted : ∀ (label : Nat) (id : ListId) (l : InvertedList t i),
      x.slots[label]? = some id → s.list? id = some l →
      InvertedList.EncodingGranted l l.spec.layout l.size tr.budget)
    (hroom : tr.stream.room = none) : ∃ tr', write x s tr = .ok () tr' := by
  obtain ⟨stream, hheader, hunlimited⟩ := Sink.putAll_unlimited (headerFields t i x) hroom
  rw [write, Action.bind_ok (Transfer.streamed_ok hheader)]
  exact forM_writeSlot_ok hx hacc (fun label hlabel => hx.lt_size.mpr (List.mem_range.mp hlabel))
    (fun label _ => hgranted label) hunlimited

/-- The budget is as before when an index has been written, or has not. -/
theorem budget_write (hx : x.Sound s) {refs : List ListId} {pending : Nat}
    (hacc : s.Accounts refs pending) (tr : Transfer Sink) :
    (Action.final (write x s) tr).budget = tr.budget := by
  rcases write_cases hx hacc tr with ⟨e, tr', hrun, hsame⟩ | ⟨fields, tr', hrun, hsame, -⟩
  · rw [Action.final_error hrun, hsame]
  · rw [Action.final_ok hrun, hsame]

/-! ## Saving -/

section Save

variable {sv : Saving t i}

theorem writeSlot_congr {s' : Store t i} (hlists : s'.lists = s.lists) (label : Nat) :
    writeSlot x s' label = writeSlot x s label := by
  have hlist : ∀ id, s'.list? id = s.list? id := fun id => by
    rw [Store.list?, Store.list?, Store.find?, Store.find?, hlists]
  simp only [writeSlot, hlist]

/-- The list of a label is saved as it is written. -/
theorem saveSlot_eq (x : Index) (label : Nat) (sv : Saving t i) :
    saveSlot x label sv = Saving.transferring (writeSlot x sv.store label) sv := by
  rw [saveSlot, writeSlot, Saving.transferring_bind, Saving.transferring_ofExcept]
  refine Action.bind_congr fun id sv' hslot => ?_
  obtain ⟨-, rfl⟩ := Action.ofExcept_eq_ok.mp hslot
  cases hfind : sv.store.find? id with
  | none =>
      have hlist : sv.store.list? id = none := by
        rw [Store.list?, hfind]
        rfl
      rw [Saving.writeList_none hfind, hlist]
      rfl
  | some h => rw [Saving.writeList_eq hfind, Store.list?_of_find? hfind]

/-- The lists of some labels are saved as they are written. They are those that were there in the
beginning, since saving one of them does nothing to the others. -/
theorem forM_saveSlot_eq (x : Index) (labels : List Nat)
    (hlists : sv.store.lists = s.lists) :
    labels.forM (saveSlot x) sv = Saving.transferring (labels.forM (writeSlot x s)) sv := by
  induction labels generalizing sv with
  | nil => rfl
  | cons label rest ih =>
      have hslot : saveSlot x label sv = Saving.transferring (writeSlot x s label) sv := by
        rw [saveSlot_eq, writeSlot_congr hlists]
      change (saveSlot x label >>= fun _ => rest.forM (saveSlot x)) sv =
        Saving.transferring (writeSlot x s label >>= fun _ => rest.forM (writeSlot x s)) sv
      rw [Saving.transferring_bind]
      cases hrun : Saving.transferring (writeSlot x s label) sv with
      | error e sv' => rw [Action.bind_error (hslot.trans hrun), Action.bind_error hrun]
      | ok u sv' =>
          rw [Action.bind_ok (hslot.trans hrun), Action.bind_ok hrun]
          exact ih ((Saving.lists_transferring hrun).trans hlists)

/-- An index is saved as it is written. -/
theorem save_eq (x : Index) (sv : Saving t i) :
    x.save sv = Saving.transferring (x.write sv.store) sv := by
  rw [save, write, Saving.transferring_bind]
  exact Action.bind_congr fun _ sv' hheader =>
    forM_saveSlot_eq x _ (Saving.lists_transferring hheader)

/-- The store is as before when an index has been saved, or has not. -/
theorem store_save {refs : List ListId} {pending : Nat} (hx : x.Sound sv.store)
    (hacc : sv.store.Accounts refs pending) : (Action.final x.save sv).store = sv.store := by
  rw [Action.final, save_eq]
  exact Saving.store_transferring (budget_write hx hacc sv.transfer)

end Save

end InvertedFile.Index
