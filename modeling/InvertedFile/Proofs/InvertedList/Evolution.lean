import InvertedFile.Proofs.InvertedList.Append
import InvertedFile.Proofs.InvertedList.Creation

/-!
# What others may do to a list

A list that somebody holds may be written by others, but only behind its
published records. `Evolves` says what such writes leave alone: the spec, the
buffers as far as they are published, and the bytes they take; the published
size may only grow. Every operation of a writer, whatever its arguments and
whether it succeeds or fails, takes a well-formed list to one it evolves to.

A failing write changes nothing at all: its check comes first, and what stands
behind it cannot fail on a well-formed list. An append is three writes behind a
check of the length of its batch. That check compares with a product of words,
and where the product wraps it may let a batch through that has more ids than
records. Then the words are packed before the ids find no slots.

## Main results

* `Evolves.trans`, `Evolves.published` — evolution is a preorder, and what was
  published stays the first part of what is published.
* `Evolves.tight` — a list with no more room than it needs stays so.
* `pack_cases`, `writeIds_cases`, `publish_cases`, `append_cases` — when the
  operations of a writer succeed, and what they leave when they fail.
* `evolves_pack`, `evolves_writeIds`, `evolves_publish`, `evolves_append` — the
  operations of a writer.
-/

namespace InvertedFile.InvertedList

variable {t : ElementType} {i : IdType}

/-- `after` is `before` with writes behind its published records. -/
structure Evolves (before after : InvertedList t i) : Prop where
  spec_eq : after.spec = before.spec
  capacity_eq : after.capacity = before.capacity
  reserved_eq : after.reserved = before.reserved
  size_data : after.data.size = before.data.size
  size_ids : after.ids.size = before.ids.size
  size_le : before.size ≤ after.size
  fits : before.size ≤ before.capacity → after.size ≤ after.capacity
  id : ∀ p < before.size, after.ids[p]? = before.ids[p]?
  word : ∀ p < before.size, ∀ d < before.spec.dim,
    after.data[Interleave.position before.spec.dim before.spec.veclen p d]? =
      before.data[Interleave.position before.spec.dim before.spec.veclen p d]?

namespace Evolves

theorem refl (l : InvertedList t i) : Evolves l l where
  spec_eq := rfl
  capacity_eq := rfl
  reserved_eq := rfl
  size_data := rfl
  size_ids := rfl
  size_le := Nat.le_refl _
  fits := fun h => h
  id := fun _ _ => rfl
  word := fun _ _ _ _ => rfl

theorem trans {a b c : InvertedList t i} (hab : Evolves a b) (hbc : Evolves b c) :
    Evolves a c where
  spec_eq := hbc.spec_eq.trans hab.spec_eq
  capacity_eq := hbc.capacity_eq.trans hab.capacity_eq
  reserved_eq := hbc.reserved_eq.trans hab.reserved_eq
  size_data := hbc.size_data.trans hab.size_data
  size_ids := hbc.size_ids.trans hab.size_ids
  size_le := Nat.le_trans hab.size_le hbc.size_le
  fits := fun h => hbc.fits (hab.fits h)
  id := fun p hp => (hbc.id p (Nat.lt_of_lt_of_le hp hab.size_le)).trans (hab.id p hp)
  word := fun p hp d hd => by
    have hword := hbc.word p (Nat.lt_of_lt_of_le hp hab.size_le) d (hab.spec_eq.symm ▸ hd)
    rw [hab.spec_eq] at hword
    exact hword.trans (hab.word p hp d hd)

variable {before after : InvertedList t i}

theorem wellFormed (h : Evolves before after) (hwell : before.WellFormed) :
    after.WellFormed where
  capacity_eq := by
    rw [h.capacity_eq, h.spec_eq]
    exact hwell.capacity_eq
  size_data := by
    rw [h.size_data, hwell.size_data, extents, extents, h.spec_eq, h.capacity_eq]
  size_ids := by rw [h.size_ids, h.capacity_eq, hwell.size_ids]
  size_le := h.fits hwell.size_le
  reserved_eq := by
    rw [h.reserved_eq, hwell.reserved_eq, memoryBytes, memoryBytes, h.size_data, h.size_ids]

/-- A list with no more room than it needs stays so, since all numbers of records up to a capacity
have that capacity. -/
theorem tight (h : Evolves before after) (hwell : before.WellFormed) (htight : before.Tight) :
    after.Tight := by
  have hfits := h.fits hwell.size_le
  unfold Tight at htight ⊢
  rw [h.spec_eq, h.capacity_eq]
  rw [h.capacity_eq] at hfits
  exact Growth.room?_of_le htight h.size_le hfits

/-- What was published is the first part of what is published. -/
theorem published (h : Evolves before after) (hwell : before.WellFormed) :
    after.published.take before.size = before.published := by
  apply List.ext_getElem?
  intro p
  rw [List.getElem?_take, getElem?_published (h.wellFormed hwell), getElem?_published hwell]
  by_cases hp : p < before.size
  · have hdim : after.extents.dim = before.extents.dim := by
      rw [dim_extents, dim_extents, h.spec_eq]
    have hrecord : after.extents.recordOf after.data p =
        before.extents.recordOf before.data p := by
      apply Extents.recordOf_congr hdim
      intro d hd
      rw [hdim, dim_extents] at hd ⊢
      rw [veclen_extents, veclen_extents, h.spec_eq]
      exact h.word p hp d hd
    have hlt : p < after.size := Nat.lt_of_lt_of_le hp h.size_le
    rw [if_pos hp, if_pos hp, if_pos hlt, h.id p hp, hrecord]
  · rw [if_neg hp, if_neg hp]

end Evolves

/-! ## The operations of a writer -/

section Writer

variable {l : InvertedList t i}

/-- A batch is packed exactly when it holds whole records and its slots are free. -/
theorem pack_cases (h : l.WellFormed) (codes : Array (Word t)) (start : Nat) :
    (∃ e, pack codes start l = .error e l) ∨
      ∃ n data, codes.size = n * l.spec.dim ∧ start + n ≤ l.capacity ∧
        (n = 0 ∨ l.size ≤ start) ∧ pack codes start l = .ok () { l with data } ∧
        Interleave.Packed l.spec.dim l.spec.veclen start n codes l.data data := by
  by_cases hwhole : codes.size % l.spec.dim = 0
  · have hcodes : codes.size = codes.size / l.spec.dim * l.spec.dim :=
      (Nat.div_mul_cancel (Nat.dvd_of_mod_eq_zero hwhole)).symm
    cases hcheck : l.checkTail start (codes.size / l.spec.dim) with
    | error e =>
        left
        refine ⟨e, ?_⟩
        change ((ensure (codes.size % l.spec.dim = 0) _ : Action _ Unit) >>= _) l = _
        rw [Action.bind_ok (Action.ensure_ok hwhole l),
          Action.bind_error (Action.ofExcept_error hcheck l)]
    | ok u =>
        right
        obtain ⟨hroom, htail⟩ := (l.checkTail_eq_ok_iff start _).mp hcheck
        obtain ⟨data, hpack, hpacked⟩ := pack_ok h hcodes hroom htail
        exact ⟨_, data, hcodes, hroom, htail, hpack, hpacked⟩
  · left
    refine ⟨.invalid (.partialRecords codes.size l.spec.dim), ?_⟩
    change ((ensure (codes.size % l.spec.dim = 0) _ : Action _ Unit) >>= _) l = _
    rw [Action.bind_error (Action.ensure_error hwhole _)]

/-- Ids are written exactly when their slots are free. -/
theorem writeIds_cases (h : l.WellFormed) (ids : Array (Id i)) (start : Nat) :
    (∃ e, writeIds ids start l = .error e l) ∨
      start + ids.size ≤ l.capacity ∧ (ids.size = 0 ∨ l.size ≤ start) ∧
        writeIds ids start l =
          .ok () { l with ids := Buffer.overwrite l.ids start ids.toList } := by
  cases hcheck : l.checkTail start ids.size with
  | error e =>
      left
      refine ⟨e, ?_⟩
      change (Action.ofExcept (l.checkTail start ids.size) >>= _) l = _
      rw [Action.bind_error (Action.ofExcept_error hcheck l)]
  | ok u =>
      right
      obtain ⟨hroom, htail⟩ := (l.checkTail_eq_ok_iff start _).mp hcheck
      exact ⟨hroom, htail, writeIds_ok h.size_ids hroom htail⟩

/-- A size is published exactly when there are slots for it and it is no smaller. -/
theorem publish_cases (l : InvertedList t i) (size : Nat) :
    (∃ e, publish size l = .error e l) ∨
      size ≤ l.capacity ∧ l.size ≤ size ∧ publish size l = .ok () { l with size } := by
  by_cases hroom : size ≤ l.capacity
  · by_cases hgrow : l.size ≤ size
    · exact Or.inr ⟨hroom, hgrow, publish_ok hroom hgrow⟩
    · left
      refine ⟨.invalid (.shrinkingPublish size l.size), ?_⟩
      change ((ensure (size ≤ l.capacity) _ : Action _ Unit) >>= _) l = _
      rw [Action.bind_ok (Action.ensure_ok hroom l),
        Action.bind_error (Action.ensure_error hgrow _)]
  · left
    refine ⟨.outOfBounds .listSize size l.capacity, ?_⟩
    change ((ensure (size ≤ l.capacity) _ : Action _ Unit) >>= _) l = _
    rw [Action.bind_error (Action.ensure_error hroom _)]

/-! ## Evolution under a writer -/

/-- Words behind the published records are written. -/
theorem Evolves.of_packed {codes data : Array (Word t)} {start n : Nat}
    (hpacked : Interleave.Packed l.spec.dim l.spec.veclen start n codes l.data data)
    (htail : n = 0 ∨ l.size ≤ start) : Evolves l { l with data } where
  spec_eq := rfl
  capacity_eq := rfl
  reserved_eq := rfl
  size_data := hpacked.size_eq
  size_ids := rfl
  size_le := Nat.le_refl _
  fits := fun h => h
  id := fun _ _ => rfl
  word := fun p hp d hd => by rw [hpacked.cell p d hd, if_neg (by omega)]

/-- Ids behind the published records are written. -/
theorem Evolves.of_ids (l : InvertedList t i) {ids : List (Id i)} {start : Nat}
    (htail : ids.length = 0 ∨ l.size ≤ start) :
    Evolves l { l with ids := Buffer.overwrite l.ids start ids } where
  spec_eq := rfl
  capacity_eq := rfl
  reserved_eq := rfl
  size_data := rfl
  size_ids := Buffer.size_overwrite _ _ _
  size_le := Nat.le_refl _
  fits := fun h => h
  id := fun p hp => by rw [Buffer.getElem?_overwrite, if_neg (by omega)]
  word := fun _ _ _ _ => rfl

/-- A greater size is published. -/
theorem Evolves.of_size (l : InvertedList t i) {size : Nat} (hroom : size ≤ l.capacity)
    (hgrow : l.size ≤ size) : Evolves l { l with size } where
  spec_eq := rfl
  capacity_eq := rfl
  reserved_eq := rfl
  size_data := rfl
  size_ids := rfl
  size_le := hgrow
  fits := fun _ => hroom
  id := fun _ _ => rfl
  word := fun _ _ _ _ => rfl

theorem evolves_pack (h : l.WellFormed) (codes : Array (Word t)) (start : Nat) :
    Evolves l (Action.final (pack codes start) l) := by
  rcases pack_cases h codes start with ⟨e, hpack⟩ | ⟨n, data, -, -, htail, hpack, hpacked⟩
  · rw [Action.final_error hpack]
    exact Evolves.refl l
  · rw [Action.final_ok hpack]
    exact Evolves.of_packed hpacked htail

theorem evolves_writeIds (h : l.WellFormed) (ids : Array (Id i)) (start : Nat) :
    Evolves l (Action.final (writeIds ids start) l) := by
  rcases writeIds_cases h ids start with ⟨e, hwrite⟩ | ⟨-, htail, hwrite⟩
  · rw [Action.final_error hwrite]
    exact Evolves.refl l
  · rw [Action.final_ok hwrite]
    exact Evolves.of_ids l (by rwa [Array.length_toList])

theorem evolves_publish (l : InvertedList t i) (size : Nat) :
    Evolves l (Action.final (publish size) l) := by
  rcases publish_cases l size with ⟨e, hpublish⟩ | ⟨hroom, hgrow, hpublish⟩
  · rw [Action.final_error hpublish]
    exact Evolves.refl l
  · rw [Action.final_ok hpublish]
    exact Evolves.of_size l hroom hgrow

theorem Evolves.of_appended {codes data : Array (Word t)} {ids : Array (Id i)}
    (hroom : l.size + ids.size ≤ l.capacity)
    (hpacked : Interleave.Packed l.spec.dim l.spec.veclen l.size ids.size codes l.data data) :
    Evolves l (l.appended data ids) := by
  have htail : ids.size = 0 ∨ l.size ≤ l.size := Or.inr (Nat.le_refl _)
  have hwords := Evolves.of_packed hpacked htail
  have hids : Evolves { l with data }
      { l with data, ids := Buffer.overwrite l.ids l.size ids.toList } :=
    Evolves.of_ids { l with data } (by rwa [Array.length_toList])
  have hsize := Evolves.of_size
    { l with data, ids := Buffer.overwrite l.ids l.size ids.toList } hroom (Nat.le_add_right _ _)
  exact (hwords.trans hids).trans hsize

/-- A batch is appended exactly when it has the elements its ids ask for and fits. Otherwise nothing
is written, unless the ids ask for more elements than a word counts: then the words of a shorter
batch may have been packed before the ids find no slots. -/
theorem append_cases (h : l.WellFormed) (codes : Array (Word t)) (ids : Array (Id i)) :
    (∃ e, append codes ids l = .error e l) ∨
      (∃ e n data, UInt64.size ≤ ids.size * l.spec.dim ∧ l.size + n ≤ l.capacity ∧
        append codes ids l = .error e { l with data } ∧
        Interleave.Packed l.spec.dim l.spec.veclen l.size n codes l.data data) ∨
      codes.size = ids.size * l.spec.dim ∧ l.size + ids.size ≤ l.capacity ∧
        ∃ data, append codes ids l = .ok (l.size + ids.size) (l.appended data ids) ∧
          Interleave.Packed l.spec.dim l.spec.veclen l.size ids.size codes l.data data := by
  by_cases hlength : codes.size = elementCount l.spec.dim ids.size
  · by_cases hroom : l.size + ids.size ≤ l.capacity
    · have hcodes : codes.size = ids.size * l.spec.dim :=
        hlength.trans (elementCount_eq h (by omega))
      exact Or.inr (Or.inr ⟨hcodes, hroom, append_ok h hcodes hroom⟩)
    · rcases pack_cases h codes l.size with ⟨e, hpack⟩ | ⟨n, data, hn, hfits, -, hpack, hpacked⟩
      · exact Or.inl ⟨e, (append_of_length hlength).trans (Action.bind_error hpack)⟩
      · -- fewer records have been packed than there are ids
        have hwraps : UInt64.size ≤ ids.size * l.spec.dim := by
          apply Nat.le_of_not_lt
          intro hlt
          have hcount : n = ids.size := Nat.eq_of_mul_eq_mul_right l.spec.layout.dim_pos
            (hn.symm.trans (hlength.trans (elementCount_of_lt hlt)))
          omega
        have hwords := (Evolves.of_packed hpacked (Or.inr (Nat.le_refl _))).wellFormed h
        rcases writeIds_cases hwords ids l.size with ⟨e, hids⟩ | ⟨hslots, -⟩
        · refine Or.inr (Or.inl ⟨e, n, data, hwraps, hfits, ?_, hpacked⟩)
          rw [append_of_length hlength, Action.bind_ok hpack, Action.bind_error hids]
        · exact absurd hslots hroom
  · exact Or.inl ⟨_, append_of_length_ne hlength⟩

theorem evolves_append (h : l.WellFormed) (codes : Array (Word t)) (ids : Array (Id i)) :
    Evolves l (Action.final (append codes ids) l) := by
  rcases append_cases h codes ids with
    ⟨e, happend⟩ | ⟨e, n, data, -, -, happend, hpacked⟩ | ⟨-, hroom, data, happend, hpacked⟩
  · rw [Action.final_error happend]
    exact Evolves.refl l
  · rw [Action.final_error happend]
    exact Evolves.of_packed hpacked (Or.inr (Nat.le_refl _))
  · rw [Action.final_ok happend]
    exact Evolves.of_appended hroom hpacked

end Writer

end InvertedFile.InvertedList
