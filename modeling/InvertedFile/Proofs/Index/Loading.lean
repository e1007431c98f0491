import InvertedFile.Index.Image
import InvertedFile.Proofs.Index.Reset
import InvertedFile.Proofs.InvertedList.Loading

/-!
# An index from its image

An image is read from front to back, and any bytes may be offered. What comes
of it is an index in order, with the lists its parameters ask for and the
budget charged with their buffers, or an error and the budget as it was: the
lists that were read before the error are given back one after the other.

An index that is made of empty lists is in order in the same way.

## Main results

* `read_cases` — what comes of reading any bytes.
* `sound_new` — an index that is made is in order.
-/

namespace InvertedFile

/-- A spec grows as it was asked to. -/
theorem ListSpec.growth_of_ofWidths {dim veclen : UInt32} {growth : Growth} {spec : ListSpec}
    (h : ListSpec.ofWidths dim veclen growth = .ok spec) : spec.growth = growth := by
  obtain ⟨layout, -, hspec⟩ := Except.bind_eq_ok.mp h
  cases hspec
  rfl

namespace LoadedIndex

variable {t : ElementType} {i : IdType}

/-- Bytes charged for the lists of an index that is in no store yet. -/
def reserved (x : LoadedIndex t i) : Nat :=
  (x.lists.map (·.reserved)).sum

/-- The lists of an image grow as its parameters say. -/
theorem growth_of_readHeader {s s' : Source} {header : Header}
    (h : readHeader t i s = .ok header s') : header.spec.growth = header.params.growth := by
  simp only [readHeader, Action.bind_eq_ok] at h
  obtain ⟨_, _, -, _, _, -, _, _, -, _, _, -, _, _, -, _, _, -, dim, _, -, veclen, _, -, _, _, -,
    _, _, -, text, _, -, h⟩ := h
  cases hparams : IndexParams.ofJson? text with
  | none =>
      rw [hparams] at h
      cases h
  | some params =>
      simp only [hparams, Action.bind_eq_ok] at h
      obtain ⟨_, _, -, _, _, -, h⟩ := h
      cases hspec : ListSpec.ofWidths (UInt32.ofNat dim) (UInt32.ofNat veclen) params.growth with
      | error cause =>
          rw [hspec] at h
          cases h
      | ok spec =>
          rw [hspec] at h
          cases h
          exact ListSpec.growth_of_ofWidths hspec

/-- The lists that are read are charged to the budget, and when one cannot be read those before it
are given back. -/
theorem readRecords_cases (spec : ListSpec) (n : Nat) {tr : Transfer Source}
    (hbudget : tr.budget.Sound) :
    (∃ e tr', readRecords t i spec n tr = .error e tr' ∧ tr'.budget = tr.budget) ∨
      ∃ lists tr', readRecords t i spec n tr = .ok lists tr' ∧
        tr'.budget = tr.budget.charged (lists.map (·.reserved)).sum ∧ tr'.budget.Sound ∧
        lists.length = n ∧ ∀ l ∈ lists, InvertedList.Loaded spec l := by
  induction n generalizing tr with
  | zero =>
      refine Or.inr ⟨[], tr, rfl, rfl, hbudget, rfl, ?_⟩
      intro l hl
      cases hl
  | succ n ih =>
      rcases InvertedList.readRecord_cases (t := t) (i := i) spec spec hbudget with
        ⟨e, tr', hread, hsame⟩ | ⟨l, tr₁, hread, hcharged, hsound, hloaded⟩
      · exact Or.inl ⟨e, tr', Action.bind_error hread, hsame⟩
      · rw [readRecords, Action.bind_ok hread]
        rcases ih hsound with
          ⟨e, tr', hmore, hsame⟩ | ⟨lists, tr', hmore, hcharged', hsound', hlength, hgood⟩
        · refine Or.inl ⟨e, tr'.release l.reserved,
            Action.bind_error (Action.undoing_error.mpr ⟨tr', hmore, rfl⟩), ?_⟩
          show tr'.budget.release l.reserved = tr.budget
          rw [hsame, hcharged, Budget.release_charged]
        · refine Or.inr ⟨l :: lists, tr', Action.bind_ok (Action.undoing_ok.mpr hmore), ?_, hsound',
            congrArg (· + 1) hlength, List.forall_mem_cons.mpr ⟨hloaded, hgood⟩⟩
          rw [hcharged', hcharged, Budget.charged_charged, List.map_cons, List.sum_cons]

/-- Any bytes give an index in order, to whose lists the budget is charged, or leave the budget as
it was. -/
theorem read_cases {tr : Transfer Source} (hbudget : tr.budget.Sound) :
    (∃ e tr', read t i tr = .error e tr' ∧ tr'.budget = tr.budget) ∨
      ∃ x tr', read t i tr = .ok x tr' ∧ tr'.budget = tr.budget.charged x.reserved ∧
        tr'.budget.Sound ∧ x.Sound := by
  cases hheader : readHeader t i tr.stream with
  | error e s => exact Or.inl ⟨e, _, Action.bind_error (Transfer.streamed_error hheader), rfl⟩
  | ok header s =>
      rw [read, Action.bind_ok (Transfer.streamed_ok hheader)]
      have hbudget' : ({ tr with stream := s } : Transfer Source).budget.Sound := hbudget
      rcases readRecords_cases (t := t) (i := i) header.spec header.params.lists.toNat hbudget' with
        ⟨e, tr', hread, hsame⟩ | ⟨lists, tr', hread, hcharged, hsound, hlength, hgood⟩
      · exact Or.inl ⟨e, tr', Action.bind_error hread, hsame⟩
      · refine Or.inr ⟨{ params := header.params, spec := header.spec, lists }, tr',
          Action.bind_ok hread, hcharged, hsound, hlength, growth_of_readHeader hheader, ?_⟩
        intro l hl
        have hloaded := hgood l hl
        exact ⟨hloaded.spec_eq, hloaded.tight, hloaded.wellFormed, hloaded.hosted⟩

/-- An index that is made is in order. -/
theorem sound_new {params : IndexParams} {dim : UInt32} {x : LoadedIndex t i}
    (h : LoadedIndex.new t i params dim = .ok x) : x.Sound ∧ x.reserved = 0 := by
  unfold LoadedIndex.new at h
  by_cases hlists : params.lists = 0
  · rw [if_pos hlists] at h
    cases h
  · rw [if_neg hlists] at h
    cases hspec : ListSpec.ofWidths dim
        (params.veclen.getD (UInt32.ofNat (widestVeclen t dim.toNat))) params.growth with
    | error cause =>
        simp only [hspec] at h
        cases h
    | ok spec =>
        simp only [hspec] at h
        cases h
        refine ⟨⟨List.length_replicate, ListSpec.growth_of_ofWidths hspec, ?_⟩, ?_⟩
        · intro l hl
          rw [List.eq_of_mem_replicate hl]
          exact ⟨rfl, InvertedList.tight_empty spec, InvertedList.wellFormed_empty spec,
            InvertedList.hosted_empty spec⟩
        · simp [reserved, InvertedList.reserved_empty]

end LoadedIndex

end InvertedFile
