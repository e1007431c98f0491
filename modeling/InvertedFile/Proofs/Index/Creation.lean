import InvertedFile.Proofs.Index.Format

/-!
# Loading and creating an index

There are two ways to come by an index. Creating one looks at its parameters:
there is at least one list, and where the parameters ask for a width of chunks
the lists are laid out with it. An image says the same things twice, in its
parameters and in the fields around them, and reading it compares the numbers
of lists but not the widths. Nor does it ask for a list at all.

So the parameters of an index that was read need not be parameters that an
index could be created with. What decides it are two fields of the image, and
nothing that stands in its records.

## Main results

* `creatable_new`, `Creatable.new_ok` — what creating an index establishes, and
  that it is enough to create the index again.
* `read_empty` — an image of empty lists is read, whatever its parameters and
  its layout are.
* `read_creatable_iff` — which of the images that are read give an index that
  could have been created.
-/

namespace InvertedFile.LoadedIndex

open Index Source

variable {t : ElementType} {i : IdType} {x : LoadedIndex t i}

/-! ## What creating establishes -/

/-- There is at least one list, and the lists are laid out as the parameters ask for. -/
structure Creatable (x : LoadedIndex t i) : Prop where
  lists_pos : 1 ≤ x.params.lists.toNat
  veclen_eq : ∀ veclen, x.params.veclen = some veclen → x.spec.veclen = veclen.toNat

/-- An index is created when its parameters ask for lists and the widths make a layout. -/
theorem new_eq {params : IndexParams} {dim : UInt32} {spec : ListSpec} (hlists : params.lists ≠ 0)
    (hspec : ListSpec.ofWidths dim
      (params.veclen.getD (UInt32.ofNat (widestVeclen t dim.toNat))) params.growth = .ok spec) :
    new t i params dim =
      .ok { params, spec, lists := List.replicate params.lists.toNat (.empty t i spec) } := by
  unfold new
  rw [if_neg hlists]
  simp only [hspec]

/-- An index that is created is as its parameters ask for. -/
theorem creatable_new {params : IndexParams} {dim : UInt32} (h : new t i params dim = .ok x) :
    x.Creatable ∧ x.params = params ∧ x.spec.dim = dim.toNat ∧
      x.lists = List.replicate params.lists.toNat (.empty t i x.spec) := by
  by_cases hlists : params.lists = 0
  · rw [new, if_pos hlists] at h
    cases h
  cases hspec : ListSpec.ofWidths dim
      (params.veclen.getD (UInt32.ofNat (widestVeclen t dim.toNat))) params.growth with
  | error cause =>
      unfold new at h
      rw [if_neg hlists] at h
      simp only [hspec] at h
      cases h
  | ok spec =>
      rw [new_eq hlists hspec] at h
      cases h
      obtain ⟨layout, hlayout, hmade⟩ := Except.bind_eq_ok.mp hspec
      cases hmade
      obtain ⟨hdim, hveclen⟩ := Layout.ofWidths_eq_ok_iff.mp hlayout
      refine ⟨⟨?_, ?_⟩, rfl, hdim, rfl⟩
      · exact Nat.one_le_iff_ne_zero.mpr fun hzero => hlists (UInt32.toNat_inj.mp hzero)
      · intro veclen hasked
        rw [hasked, Option.getD_some] at hveclen
        exact hveclen

/-- An index that is as its parameters ask for, and that names its width, is created again from its
parameters and the columns of its vectors, with the same layout. -/
theorem Creatable.new_ok (h : x.Creatable) (hx : x.Sound) {veclen : UInt32}
    (hveclen : x.params.veclen = some veclen) : ∃ y : LoadedIndex t i,
      new t i x.params (UInt32.ofNat x.spec.dim) = .ok y ∧ y.params = x.params ∧
        y.spec = x.spec := by
  have hlists : x.params.lists ≠ 0 := by
    intro hzero
    have hpos := h.lists_pos
    rw [hzero] at hpos
    exact absurd hpos (by decide)
  have hwidth : veclen = UInt32.ofNat x.spec.veclen := by
    rw [h.veclen_eq veclen hveclen, UInt32.ofNat_toNat]
  have hspec := ListSpec.ofWidths_widths x.spec
  rw [hx.growth_eq, ← hwidth] at hspec
  have hasked : ListSpec.ofWidths (UInt32.ofNat x.spec.dim)
      (x.params.veclen.getD (UInt32.ofNat (widestVeclen t (UInt32.ofNat x.spec.dim).toNat)))
      x.params.growth = .ok x.spec := by
    rw [hveclen, Option.getD_some]
    exact hspec
  exact ⟨_, new_eq hlists hasked, rfl, rfl⟩

/-! ## What reading establishes -/

/-- What an image says of the parameters and the layout is what is read. -/
theorem begins_of_read {b : Budget} {bytes : Bytes} {ending : Ending} {out : Transfer Source}
    (h : read t i { budget := b, stream := { bytes, ending } } = .ok x out) :
    ∃ header contents rest, Begins t i header contents bytes rest ∧
      contents.length = header.params.lists.toNat ∧ x.params = header.params ∧
      x.spec = header.spec ∧ x.Sound := by
  obtain ⟨header, contents, rest, hbegins, hlength, hroom⟩ :=
    (read_accepts_exactly_images t i b bytes ending).1.mp ⟨x, out, h⟩
  obtain ⟨y, hread, hparams, hspec, hy, -⟩ := hbegins.read_ok hlength hroom ending
  rw [h] at hread
  cases hread
  exact ⟨header, contents, rest, hbegins, hlength, hparams, hspec, hy⟩

/-- The image of an index of empty lists. -/
def emptyImage (t : ElementType) (i : IdType) (params : IndexParams) (spec : ListSpec) : Bytes :=
  opening t i ++ (LittleEndian.encode 4 spec.dim ++ (LittleEndian.encode 4 spec.veclen ++
    (LittleEndian.encode 4 params.toJson.length ++ params.toJson ++
      LittleEndian.encode 4 params.lists.toNat))) ++
    (List.replicate params.lists.toNat (LittleEndian.encode 4 0)).flatten

theorem areRecords_empty (store : Layout) (n : Nat) :
    AreRecords store (List.replicate n ((#[], #[]) : Array (Id i) × Array (Word t)))
      (List.replicate n (LittleEndian.encode 4 0)).flatten := by
  induction n with
  | zero => exact .nil
  | succ n ih => exact .cons .empty ih

theorem roomFor_empty (spec : ListSpec) (n : Nat) (b : Budget) :
    RoomFor spec (List.replicate n ((#[], #[]) : Array (Id i) × Array (Word t))) b := by
  induction n generalizing b with
  | zero => exact trivial
  | succ n ih => exact ⟨Or.inl rfl, ih _⟩

/-- The image of an index of empty lists is read. Its parameters may ask for any number of lists,
for none as well, and for any width of chunks, whatever the layout is. -/
theorem read_empty (t : ElementType) (i : IdType) (params : IndexParams) (spec : ListSpec)
    (hgrowth : spec.growth = params.growth) (b : Budget) (ending : Ending) :
    ∃ (x : LoadedIndex t i) (out : Transfer Source),
      read t i { budget := b, stream := { bytes := emptyImage t i params spec, ending } } =
        .ok x out ∧ x.params = params ∧ x.spec = spec := by
  have hheader : IsHeader t i _ { params, spec } :=
    .fields (.text params.length_toJson_le params.ofJson?_toJson) hgrowth
  have hbegins : Begins t i { params, spec } _ (emptyImage t i params spec) [] :=
    ⟨_, _, by rw [List.append_nil, emptyImage], hheader,
      areRecords_empty spec.layout params.lists.toNat⟩
  obtain ⟨x, hread, hparams, hspec, -⟩ := hbegins.read_ok List.length_replicate
    (roomFor_empty spec params.lists.toNat b) ending
  exact ⟨x, _, hread, hparams, hspec⟩

/-- Of the bytes that are read, these give an index that is as its parameters ask for and, where
they name a width, is created again from them with the same layout: the number of lists in the image
is not zero, and the width of chunks in its header is the one its parameters name, if they name
one. -/
theorem read_creatable_iff {b : Budget} {bytes : Bytes} {ending : Ending} {out : Transfer Source}
    (h : read t i { budget := b, stream := { bytes, ending } } = .ok x out) :
    ∃ header contents rest, Begins t i header contents bytes rest ∧
      contents.length = header.params.lists.toNat ∧ x.params = header.params ∧
      x.spec = header.spec ∧
      ((x.Creatable ∧ ∀ veclen, x.params.veclen = some veclen → ∃ y : LoadedIndex t i,
          new t i x.params (UInt32.ofNat x.spec.dim) = .ok y ∧ y.params = x.params ∧
            y.spec = x.spec) ↔
        header.params.lists ≠ 0 ∧
          ∀ veclen, header.params.veclen = some veclen → header.spec.veclen = veclen.toNat) := by
  obtain ⟨header, contents, rest, hbegins, hlength, hparams, hspec, hx⟩ := begins_of_read h
  refine ⟨header, contents, rest, hbegins, hlength, hparams, hspec, ?_⟩
  rw [← hparams, ← hspec]
  constructor
  · rintro ⟨hcreatable, -⟩
    refine ⟨fun hzero => ?_, hcreatable.veclen_eq⟩
    have hpos := hcreatable.lists_pos
    rw [hzero] at hpos
    exact absurd hpos (by decide)
  · rintro ⟨hlists, hveclen⟩
    have hpos : 1 ≤ x.params.lists.toNat :=
      Nat.one_le_iff_ne_zero.mpr fun hzero => hlists (UInt32.toNat_inj.mp hzero)
    have hcreatable : x.Creatable := ⟨hpos, hveclen⟩
    exact ⟨hcreatable, fun veclen hasked => hcreatable.new_ok hx hasked⟩

/-- Records of two columns in chunks of one. -/
def twoColumns : ListSpec where
  layout :=
    { dim := 2
      veclen := 1
      dim_pos := by decide
      dim_lt := by decide
      veclen_isPowerOfTwo := Nat.isPowerOfTwo_one
      veclen_dvd_dim := by decide }
  growth := .doubling

/-- Parameters that ask for a list and for a width of chunks. -/
def paramsOfWidth (veclen : UInt32) : IndexParams :=
  { IndexParams.new 1 with veclen := some veclen }

/-- An index is created again from what an image says when both name the same width. -/
theorem read_creatable_twoColumns : ∃ x out y,
    read .u8 .i32
        { budget := .new none
          stream :=
            { bytes := emptyImage .u8 .i32 (paramsOfWidth 1) twoColumns
              ending := .endOfInput } } = .ok x out ∧
      x.Creatable ∧ new .u8 .i32 x.params 2 = .ok y ∧ y.spec = x.spec := by
  obtain ⟨x, out, hread, hparams, hspec⟩ :=
    read_empty .u8 .i32 (paramsOfWidth 1) twoColumns rfl (.new none) .endOfInput
  obtain ⟨header, contents, rest, -, -, hparams', hspec', hiff⟩ := read_creatable_iff hread
  have hwidth : x.params.veclen = some 1 := by rw [hparams]; rfl
  obtain ⟨hcreatable, hnew⟩ := hiff.mpr <| by
    rw [← hparams', ← hspec', hparams, hspec]
    refine ⟨by decide, ?_⟩
    rintro _ ⟨⟩
    rfl
  obtain ⟨y, hy, -, hsame⟩ := hnew 1 hwidth
  rw [hspec] at hy
  exact ⟨x, out, y, hread, hcreatable, hy, hsame⟩

/-- An image of no lists is read, from whose parameters no index is created. So is an image of one
list with chunks of one column whose parameters ask for chunks of two; created from them, the index
has another layout. -/
theorem read_uncreatable :
    (∃ x out,
      read .u8 .i32
          { budget := .new none
            stream :=
              { bytes := emptyImage .u8 .i32 (.new 0) twoColumns, ending := .endOfInput } } =
        .ok x out ∧ ¬ 1 ≤ x.params.lists.toNat ∧
      new .u8 .i32 x.params 2 = .error (.invalid .noLists)) ∧
    ∃ x out y,
      read .u8 .i32
          { budget := .new none
            stream :=
              { bytes := emptyImage .u8 .i32 (paramsOfWidth 2) twoColumns
                ending := .endOfInput } } = .ok x out ∧
        x.params.veclen = some 2 ∧ x.spec.veclen = 1 ∧
        new .u8 .i32 x.params 2 = .ok y ∧ y.spec.veclen = 2 := by
  constructor
  · obtain ⟨x, out, hread, hparams, -⟩ :=
      read_empty .u8 .i32 (.new 0) twoColumns rfl (.new none) .endOfInput
    refine ⟨x, out, hread, ?_, ?_⟩
    · rw [hparams]
      decide
    · rw [hparams]
      rfl
  · obtain ⟨x, out, hread, hparams, hspec⟩ :=
      read_empty .u8 .i32 (paramsOfWidth 2) twoColumns rfl (.new none) .endOfInput
    have hwidths : ListSpec.ofWidths 2 2 .doubling = .ok
        { layout := ⟨2, 2, by decide, by decide, ⟨1, rfl⟩, by decide⟩, growth := .doubling } := by
      rfl
    have hnew : new .u8 .i32 (paramsOfWidth 2) 2 = .ok _ := new_eq (by decide) hwidths
    rw [← hparams] at hnew
    refine ⟨x, out, _, hread, ?_, ?_, hnew, rfl⟩
    · rw [hparams]
      rfl
    · rw [hspec]
      rfl

end InvertedFile.LoadedIndex
