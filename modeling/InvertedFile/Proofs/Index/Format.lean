import InvertedFile.Proofs.Index.RoundTrip
import InvertedFile.Proofs.InvertedList.Format

/-!
# The format of an index

An image is a header and one record for each list. `IsHeader` is the format of
the header, with any text for the parameters that can be read as such, and
`HeaderDefect` tells the places at which bytes can leave it, in the order of
the fields. The records are those of the format of a record, so that an index
adds nothing to them but their number, which is taken from the header.

Bytes are therefore gone through twice. The header is walked field by field,
and the records one by one; each of the walks ends with the format in hand, or
at the first thing that is not as it should be. On the second walk the budget is
watched as well, because the lists that were read before a record are in use
when it is its turn, and are given up when it fails.

## Main results

* `readHeader_eq` — the header in three parts.
* `header_or_defect`, `HeaderDefect.refuses` — bytes start with a header, or
  with a defect that is refused.
* `records_or_failure` — bytes go on with all records, or with some and one that
  fails.
* `read_accepts_exactly_images` — which bytes are read, what becomes of them, and
  which error the others end in.
-/

namespace InvertedFile.LoadedIndex

open Index Source
open InvertedList (fourColumns)

variable {t : ElementType} {i : IdType}

/-! ## The header in three parts -/

/-- Reads what kind of image this is. -/
def readOpening (t : ElementType) (i : IdType) : Action Source Unit := do
  let magic ← number 4
  ensure (magic = Index.magic) (.incompatible (.magic Index.magic magic))
  let version ← number 4
  ensure (version = Index.version) (.incompatible (.version Index.version version))
  readTag .value t
  readTag .id i.element

/-- Reads the parameters. -/
def readParams : Action Source IndexParams := do
  let length ← number 4
  ensure (length ≤ paramsLimit) (.malformed (.paramsLength length))
  let text ← take length
  match IndexParams.ofJson? text with
  | none => throw (.malformed .params)
  | some params => return params

/-- Reads the number of lists, and makes the header of what has been read. -/
def readLists (dim veclen : Nat) (params : IndexParams) : Action Source Header := do
  let lists ← number 4
  ensure (lists = params.lists.toNat) (.malformed (.listCount lists params.lists.toNat))
  match ListSpec.ofWidths (UInt32.ofNat dim) (UInt32.ofNat veclen) params.growth with
  | .error cause => throw (.malformed (.layout cause))
  | .ok spec => return { params, spec }

/-- The header is read in three parts, with the widths between the first and the second. -/
theorem readHeader_eq (t : ElementType) (i : IdType) : readHeader t i = (do
    readOpening t i
    let dim ← number 4
    let veclen ← number 4
    let params ← readParams
    readLists dim veclen params) := by
  simp only [readHeader, readOpening, readParams, bind_assoc]
  iterate 11 (refine bind_congr fun _ => ?_)
  next text =>
    cases IndexParams.ofJson? text with
    | none => rfl
    | some params => rfl

/-! ## What kind of image this is -/

/-- The fields of a header that say what kind of image it is the header of. -/
def opening (t : ElementType) (i : IdType) : Bytes :=
  LittleEndian.encode 4 magic ++ (LittleEndian.encode 4 version ++ [t.tag, i.element.tag])

/-- What keeps bytes from starting with the opening of an image of these types. A tag that stands
for no type is another tag like any. -/
inductive OpeningDefect (t : ElementType) (i : IdType) (ending : Ending) : Bytes → Error → Prop where
  | shortMagic {bytes : Bytes} (h : bytes.length < 4) :
      OpeningDefect t i ending bytes ending.error
  | magic {found : Nat} {rest : Bytes} (hlt : found < 256 ^ 4) (h : found ≠ magic) :
      OpeningDefect t i ending (LittleEndian.encode 4 found ++ rest)
        (.incompatible (.magic magic found))
  | shortVersion {rest : Bytes} (h : rest.length < 4) :
      OpeningDefect t i ending (LittleEndian.encode 4 magic ++ rest) ending.error
  | version {found : Nat} {rest : Bytes} (hlt : found < 256 ^ 4) (h : found ≠ version) :
      OpeningDefect t i ending
        (LittleEndian.encode 4 magic ++ (LittleEndian.encode 4 found ++ rest))
        (.incompatible (.version version found))
  | noValueTag :
      OpeningDefect t i ending
        (LittleEndian.encode 4 magic ++ (LittleEndian.encode 4 version ++ [])) ending.error
  | valueTag {tag : UInt8} {rest : Bytes} (h : tag ≠ t.tag) :
      OpeningDefect t i ending
        (LittleEndian.encode 4 magic ++ (LittleEndian.encode 4 version ++ tag :: rest))
        (.incompatible (.elementType .value t tag))
  | noIdTag :
      OpeningDefect t i ending
        (LittleEndian.encode 4 magic ++ (LittleEndian.encode 4 version ++ [t.tag])) ending.error
  | idTag {tag : UInt8} {rest : Bytes} (h : tag ≠ i.element.tag) :
      OpeningDefect t i ending
        (LittleEndian.encode 4 magic ++ (LittleEndian.encode 4 version ++ t.tag :: tag :: rest))
        (.incompatible (.elementType .id i.element tag))

theorem reads_opening : Reads (readOpening t i) (opening t i) () := by
  have hversion : version < 256 ^ 4 := by decide
  refine (reads_number (by decide)).bind (.check rfl ?_)
  refine (reads_number hversion).bind (.check rfl ?_)
  exact (reads_tag .value t).bind (reads_tag .id i.element)

theorem refuses_tag {role : TypeRole} {expected : ElementType} {tag : UInt8}
    (h : tag ≠ expected.tag) (rest : Bytes) (ending : Ending) :
    Refuses (readTag role expected) (tag :: rest) ending
      (.incompatible (.elementType role expected tag)) := by
  refine .behind_byte ?_
  simp only [UInt8.ofNat_toNat]
  exact refuses_ensure h _ _ _

/-- The tags are read behind the magic number and the version. -/
private theorem refuses_behind_version {rest : Bytes} {ending : Ending} {e : Error}
    (h : Refuses (do
      readTag .value t
      readTag .id i.element) rest ending e) :
    Refuses (readOpening t i)
      (LittleEndian.encode 4 magic ++ (LittleEndian.encode 4 version ++ rest)) ending e := by
  have hmagic : Index.magic < 256 ^ 4 := by decide
  have hversion : Index.version < 256 ^ 4 := by decide
  refine .behind (reads_number hmagic) (.check rfl ?_)
  exact .behind (reads_number hversion) (.check rfl h)

/-- A defect of the opening is refused with its error. -/
theorem OpeningDefect.refuses {ending : Ending} {bytes : Bytes} {e : Error}
    (h : OpeningDefect t i ending bytes e) : Refuses (readOpening t i) bytes ending e := by
  have hmagic : Index.magic < 256 ^ 4 := by decide
  cases h with
  | shortMagic h => exact (refuses_number h ending).bind
  | magic hlt h => exact .behind (reads_number hlt) (refuses_ensure h _ _ _).bind
  | shortVersion h =>
      exact .behind (reads_number hmagic) (.check rfl (refuses_number h ending).bind)
  | version hlt h =>
      refine .behind (reads_number hmagic) (.check rfl ?_)
      exact .behind (reads_number hlt) (refuses_ensure h _ _ _).bind
  | noValueTag =>
      exact refuses_behind_version (refuses_number (by decide) ending).bind.bind
  | valueTag h => exact refuses_behind_version (refuses_tag h _ ending).bind
  | noIdTag =>
      refine refuses_behind_version ?_
      exact .behind (reads_tag .value t) (refuses_number (by decide) ending).bind
  | idTag h =>
      refine refuses_behind_version ?_
      exact .behind (reads_tag .value t) (refuses_tag h _ ending)

/-- Bytes start with the opening of an image, or there is a defect in them. -/
theorem opening_or_defect (t : ElementType) (i : IdType) (ending : Ending) (bytes : Bytes) :
    (∃ rest, bytes = opening t i ++ rest) ∨ ∃ e, OpeningDefect t i ending bytes e := by
  rcases starts_with_number 4 bytes with hshort | ⟨found, bytes, hlt, rfl⟩
  · exact Or.inr ⟨_, .shortMagic hshort⟩
  by_cases hmagic : found = magic
  swap
  · exact Or.inr ⟨_, .magic hlt hmagic⟩
  subst hmagic
  rcases starts_with_number 4 bytes with hshort | ⟨found, bytes, hlt, rfl⟩
  · exact Or.inr ⟨_, .shortVersion hshort⟩
  by_cases hversion : found = version
  swap
  · exact Or.inr ⟨_, .version hlt hversion⟩
  subst hversion
  match bytes with
  | [] => exact Or.inr ⟨_, .noValueTag⟩
  | tag :: bytes =>
  by_cases hvalue : tag = t.tag
  swap
  · exact Or.inr ⟨_, .valueTag hvalue⟩
  subst hvalue
  match bytes with
  | [] => exact Or.inr ⟨_, .noIdTag⟩
  | tag :: rest =>
  by_cases hid : tag = i.element.tag
  swap
  · exact Or.inr ⟨_, .idTag hid⟩
  subst hid
  refine Or.inl ⟨rest, ?_⟩
  simp only [opening, List.append_assoc, List.cons_append, List.nil_append]

/-! ## The parameters -/

/-- The bytes are the length of a text and the text, and the text can be read as parameters. -/
inductive IsParams : Bytes → IndexParams → Prop where
  | text {text : Bytes} {params : IndexParams} (hlength : text.length ≤ paramsLimit)
      (h : IndexParams.ofJson? text = some params) :
      IsParams (LittleEndian.encode 4 text.length ++ text) params

/-- What keeps bytes from starting with parameters. -/
inductive ParamsDefect (ending : Ending) : Bytes → Error → Prop where
  | shortLength {bytes : Bytes} (h : bytes.length < 4) : ParamsDefect ending bytes ending.error
  | length {length : Nat} {rest : Bytes} (hlt : length < 256 ^ 4) (h : paramsLimit < length) :
      ParamsDefect ending (LittleEndian.encode 4 length ++ rest)
        (.malformed (.paramsLength length))
  | shortText {length : Nat} {rest : Bytes} (hlength : length ≤ paramsLimit)
      (h : rest.length < length) :
      ParamsDefect ending (LittleEndian.encode 4 length ++ rest) ending.error
  | text {text rest : Bytes} (hlength : text.length ≤ paramsLimit)
      (h : IndexParams.ofJson? text = none) :
      ParamsDefect ending (LittleEndian.encode 4 text.length ++ (text ++ rest))
        (.malformed .params)

theorem lt_of_le_paramsLimit {length : Nat} (h : length ≤ paramsLimit) : length < 256 ^ 4 :=
  Nat.lt_of_le_of_lt h (by decide)

theorem IsParams.reads {bytes : Bytes} {params : IndexParams} (h : IsParams bytes params) :
    Reads readParams bytes params := by
  cases h with
  | @text text _ hlength h =>
      refine (reads_number (lt_of_le_paramsLimit hlength)).bind (.check hlength ?_)
      refine (reads_take text).bind_nil ?_
      rw [h]
      exact .pure params

/-- A defect of the parameters is refused with its error. -/
theorem ParamsDefect.refuses {ending : Ending} {bytes : Bytes} {e : Error}
    (h : ParamsDefect ending bytes e) : Refuses readParams bytes ending e := by
  cases h with
  | shortLength h => exact (refuses_number h ending).bind
  | length hlt h =>
      exact .behind (reads_number hlt) (refuses_ensure (Nat.not_le.mpr h) _ _ _).bind
  | shortText hlength h =>
      refine .behind (reads_number (lt_of_le_paramsLimit hlength)) (.check hlength ?_)
      exact (refuses_take h ending).bind
  | @text text rest hlength h =>
      refine .behind (reads_number (lt_of_le_paramsLimit hlength)) (.check hlength ?_)
      refine .behind (reads_take text) ?_
      rw [h]
      exact refuses_throw _ _ _

/-- Bytes start with parameters, or there is a defect in them. -/
theorem params_or_defect (ending : Ending) (bytes : Bytes) :
    (∃ front rest params, bytes = front ++ rest ∧ IsParams front params) ∨
      ∃ e, ParamsDefect ending bytes e := by
  rcases starts_with_number 4 bytes with hshort | ⟨length, bytes, hlt, rfl⟩
  · exact Or.inr ⟨_, .shortLength hshort⟩
  by_cases hlength : length ≤ paramsLimit
  swap
  · exact Or.inr ⟨_, .length hlt (Nat.lt_of_not_le hlength)⟩
  by_cases hshort : bytes.length < length
  · exact Or.inr ⟨_, .shortText hlength hshort⟩
  have htaken : (bytes.take length).length = length :=
    List.length_take_of_le (Nat.le_of_not_lt hshort)
  rw [← List.take_append_drop length bytes, ← htaken, htaken]
  generalize bytes.drop length = rest
  generalize bytes.take length = text at htaken
  subst htaken
  cases hparams : IndexParams.ofJson? text with
  | none => exact Or.inr ⟨_, .text hlength hparams⟩
  | some params =>
      refine Or.inl ⟨_, rest, params, ?_, .text hlength hparams⟩
      rw [List.append_assoc]

/-! ## The layout of the lists -/

/-- What keeps two widths from laying out a list. -/
inductive LayoutDefect : Nat → Nat → LayoutFault → Prop where
  | zeroDim {veclen : Nat} : LayoutDefect 0 veclen .zeroDim
  | unevenVeclen {dim veclen : Nat} (hdim : 0 < dim) (h : ¬ veclen.isPowerOfTwo) :
      LayoutDefect dim veclen (.unevenVeclen veclen)
  | unevenDim {dim veclen : Nat} (hdim : 0 < dim) (hpow : veclen.isPowerOfTwo)
      (h : ¬ veclen ∣ dim) : LayoutDefect dim veclen (.unevenDim dim veclen)

theorem LayoutDefect.ofWidths_eq {dim veclen : Nat} {cause : LayoutFault}
    (h : LayoutDefect dim veclen cause) (hdim : dim < 256 ^ 4) (hveclen : veclen < 256 ^ 4)
    (growth : Growth) :
    ListSpec.ofWidths (UInt32.ofNat dim) (UInt32.ofNat veclen) growth = .error cause := by
  have hdim' : (UInt32.ofNat dim).toNat = dim := UInt32.toNat_ofNat_of_lt' hdim
  have hveclen' : (UInt32.ofNat veclen).toNat = veclen := UInt32.toNat_ofNat_of_lt' hveclen
  have hlayout : Layout.ofWidths (UInt32.ofNat dim) (UInt32.ofNat veclen) = .error cause := by
    simp only [Layout.ofWidths, hdim', hveclen']
    cases h with
    | zeroDim => rfl
    | unevenVeclen hpos h => rw [dif_neg (Nat.ne_of_gt hpos), dif_pos h]
    | unevenDim hpos hpow h =>
        rw [dif_neg (Nat.ne_of_gt hpos), dif_neg (not_not.mpr hpow),
          dif_pos fun hmod => h (Nat.dvd_of_mod_eq_zero hmod)]
  rw [ListSpec.ofWidths, hlayout]
  rfl

/-- Two widths are those of a layout, or there is a defect in them. -/
theorem layout_or_defect {dim : Nat} (hdim : dim < 256 ^ 4) (veclen : Nat) (growth : Growth) :
    (∃ spec : ListSpec, spec.growth = growth ∧ spec.dim = dim ∧ spec.veclen = veclen) ∨
      ∃ cause, LayoutDefect dim veclen cause := by
  by_cases hzero : dim = 0
  · rw [hzero]
    exact Or.inr ⟨_, .zeroDim⟩
  have hpos := Nat.pos_of_ne_zero hzero
  by_cases hpow : veclen.isPowerOfTwo
  swap
  · exact Or.inr ⟨_, .unevenVeclen hpos hpow⟩
  by_cases hdvd : veclen ∣ dim
  swap
  · exact Or.inr ⟨_, .unevenDim hpos hpow hdvd⟩
  exact Or.inl ⟨{ layout := ⟨dim, veclen, hpos, hdim, hpow, hdvd⟩, growth }, rfl, rfl, rfl⟩

/-! ## Headers -/

/-- The bytes are the header of an image: its opening, the widths of a layout, parameters by which
its lists grow and their number once more. -/
inductive IsHeader (t : ElementType) (i : IdType) : Bytes → Header → Prop where
  | fields {text : Bytes} {params : IndexParams} {spec : ListSpec} (hparams : IsParams text params)
      (hgrowth : spec.growth = params.growth) :
      IsHeader t i
        (opening t i ++ (LittleEndian.encode 4 spec.dim ++ (LittleEndian.encode 4 spec.veclen ++
          (text ++ LittleEndian.encode 4 params.lists.toNat))))
        { params, spec }

/-- What keeps bytes from starting with the header of an image. The widths are looked at behind the
number of lists. -/
inductive HeaderDefect (t : ElementType) (i : IdType) (ending : Ending) : Bytes → Error → Prop where
  | opening {bytes : Bytes} {e : Error} (h : OpeningDefect t i ending bytes e) :
      HeaderDefect t i ending bytes e
  | shortWidths {rest : Bytes} (h : rest.length < 8) :
      HeaderDefect t i ending (opening t i ++ rest) ending.error
  | params {dim veclen : Nat} {rest : Bytes} {e : Error} (hdim : dim < 256 ^ 4)
      (hveclen : veclen < 256 ^ 4) (h : ParamsDefect ending rest e) :
      HeaderDefect t i ending
        (opening t i ++ (LittleEndian.encode 4 dim ++ (LittleEndian.encode 4 veclen ++ rest))) e
  | shortLists {dim veclen : Nat} {text rest : Bytes} {params : IndexParams} (hdim : dim < 256 ^ 4)
      (hveclen : veclen < 256 ^ 4) (hparams : IsParams text params) (h : rest.length < 4) :
      HeaderDefect t i ending
        (opening t i ++ (LittleEndian.encode 4 dim ++ (LittleEndian.encode 4 veclen ++
          (text ++ rest)))) ending.error
  | lists {dim veclen found : Nat} {text rest : Bytes} {params : IndexParams}
      (hdim : dim < 256 ^ 4) (hveclen : veclen < 256 ^ 4) (hparams : IsParams text params)
      (hlt : found < 256 ^ 4) (h : found ≠ params.lists.toNat) :
      HeaderDefect t i ending
        (opening t i ++ (LittleEndian.encode 4 dim ++ (LittleEndian.encode 4 veclen ++
          (text ++ (LittleEndian.encode 4 found ++ rest)))))
        (.malformed (.listCount found params.lists.toNat))
  | layout {dim veclen : Nat} {text rest : Bytes} {params : IndexParams} {cause : LayoutFault}
      (hdim : dim < 256 ^ 4) (hveclen : veclen < 256 ^ 4) (hparams : IsParams text params)
      (h : LayoutDefect dim veclen cause) :
      HeaderDefect t i ending
        (opening t i ++ (LittleEndian.encode 4 dim ++ (LittleEndian.encode 4 veclen ++
          (text ++ (LittleEndian.encode 4 params.lists.toNat ++ rest)))))
        (.malformed (.layout cause))

/-- A header is read. -/
theorem IsHeader.reads {bytes : Bytes} {header : Header} (h : IsHeader t i bytes header) :
    Reads (readHeader t i) bytes header := by
  cases h with
  | @fields text params spec hparams hgrowth =>
      have hdim : spec.dim < 256 ^ 4 := spec.layout.dim_lt
      have hveclen : spec.veclen < 256 ^ 4 :=
        Nat.lt_of_le_of_lt spec.layout.veclen_le_dim spec.layout.dim_lt
      have hlists : params.lists.toNat < 256 ^ 4 := params.lists.toNat_lt
      rw [readHeader_eq]
      refine reads_opening.bind ((reads_number hdim).bind ((reads_number hveclen).bind ?_))
      refine hparams.reads.bind ((reads_number hlists).bind_nil (.check rfl ?_))
      rw [← hgrowth, ListSpec.ofWidths_widths]
      exact .pure _

/-- What stands behind the widths is refused with the header. -/
private theorem refuses_behind_widths {dim veclen : Nat} {rest : Bytes} {ending : Ending}
    {e : Error} (hdim : dim < 256 ^ 4) (hveclen : veclen < 256 ^ 4)
    (h : Refuses (readParams >>= readLists dim veclen) rest ending e) :
    Refuses (readHeader t i)
      (opening t i ++ (LittleEndian.encode 4 dim ++ (LittleEndian.encode 4 veclen ++ rest)))
      ending e := by
  rw [readHeader_eq]
  exact .behind reads_opening (.behind (reads_number hdim) (.behind (reads_number hveclen) h))

/-- A defect of the header is refused with its error. -/
theorem HeaderDefect.refuses {ending : Ending} {bytes : Bytes} {e : Error}
    (h : HeaderDefect t i ending bytes e) : Refuses (readHeader t i) bytes ending e := by
  cases h with
  | opening h =>
      rw [readHeader_eq]
      exact h.refuses.bind
  | @shortWidths rest h =>
      rw [readHeader_eq]
      refine .behind reads_opening ?_
      rcases starts_with_number 4 rest with hshort | ⟨dim, rest, hdim, rfl⟩
      · exact (refuses_number hshort ending).bind
      · rw [List.length_append, LittleEndian.length_encode] at h
        exact .behind (reads_number hdim) (refuses_number (by omega) ending).bind
  | params hdim hveclen h => exact refuses_behind_widths hdim hveclen h.refuses.bind
  | shortLists hdim hveclen hparams h =>
      refine refuses_behind_widths hdim hveclen (.behind hparams.reads ?_)
      exact (refuses_number h ending).bind
  | lists hdim hveclen hparams hlt h =>
      refine refuses_behind_widths hdim hveclen (.behind hparams.reads ?_)
      exact .behind (reads_number hlt) (refuses_ensure h _ _ _).bind
  | @layout dim veclen text rest params cause hdim hveclen hparams h =>
      refine refuses_behind_widths hdim hveclen (.behind hparams.reads ?_)
      refine .behind (reads_number params.lists.toNat_lt) (.check rfl ?_)
      rw [h.ofWidths_eq hdim hveclen]
      exact refuses_throw _ _ _

/-- Bytes start with a header, or there is a defect in them. -/
theorem header_or_defect (t : ElementType) (i : IdType) (ending : Ending) (bytes : Bytes) :
    (∃ front rest header, bytes = front ++ rest ∧ IsHeader t i front header) ∨
      ∃ e, HeaderDefect t i ending bytes e := by
  rcases opening_or_defect t i ending bytes with ⟨bytes, rfl⟩ | ⟨e, hdefect⟩
  swap
  · exact Or.inr ⟨e, .opening hdefect⟩
  rcases starts_with_number 4 bytes with hshort | ⟨dim, bytes, hdim, rfl⟩
  · exact Or.inr ⟨_, .shortWidths (by omega)⟩
  rcases starts_with_number 4 bytes with hshort | ⟨veclen, bytes, hveclen, rfl⟩
  · refine Or.inr ⟨_, .shortWidths ?_⟩
    rw [List.length_append, LittleEndian.length_encode]
    omega
  rcases params_or_defect ending bytes with ⟨text, bytes, params, rfl, hparams⟩ | ⟨e, hdefect⟩
  swap
  · exact Or.inr ⟨e, .params hdim hveclen hdefect⟩
  rcases starts_with_number 4 bytes with hshort | ⟨lists, rest, hlists, rfl⟩
  · exact Or.inr ⟨_, .shortLists hdim hveclen hparams hshort⟩
  by_cases hsame : lists = params.lists.toNat
  swap
  · exact Or.inr ⟨_, .lists hdim hveclen hparams hlists hsame⟩
  subst hsame
  rcases layout_or_defect hdim veclen params.growth with ⟨spec, hgrowth, rfl, rfl⟩ | ⟨cause, hdefect⟩
  swap
  · exact Or.inr ⟨_, .layout hdim hveclen hparams hdefect⟩
  refine Or.inl ⟨_, rest, { params, spec }, ?_, .fields hparams hgrowth⟩
  simp only [List.append_assoc]

theorem IsHeader.growth_eq {bytes : Bytes} {header : Header} (h : IsHeader t i bytes header) :
    header.spec.growth = header.params.growth := by
  cases h with
  | fields _ hgrowth => exact hgrowth

/-! ## The records -/

/-- The bytes are the records of these ids and words, one behind the other. -/
inductive AreRecords (store : Layout) : List (Array (Id i) × Array (Word t)) → Bytes → Prop where
  | nil : AreRecords store [] []
  | cons {ids : Array (Id i)} {words : Array (Word t)} {record rest : Bytes}
      {contents : List (Array (Id i) × Array (Word t))}
      (h : InvertedList.IsRecord store record ids words) (hrest : AreRecords store contents rest) :
      AreRecords store ((ids, words) :: contents) (record ++ rest)

/-- There is room for the lists of these ids and words when they are made one after the other. -/
def RoomFor (spec : ListSpec) : List (Array (Id i) × Array (Word t)) → Budget → Prop
  | [], _ => True
  | (ids, _) :: contents, b =>
      InvertedList.ReadingGranted t i spec spec.layout ids.size b ∧
        RoomFor spec contents (b.charged (InvertedList.roomBytes t i spec ids.size))

/-- Bytes that the lists of these ids and words take. -/
def takenBy (spec : ListSpec) (contents : List (Array (Id i) × Array (Word t))) : Nat :=
  (contents.map fun content => InvertedList.roomBytes t i spec content.1.size).sum

/-- What stands behind records for which there is room decides: it is read on, or it fails, and then
the lists of these records are given back. -/
theorem readRecords_of_records {spec : ListSpec}
    {contents : List (Array (Id i) × Array (Word t))} {records : Bytes}
    (h : AreRecords spec.layout contents records) {b : Budget} (hroom : RoomFor spec contents b)
    (rest : Bytes) (ending : Ending) (n : Nat) :
    ∃ lists, List.Forall₂
        (fun content l => InvertedList.MadeOf spec spec content.1 content.2 l) contents lists ∧
      (lists.map (·.reserved)).sum = takenBy spec contents ∧
      (∀ more tr,
        readRecords t i spec n
            { budget := b.charged (takenBy spec contents), stream := { bytes := rest, ending } } =
          .ok more tr →
        readRecords t i spec (contents.length + n)
            { budget := b, stream := { bytes := records ++ rest, ending } } =
          .ok (lists ++ more) tr) ∧
      ∀ e left,
        readRecords t i spec n
            { budget := b.charged (takenBy spec contents), stream := { bytes := rest, ending } } =
          .error e { budget := b.charged (takenBy spec contents), stream := left } →
        readRecords t i spec (contents.length + n)
            { budget := b, stream := { bytes := records ++ rest, ending } } =
          .error e { budget := b, stream := left } := by
  induction h generalizing b with
  | nil =>
      refine ⟨[], .nil, rfl, fun more tr h => ?_, fun e left h => ?_⟩
      · rw [List.length_nil, Nat.zero_add]
        exact h
      · rw [List.length_nil, Nat.zero_add]
        exact h
  | @cons ids words record records contents hrecord _ ih =>
      obtain ⟨hgranted, hroom⟩ := hroom
      obtain ⟨l, hread, hmade⟩ :=
        (InvertedList.read_of_record rfl hrecord b (records ++ rest) ending).1 hgranted
      have hreserved : l.reserved = InvertedList.roomBytes t i spec ids.size := by
        rw [hmade.loaded.tight.reserved_eq hmade.loaded.wellFormed, hmade.loaded.spec_eq,
          hmade.size_eq]
      obtain ⟨lists, hlists, hsum, hok, herror⟩ := ih hroom
      have htaken : takenBy spec ((ids, words) :: contents) =
          InvertedList.roomBytes t i spec ids.size + takenBy spec contents := rfl
      rw [htaken, List.append_assoc, List.length_cons, Nat.succ_add, readRecords,
        Action.bind_ok hread, hreserved, ← Budget.charged_charged]
      refine ⟨l :: lists, .cons hmade hlists, ?_, fun more tr h => ?_, fun e left h => ?_⟩
      · rw [List.map_cons, List.sum_cons, hreserved, hsum]
      · exact Action.bind_ok (Action.undoing_ok.mpr (hok more tr h))
      · refine Action.bind_error (Action.undoing_error.mpr ⟨_, herror e left h, ?_⟩)
        show ({ budget := (b.charged _).release _, stream := left } : Transfer Source) = _
        rw [Budget.release_charged]

/-- A record fails here: there is a defect in it, or no room for its list. -/
def RecordFails (t : ElementType) (i : IdType) (spec : ListSpec) (b : Budget) (ending : Ending)
    (bytes : Bytes) : Prop :=
  (∃ e, InvertedList.RecordDefect t i spec.layout ending bytes e) ∨
    ∃ record tail, ∃ ids : Array (Id i), ∃ words : Array (Word t), bytes = record ++ tail ∧
      InvertedList.IsRecord spec.layout record ids words ∧
      ¬ InvertedList.ReadingGranted t i spec spec.layout ids.size b

theorem RecordFails.refused {spec : ListSpec} {b : Budget} {ending : Ending} {bytes : Bytes}
    (h : RecordFails t i spec b ending bytes) : ∃ e left,
      InvertedList.readRecord t i spec spec { budget := b, stream := { bytes, ending } } =
        .error e { budget := b, stream := left } := by
  rcases h with ⟨e, hdefect⟩ | ⟨record, tail, ids, words, rfl, hrecord, hrefused⟩
  · obtain ⟨left, hleft⟩ := hdefect.refuses rfl b
    exact ⟨e, left, hleft⟩
  · obtain ⟨e, he, -⟩ := (InvertedList.read_of_record rfl hrecord b tail ending).2 hrefused
    exact ⟨e, _, he⟩

/-- Bytes at which no record fails start with a record for which there is room. -/
theorem record_of_not_fails {spec : ListSpec} {b : Budget} {ending : Ending} {bytes : Bytes}
    (h : ¬ RecordFails t i spec b ending bytes) :
    ∃ record tail, ∃ ids : Array (Id i), ∃ words : Array (Word t), bytes = record ++ tail ∧
      InvertedList.IsRecord spec.layout record ids words ∧
      InvertedList.ReadingGranted t i spec spec.layout ids.size b := by
  obtain ⟨hdefect, hrefused⟩ := not_or.mp h
  obtain ⟨record, tail, ids, words, rfl, hrecord⟩ :=
    (InvertedList.record_or_defect t i spec.layout ending bytes).resolve_right hdefect
  refine ⟨record, tail, ids, words, rfl, hrecord, ?_⟩
  by_contra hnot
  exact hrefused ⟨record, tail, ids, words, rfl, hrecord, hnot⟩

/-- A record that is not read leaves the budget as it was. -/
theorem budget_of_record_error {spec : ListSpec} {b : Budget} {ending : Ending} {bytes : Bytes}
    {e : Error} {out : Transfer Source}
    (h : InvertedList.readRecord t i spec spec { budget := b, stream := { bytes, ending } } =
      .error e out) : out = { budget := b, stream := out.stream } := by
  by_cases hfails : RecordFails t i spec b ending bytes
  · obtain ⟨_, left, hrefused⟩ := hfails.refused
    rw [h] at hrefused
    cases hrefused
    rfl
  · obtain ⟨record, tail, ids, words, rfl, hrecord, hgranted⟩ := record_of_not_fails hfails
    obtain ⟨l, hok, -⟩ := (InvertedList.read_of_record rfl hrecord b tail ending).1 hgranted
    rw [h] at hok
    cases hok

/-- Bytes start with a number of records for which there is room, or with fewer of them and one that
fails. -/
theorem records_or_failure (t : ElementType) (i : IdType) (spec : ListSpec) (n : Nat) (b : Budget)
    (ending : Ending) (bytes : Bytes) :
    ∃ contents : List (Array (Id i) × Array (Word t)), ∃ records rest,
      bytes = records ++ rest ∧ AreRecords spec.layout contents records ∧
      RoomFor spec contents b ∧
      (contents.length = n ∨ contents.length < n ∧
        RecordFails t i spec (b.charged (takenBy spec contents)) ending rest) := by
  induction n generalizing b bytes with
  | zero => exact ⟨[], [], bytes, rfl, .nil, trivial, Or.inl rfl⟩
  | succ n ih =>
      by_cases hfails : RecordFails t i spec b ending bytes
      · exact ⟨[], [], bytes, rfl, .nil, trivial, Or.inr ⟨Nat.succ_pos n, hfails⟩⟩
      obtain ⟨record, rest, ids, words, rfl, hrecord, hgranted⟩ := record_of_not_fails hfails
      obtain ⟨contents, records, rest, rfl, hrecords, hroom, hend⟩ :=
        ih (b.charged (InvertedList.roomBytes t i spec ids.size)) rest
      refine ⟨(ids, words) :: contents, record ++ records, rest, (List.append_assoc ..).symm,
        .cons hrecord hrecords, ⟨hgranted, hroom⟩, ?_⟩
      rw [List.length_cons, Nat.add_right_cancel_iff, Nat.add_lt_add_iff_right]
      rwa [Budget.charged_charged] at hend

/-! ## Reading any bytes -/

/-- Bytes start with a header and the records of these ids and words. -/
def Begins (t : ElementType) (i : IdType) (header : Header)
    (contents : List (Array (Id i) × Array (Word t))) (bytes rest : Bytes) : Prop :=
  ∃ front records, bytes = front ++ (records ++ rest) ∧ IsHeader t i front header ∧
    AreRecords header.spec.layout contents records

section Begins

variable {header : Header} {contents : List (Array (Id i) × Array (Word t))} {bytes rest : Bytes}
  {ending : Ending} {b : Budget}

/-- As many records as the header asks for become the lists of an index. -/
theorem Begins.read_ok (h : Begins t i header contents bytes rest)
    (hlength : contents.length = header.params.lists.toNat)
    (hroom : RoomFor header.spec contents b) (ending : Ending) : ∃ x : LoadedIndex t i,
      read t i { budget := b, stream := { bytes, ending } } =
        .ok x { budget := b.charged x.reserved, stream := { bytes := rest, ending } } ∧
      x.params = header.params ∧ x.spec = header.spec ∧ x.Sound ∧
      List.Forall₂ (fun content l =>
        InvertedList.MadeOf header.spec header.spec content.1 content.2 l) contents x.lists := by
  obtain ⟨front, records, rfl, hheader, hrecords⟩ := h
  obtain ⟨lists, hlists, hsum, hok, -⟩ := readRecords_of_records hrecords hroom rest ending 0
  have hread := hok [] _ rfl
  rw [Nat.add_zero, List.append_nil, hlength, ← hsum] at hread
  have hmade : ∀ l ∈ lists, InvertedList.Loaded header.spec l := by
    intro l hl
    obtain ⟨label, hlt, rfl⟩ := List.getElem_of_mem hl
    have hlt' : label < contents.length := hlists.length_eq.symm ▸ hlt
    exact (List.forall₂_iff_get.mp hlists).2 label hlt' hlt |>.loaded
  refine ⟨{ params := header.params, spec := header.spec, lists }, ?_, rfl, rfl,
    ⟨hlists.length_eq.symm.trans hlength, hheader.growth_eq, ?_⟩, hlists⟩
  · rw [read, Action.bind_ok (Transfer.streamed_ok (hheader.reads (records ++ rest) ending)),
      Action.bind_ok hread]
    rfl
  · intro l hl
    exact ⟨(hmade l hl).spec_eq, (hmade l hl).tight, (hmade l hl).wellFormed, (hmade l hl).hosted⟩

/-- The error at a record behind others is the error of the index, and the others are given back. -/
theorem Begins.read_error (h : Begins t i header contents bytes rest)
    (hlength : contents.length < header.params.lists.toNat)
    (hroom : RoomFor header.spec contents b) {e : Error} {left : Source}
    (hrecord : InvertedList.readRecord t i header.spec header.spec
        { budget := b.charged (takenBy header.spec contents)
          stream := { bytes := rest, ending } } =
      .error e { budget := b.charged (takenBy header.spec contents), stream := left }) :
    read t i { budget := b, stream := { bytes, ending } } =
      .error e { budget := b, stream := left } := by
  obtain ⟨front, records, rfl, hheader, hrecords⟩ := h
  obtain ⟨more, hmore⟩ := Nat.exists_eq_add_of_lt hlength
  obtain ⟨lists, -, -, -, herror⟩ :=
    readRecords_of_records hrecords hroom rest ending (more + 1)
  have hread := herror e left (Action.bind_error hrecord)
  rw [← Nat.add_assoc, ← hmore] at hread
  rw [read, Action.bind_ok (Transfer.streamed_ok (hheader.reads (records ++ rest) ending))]
  exact Action.bind_error hread

end Begins

theorem HeaderDefect.read_error {ending : Ending} {bytes : Bytes} {e : Error}
    (h : HeaderDefect t i ending bytes e) (b : Budget) : ∃ left,
      read t i { budget := b, stream := { bytes, ending } } =
        .error e { budget := b, stream := left } := by
  obtain ⟨left, hleft⟩ := h.refuses
  exact ⟨left, Action.bind_error (Transfer.streamed_error hleft)⟩

/-- Bytes start with a defect of the header, or with a header and either all records it asks for or
fewer of them and one that fails. -/
theorem begins_or_fails (t : ElementType) (i : IdType) (b : Budget) (ending : Ending)
    (bytes : Bytes) :
    (∃ e, HeaderDefect t i ending bytes e) ∨ ∃ header contents rest,
      Begins t i header contents bytes rest ∧ RoomFor header.spec contents b ∧
      (contents.length = header.params.lists.toNat ∨
        contents.length < header.params.lists.toNat ∧
          RecordFails t i header.spec (b.charged (takenBy header.spec contents)) ending rest) := by
  rcases header_or_defect t i ending bytes with ⟨front, bytes, header, rfl, hheader⟩ | hdefect
  swap
  · exact Or.inl hdefect
  obtain ⟨contents, records, rest, rfl, hrecords, hroom, hend⟩ :=
    records_or_failure t i header.spec header.params.lists.toNat b ending bytes
  exact Or.inr ⟨header, contents, rest, ⟨front, records, rfl, hheader, hrecords⟩, hroom, hend⟩

/-- Bytes are read as an index exactly when they start with a header and the records of as many
lists as it asks for, and there is room for these lists. Nothing behind the last record is read, and
taken into a store the index has at each label the list of the record at that place. Where the
header has a defect, this is the error; where it has none, the error of the first record that fails
is the one of the index, and all lists that were read before it are given back. -/
theorem read_accepts_exactly_images (t : ElementType) (i : IdType) (b : Budget) (bytes : Bytes)
    (ending : Ending) :
    ((∃ x out, read t i { budget := b, stream := { bytes, ending } } = .ok x out) ↔
        ∃ header contents rest, Begins t i header contents bytes rest ∧
          contents.length = header.params.lists.toNat ∧ RoomFor header.spec contents b) ∧
      (∀ header contents rest, Begins t i header contents bytes rest →
        contents.length = header.params.lists.toNat → RoomFor header.spec contents b →
          ∃ x : LoadedIndex t i,
            read t i { budget := b, stream := { bytes, ending } } =
              .ok x { budget := b.charged x.reserved, stream := { bytes := rest, ending } } ∧
            List.Forall₂ (fun content l =>
              InvertedList.MadeOf header.spec header.spec content.1 content.2 l)
              contents x.lists ∧
            ∀ (s : Store t i) refs pending, s.Accounts refs (pending + x.reserved) →
              ∃ index s', x.install s = .ok index s' ∧ index.params = header.params ∧
                index.spec = header.spec ∧
                ∀ label : Nat, index.slots[label]?.bind s'.list? = x.lists[label]?) ∧
      (∀ e, HeaderDefect t i ending bytes e → ∃ left,
        read t i { budget := b, stream := { bytes, ending } } =
          .error e { budget := b, stream := left }) ∧
      (∀ header contents rest, Begins t i header contents bytes rest →
        contents.length < header.params.lists.toNat → RoomFor header.spec contents b →
          (∀ e, InvertedList.RecordDefect t i header.spec.layout ending rest e → ∃ left,
            read t i { budget := b, stream := { bytes, ending } } =
              .error e { budget := b, stream := left }) ∧
          ∀ e out, InvertedList.readRecord t i header.spec header.spec
              { budget := b.charged (takenBy header.spec contents)
                stream := { bytes := rest, ending } } = .error e out →
            read t i { budget := b, stream := { bytes, ending } } =
              .error e { budget := b, stream := out.stream }) ∧
      ((∃ e, HeaderDefect t i ending bytes e) ∨ ∃ header contents rest,
        Begins t i header contents bytes rest ∧ RoomFor header.spec contents b ∧
        (contents.length = header.params.lists.toNat ∨
          contents.length < header.params.lists.toNat ∧
            RecordFails t i header.spec (b.charged (takenBy header.spec contents)) ending
              rest)) := by
  refine ⟨⟨?_, ?_⟩, ?_, fun e h => h.read_error b, ?_, begins_or_fails t i b ending bytes⟩
  · rintro ⟨x, out, hok⟩
    rcases begins_or_fails t i b ending bytes with
      ⟨e, hdefect⟩ | ⟨header, contents, rest, hbegins, hroom, hlength | ⟨hlength, hfails⟩⟩
    · obtain ⟨left, he⟩ := hdefect.read_error b
      rw [hok] at he
      cases he
    · exact ⟨header, contents, rest, hbegins, hlength, hroom⟩
    · obtain ⟨e, left, hrefused⟩ := hfails.refused
      have he := hbegins.read_error hlength hroom hrefused
      rw [hok] at he
      cases he
  · rintro ⟨header, contents, rest, hbegins, hlength, hroom⟩
    obtain ⟨x, hok, -⟩ := hbegins.read_ok hlength hroom ending
    exact ⟨x, _, hok⟩
  · intro header contents rest hbegins hlength hroom
    obtain ⟨x, hok, hparams, hspec, hx, hmade⟩ := hbegins.read_ok hlength hroom ending
    refine ⟨x, hok, hmade, fun s refs pending hacc => ?_⟩
    obtain ⟨index, s', hinstall, hparams', hspec', -, -, -, -, hlists⟩ := install_ok hx hacc
    exact ⟨index, s', hinstall, hparams'.trans hparams, hspec'.trans hspec, hlists⟩
  · intro header contents rest hbegins hlength hroom
    constructor
    · intro e hdefect
      obtain ⟨left, hrefused⟩ :=
        hdefect.refuses rfl (b.charged (takenBy header.spec contents))
      exact ⟨left, hbegins.read_error hlength hroom hrefused⟩
    · intro e out hrefused
      rw [budget_of_record_error hrefused] at hrefused
      exact hbegins.read_error hlength hroom hrefused

/-- An image of one list, whose parameters are spelled as an array of one number. The byte behind
it is not read. With another version it is no image. -/
theorem read_accepts_nines :
    (∃ x out, read .u8 .i32
        { budget := .new none
          stream :=
            { bytes := opening .u8 .i32 ++ (LittleEndian.encode 4 4 ++ (LittleEndian.encode 4 2 ++
                (LittleEndian.encode 4 3 ++ [91, 49, 93] ++ LittleEndian.encode 4 1))) ++
                  (InvertedList.nines ++ [] ++ [255])
              ending := .endOfInput } } = .ok x out ∧
      out.stream.bytes = [255] ∧ x.lists.map (·.published) = [[(7, [9, 9, 9, 9])]]) ∧
    ∃ left, read .u8 .i32
        { budget := .new none
          stream :=
            { bytes := LittleEndian.encode 4 magic ++ (LittleEndian.encode 4 2 ++
                InvertedList.nines)
              ending := .endOfInput } } =
      .error (.incompatible (.version 1 2)) { budget := .new none, stream := left } := by
  have hlength : ([91, 49, 93] : Bytes).length ≤ paramsLimit := by decide
  have htext : IndexParams.ofJson? [91, 49, 93] = some (.new 1) := by decide +kernel
  have hheader : IsHeader .u8 .i32 _
      { params := .new 1, spec := fourColumns 1 (by decide) .doubling } :=
    .fields (.text hlength htext) rfl
  have hrecords : AreRecords (fourColumns 1 (by decide) .doubling).layout _
      (InvertedList.nines ++ []) := .cons InvertedList.isRecord_nines .nil
  have hbegins : Begins .u8 .i32 _ _ _ [255] := ⟨_, _, rfl, hheader, hrecords⟩
  have hroom : RoomFor (fourColumns 1 (by decide) .doubling)
      [((#[7] : Array (Id .i32)), Array.replicate 128 (9 : Word .u8))] (.new none) :=
    ⟨Or.inr ⟨32, rfl, ⟨⟨by decide, by decide, nofun⟩, ⟨by decide, by decide, nofun⟩⟩, Or.inl rfl⟩,
      trivial⟩
  constructor
  · obtain ⟨x, hread, hmade, -⟩ := (read_accepts_exactly_images .u8 .i32 (.new none) _
      .endOfInput).2.1 _ _ [255] hbegins rfl hroom
    obtain ⟨l, lists, hl, hnil, hlists⟩ := List.forall₂_cons_left_iff.mp hmade
    refine ⟨x, _, hread, rfl, ?_⟩
    rw [hlists, List.forall₂_nil_left_iff.mp hnil, List.map_cons, hl.published_eq]
    decide +kernel
  · have hdefect : HeaderDefect .u8 .i32 .endOfInput
        (LittleEndian.encode 4 magic ++ (LittleEndian.encode 4 2 ++ InvertedList.nines))
        (.incompatible (.version 1 2)) :=
      .opening (.version (by decide) (by decide))
    exact (read_accepts_exactly_images .u8 .i32 (.new none) _ .endOfInput).2.2.1 _ hdefect

end InvertedFile.LoadedIndex
