import InvertedFile.Index.Params
import InvertedFile.Proofs.Json.Text

/-!
# The spellings of parameters

Parameters are read from any text that spells them: an object that tells every
field once or leaves it out where its default is meant, in any order and among
any other members, or an array that tells the fields in their order and may
stop early. `Spelling` says so in terms of the grammar of JSON alone, and the
reader accepts exactly the spellings.

What a field is told by is the same in an object and in an array. Both forms
therefore ask one thing of every field, of the texts under its key or of the
text at its place.

## Main results

* `ofJson?_eq_some_iff` — what is read are the spellings.
* `spelling_toJson` — what is written is one of them.
* `read_however_spelled` — both together, with the texts that spell nothing.
-/

namespace InvertedFile

open Json

/-! ## Metrics -/

namespace Metric

theorem ofName?_eq_some_iff {name : List Char} {m : Metric} :
    ofName? name = some m ↔ name = m.name.toList := by
  constructor
  · intro h
    have hname := List.find?_some h
    exact (beq_iff_eq.mp hname).symm
  · rintro rfl
    exact ofName?_name m

theorem plain_name (m : Metric) : Plain m.name.toList := by
  cases m <;> decide

/-- The texts that tell a metric: its name, or an object of one member, which is null. -/
inductive Tells (m : Metric) : Bytes → Prop where
  | name {body : Bytes} (h : SpellsAll m.name.toList body) : Tells m (quote :: (body ++ [quote]))
  | member {s : Bytes} (h : ObjectText [(m.name.toList, nullText)] s) : Tells m s

theorem ofJson?_eq_some_iff {m : Metric} {s : Bytes} : ofJson? s = some m ↔ m.Tells s := by
  constructor
  · intro h
    rw [ofJson?] at h
    split at h
    · next name hname =>
        obtain ⟨body, hbody, rfl⟩ := string?_eq_some_iff.mp hname
        rw [ofName?_eq_some_iff.mp h] at hbody
        exact .name hbody
    · split at h
      · next name value hobject =>
          split at h
          · next hvalue =>
              have htext := objectText_iff.mpr ⟨_, hobject, rfl⟩
              rw [List.map_singleton, hvalue, ofName?_eq_some_iff.mp h] at htext
              exact .member htext
          · cases h
      · cases h
  · intro h
    cases h with
    | name hbody =>
        rw [ofJson?, string?_eq_some_iff.mpr ⟨_, hbody, rfl⟩]
        exact ofName?_name m
    | member htext =>
        have hstring : string? s = none := by
          refine Option.eq_none_iff_forall_ne_some.mpr fun cs hcs => ?_
          obtain ⟨body, -, rfl⟩ := string?_eq_some_iff.mp hcs
          obtain ⟨rest, hrest⟩ := htext.head
          rw [skipBlanks_cons (by decide)] at hrest
          exact absurd (List.cons.inj hrest).1 (by decide)
        obtain ⟨entries, hobject, hentries⟩ := objectText_iff.mp htext
        obtain ⟨⟨name, value⟩, rfl, hentry⟩ := List.map_eq_singleton_iff.mp hentries
        rw [Prod.mk.injEq] at hentry
        obtain ⟨rfl, hvalue⟩ := hentry
        rw [ofJson?, hstring, hobject]
        exact (if_pos hvalue).trans (ofName?_name m)

end Metric

namespace IndexParams

/-! ## Fields -/

/-- A field of the parameters. -/
inductive Field where
  | lists
  | metric
  | conservative
  | veclen
  deriving DecidableEq

namespace Field

/-- The key of a field in an object. -/
def key : Field → String
  | lists => "n_lists"
  | metric => "metric"
  | conservative => "conservative_memory_allocation"
  | veclen => "veclen"

/-- The place of a field in an array. -/
def place : Field → Nat
  | lists => 0
  | metric => 1
  | conservative => 2
  | veclen => 3

end Field

/-- The text of a width that may be left to choose. -/
def veclenText (veclen : Option UInt32) : Bytes :=
  match veclen with
  | none => nullText
  | some veclen => numberText veclen.toNat

/-- The texts that tell a field of the parameters. -/
def Tells (p : IndexParams) : Field → Bytes → Prop
  | .lists, s => s = numberText p.lists.toNat
  | .metric, s => p.metric.Tells s
  | .conservative, s => s = truthText p.conservative
  | .veclen, s => s = veclenText p.veclen

/-- The fields that need not be told, because they are what they are by default. -/
def Omissible (p : IndexParams) : Field → Prop
  | .lists => False
  | .metric => p.metric = .l2
  | .conservative => p.conservative = false
  | .veclen => p.veclen = none

/-- The texts that spell the parameters. -/
inductive Spelling (p : IndexParams) : Bytes → Prop where
  | object {members : List (List Char × Bytes)} {s : Bytes} (h : ObjectText members s)
      (htells : ∀ f : Field, Settles (p.Tells f) (p.Omissible f) (textsOf f.key members)) :
      Spelling p s
  | array {elements : List Bytes} {s : Bytes} (h : ArrayText elements s)
      (hlength : elements.length ≤ 4)
      (htells : ∀ f : Field, Settles (p.Tells f) (p.Omissible f) (elements[f.place]?).toList) :
      Spelling p s

/-! ## What is read as a field -/

theorem word?_eq_some_iff {s : Bytes} {n : UInt32} :
    word? s = some n ↔ s = numberText n.toNat := by
  simp only [word?, numberBelow?, Option.map_eq_some_iff, Option.bind_eq_bind,
    Option.bind_eq_some_iff, number?_eq_some_iff]
  constructor
  · rintro ⟨k, ⟨_, rfl, hk⟩, rfl⟩
    split at hk
    · next hlt =>
        cases hk
        rw [UInt32.toNat_ofNat_of_lt' hlt]
    · cases hk
  · rintro rfl
    exact ⟨n.toNat, ⟨n.toNat, rfl, if_pos n.toNat_lt⟩, UInt32.ofNat_toNat⟩

theorem numberText_ne_null (n : Nat) : numberText n ≠ nullText := by
  intro hnull
  have hletter : ascii 'n' ∈ numberText n := hnull ▸ List.mem_cons_self
  exact absurd (List.all_eq_true.mp (all_numberText n) _ hletter) (by decide)

theorem optional?_eq_some_iff {s : Bytes} {veclen : Option UInt32} :
    optional? word? s = some veclen ↔ s = veclenText veclen := by
  by_cases hs : s = nullText
  · rw [optional?, if_pos hs, hs]
    cases veclen with
    | none => exact iff_of_true rfl rfl
    | some n =>
        exact iff_of_false nofun (Ne.symm (numberText_ne_null n.toNat))
  · rw [optional?, if_neg hs, Option.map_eq_some_iff]
    cases veclen with
    | none => exact iff_of_false (by rintro ⟨n, -, ⟨⟩⟩) hs
    | some n => simp only [Option.some.injEq, exists_eq_right, word?_eq_some_iff, veclenText]

theorem growthOf_eq_iff {conservative : Bool} {p : IndexParams} :
    growthOf conservative = p.growth ↔ conservative = p.conservative := by
  unfold growthOf IndexParams.conservative
  cases conservative <;> cases p.growth <;> decide

/-! ## What is read as parameters -/

theorem settles_congr {Tells Tells' : Bytes → Prop} {omissible omissible' : Prop}
    {texts : List Bytes} (htells : ∀ s, Tells s ↔ Tells' s) (homissible : omissible ↔ omissible') :
    Settles Tells omissible texts ↔ Settles Tells' omissible' texts := by
  simp only [Settles, htells, homissible]

/-- The readers of the fields settle them as they are told. -/
theorem settles_fields_iff {p : IndexParams} (texts : Field → List Bytes) :
    (Settles (fun s => word? s = some p.lists) (none = some p.lists) (texts .lists) ∧
      Settles (fun s => Metric.ofJson? s = some p.metric) (some .l2 = some p.metric)
        (texts .metric) ∧
      Settles (fun s => truth? s = some p.conservative) (some false = some p.conservative)
        (texts .conservative) ∧
      Settles (fun s => optional? word? s = some p.veclen) (some none = some p.veclen)
        (texts .veclen)) ↔
      ∀ f, Settles (p.Tells f) (p.Omissible f) (texts f) := by
  refine Iff.trans (and_congr
    (settles_congr (fun _ => word?_eq_some_iff) (iff_of_false nofun id)) <| and_congr
    (settles_congr (fun _ => Metric.ofJson?_eq_some_iff) (Option.some_inj.trans eq_comm)) <|
    and_congr
    (settles_congr (fun _ => truth?_eq_some_iff) (Option.some_inj.trans eq_comm))
    (settles_congr (fun _ => optional?_eq_some_iff) (Option.some_inj.trans eq_comm))) ?_
  constructor
  · rintro ⟨hlists, hmetric, hconservative, hveclen⟩ f
    cases f
    · exact hlists
    · exact hmetric
    · exact hconservative
    · exact hveclen
  · intro h
    exact ⟨h .lists, h .metric, h .conservative, h .veclen⟩

/-- Parameters are put together from their four fields. -/
theorem fields_eq_some_iff {lists : Option UInt32} {metric : Option Metric}
    {conservative : Option Bool} {veclen : Option (Option UInt32)} {p : IndexParams} :
    (do
      let lists ← lists
      let metric ← metric
      let conservative ← conservative
      let veclen ← veclen
      return { lists, metric, growth := growthOf conservative, veclen }) = some p ↔
      lists = some p.lists ∧ metric = some p.metric ∧ conservative = some p.conservative ∧
        veclen = some p.veclen := by
  simp only [Option.bind_eq_bind, Option.bind_eq_some_iff, Option.pure_def, Option.some.injEq]
  constructor
  · rintro ⟨_, rfl, _, rfl, flag, rfl, _, rfl, rfl⟩
    exact ⟨rfl, rfl, congrArg some (growthOf_eq_iff.mp rfl), rfl⟩
  · rintro ⟨rfl, rfl, rfl, rfl⟩
    refine ⟨_, rfl, _, rfl, _, rfl, _, rfl, ?_⟩
    rw [growthOf_eq_iff.mpr rfl]

theorem ofJson?_of_object {entries : List (List Char × Span)} {s : Bytes} {p : IndexParams}
    (h : object? s = some entries) :
    ofJson? s = some p ↔
      ∀ f : Field, Settles (p.Tells f) (p.Omissible f)
        (textsOf f.key (entries.map fun m => (m.1, m.2.text))) := by
  rw [ofJson?, h]
  dsimp only
  rw [fields_eq_some_iff, ← settles_fields_iff]
  simp only [field?_eq_some_iff, Field.key]

theorem ofJson?_of_array {spans : List Span} {s : Bytes} {p : IndexParams}
    (hobject : object? s = none) (h : array? s = some spans) :
    ofJson? s = some p ↔ spans.length ≤ 4 ∧
      ∀ f : Field, Settles (p.Tells f) (p.Omissible f)
        ((spans.map Span.text)[f.place]?).toList := by
  rw [ofJson?, hobject, h]
  by_cases hlength : spans.length ≤ 4
  · have hfilter : (some spans).filter (fun elements => elements.length ≤ 4) = some spans :=
      Option.filter_eq_some_iff.mpr ⟨rfl, by simpa using hlength⟩
    dsimp only
    rw [hfilter, Option.bind_eq_bind, Option.bind_some, fields_eq_some_iff, ← settles_fields_iff]
    simp only [element?_eq_some_iff, Field.place, hlength, true_and]
  · have hfilter : (some spans).filter (fun elements => elements.length ≤ 4) = none := by
      simp [Option.filter, hlength]
    dsimp only
    rw [hfilter]
    exact iff_of_false nofun fun h => hlength h.1

/-- What is read as parameters are their spellings. -/
theorem ofJson?_eq_some_iff {p : IndexParams} {s : Bytes} : ofJson? s = some p ↔ p.Spelling s := by
  constructor
  · intro h
    cases hobject : object? s with
    | some entries =>
        have htext := objectText_iff.mpr ⟨entries, hobject, rfl⟩
        exact .object htext ((ofJson?_of_object hobject).mp h)
    | none =>
        cases harray : array? s with
        | some spans =>
            obtain ⟨hlength, htells⟩ := (ofJson?_of_array hobject harray).mp h
            rw [← List.length_map Span.text] at hlength
            exact .array (arrayText_iff.mpr ⟨spans, harray, rfl⟩) hlength htells
        | none =>
            rw [ofJson?, hobject, harray] at h
            cases h
  · intro h
    cases h with
    | object htext htells =>
        obtain ⟨entries, hobject, rfl⟩ := objectText_iff.mp htext
        exact (ofJson?_of_object hobject).mpr htells
    | array htext hlength htells =>
        obtain ⟨spans, harray, rfl⟩ := arrayText_iff.mp htext
        rw [List.length_map] at hlength
        exact (ofJson?_of_array (object?_of_arrayText htext) harray).mpr ⟨hlength, htells⟩

/-! ## What is written -/

/-- The members of the parameters' text. -/
def jsonMembers (p : IndexParams) : List (String × Bytes) :=
  [ ("n_lists", numberText p.lists.toNat),
    ("metric", stringText p.metric.name),
    ("conservative_memory_allocation", truthText p.conservative),
    ("veclen", veclenText p.veclen) ]

theorem toJson_eq (p : IndexParams) : p.toJson = objectText p.jsonMembers := rfl

theorem valid_veclenText (veclen : Option UInt32) : Valid .value (veclenText veclen) := by
  cases veclen with
  | none => exact valid_nullText
  | some n => exact valid_numberText n.toNat

theorem jsonMembers_valid (p : IndexParams) :
    ∀ m ∈ p.jsonMembers, Plain m.1.toList ∧ Valid .value m.2 := by
  simp only [jsonMembers, List.forall_mem_cons]
  refine ⟨⟨by decide, valid_numberText _⟩, ⟨by decide, valid_stringText p.metric.plain_name⟩,
    ⟨by decide, valid_truthText _⟩, ⟨by decide, valid_veclenText _⟩, ?_⟩
  intro m hm
  cases hm

/-- What is written spells the parameters: every field is told, in an object. -/
theorem spelling_toJson (p : IndexParams) : p.Spelling p.toJson := by
  refine .object (objectText_written p.jsonMembers_valid) fun f => ?_
  rw [textsOf_written]
  cases f with
  | lists => exact Or.inl ⟨_, rfl, rfl⟩
  | metric => exact Or.inl ⟨_, rfl, .name (spellsAll_plain p.metric.plain_name)⟩
  | conservative => exact Or.inl ⟨_, rfl, rfl⟩
  | veclen => exact Or.inl ⟨_, rfl, rfl⟩

/-- Parameters read back. -/
theorem ofJson?_toJson (p : IndexParams) : ofJson? p.toJson = some p :=
  ofJson?_eq_some_iff.mpr p.spelling_toJson

/-! ## What spells nothing -/

/-- An object that does not settle some field is refused, whatever else it holds. -/
theorem ofJson?_eq_none_of_field {members : List (List Char × Bytes)} {s : Bytes}
    (h : ObjectText members s) (f : Field)
    (hf : ∀ p : IndexParams, ¬ Settles (p.Tells f) (p.Omissible f) (textsOf f.key members)) :
    ofJson? s = none := by
  refine Option.eq_none_iff_forall_ne_some.mpr fun p hp => ?_
  cases ofJson?_eq_some_iff.mp hp with
  | object htext htells =>
      rw [objectText_unique h htext] at hf
      exact hf p (htells f)
  | array htext _ _ => exact not_arrayText_of_objectText h htext

theorem ofJson?_repeated {members : List (List Char × Bytes)} {s : Bytes}
    (h : ObjectText members s) {f : Field} (hf : 1 < (textsOf f.key members).length) :
    ofJson? s = none :=
  ofJson?_eq_none_of_field h f fun _ hsettles => Nat.not_lt.mpr hsettles.length_le hf

theorem ofJson?_without_lists {members : List (List Char × Bytes)} {s : Bytes}
    (h : ObjectText members s) (hlists : textsOf Field.lists.key members = []) :
    ofJson? s = none := by
  refine ofJson?_eq_none_of_field h .lists fun p hsettles => ?_
  rw [hlists] at hsettles
  exact hsettles.of_nil

theorem ofJson?_emptyArray {s : Bytes} (h : ArrayText [] s) : ofJson? s = none := by
  refine Option.eq_none_iff_forall_ne_some.mpr fun p hp => ?_
  cases ofJson?_eq_some_iff.mp hp with
  | object htext _ => exact not_arrayText_of_objectText htext h
  | array htext _ htells =>
      rw [← arrayText_unique h htext] at htells
      exact (htells .lists).of_nil

/-- Parameters are read the same however they are spelled, what is written is one of the spellings,
and a text that tells a field twice or does not tell the number of lists is refused. -/
theorem read_however_spelled :
    (∀ (p : IndexParams) (s : Bytes), ofJson? s = some p ↔ p.Spelling s) ∧
      (∀ p : IndexParams, p.Spelling p.toJson ∧ ofJson? p.toJson = some p) ∧
      (∀ (members : List (List Char × Bytes)) (s : Bytes), ObjectText members s →
        (∃ f : Field, 1 < (textsOf f.key members).length) ∨
          textsOf Field.lists.key members = [] → ofJson? s = none) ∧
      ∀ s : Bytes, ArrayText [] s → ofJson? s = none := by
  refine ⟨fun p s => ofJson?_eq_some_iff, fun p => ⟨p.spelling_toJson, p.ofJson?_toJson⟩, ?_,
    fun s h => ofJson?_emptyArray h⟩
  rintro members s h (⟨f, hf⟩ | hlists)
  · exact ofJson?_repeated h hf
  · exact ofJson?_without_lists h hlists

/-- An object in another order with a nested value among its members, an object that tells the
number of lists twice, and an array that tells nothing. -/
theorem read_however_spelled_nested :
    ofJson? (objectText [("note", [openBracket, 0x20, openBracket, closeBracket, closeBracket]),
      ("veclen", numberText 2), ("n_lists", numberText 7)]) =
        some { lists := 7, metric := .l2, growth := .doubling, veclen := some 2 } ∧
      ofJson? (objectText [("n_lists", numberText 7), ("n_lists", numberText 7)]) = none ∧
      ofJson? [openBracket, closeBracket] = none := by
  have hnested : Valid .value [openBracket, 0x20, openBracket, closeBracket, closeBracket] :=
    .enclosure (e := .array)
      (.last .array (by decide : Blanks [0x20]) (.empty (e := .array) blanks_nil) blanks_nil)
  refine ⟨?_, ?_, ?_⟩
  · refine (read_however_spelled.1 _ _).mpr (.object (objectText_written ?_) fun f => ?_)
    · simp only [List.forall_mem_cons]
      exact ⟨⟨by decide, hnested⟩, ⟨by decide, valid_numberText 2⟩,
        ⟨by decide, valid_numberText 7⟩, nofun⟩
    · rw [textsOf_written]
      cases f with
      | lists => exact Or.inl ⟨_, rfl, rfl⟩
      | metric => exact Or.inr ⟨rfl, rfl⟩
      | conservative => exact Or.inr ⟨rfl, rfl⟩
      | veclen => exact Or.inl ⟨_, rfl, rfl⟩
  · refine read_however_spelled.2.2.1 _ _ (objectText_written ?_) (Or.inl ⟨.lists, by decide⟩)
    simp only [List.forall_mem_cons]
    exact ⟨⟨by decide, valid_numberText 7⟩, ⟨by decide, valid_numberText 7⟩, nofun⟩
  · exact read_however_spelled.2.2.2 _ (.enclosed blanks_nil (.empty blanks_nil) blanks_nil)

end IndexParams

end InvertedFile
