import Mathlib.Data.List.Induction
import InvertedFile.Json.Literal
import InvertedFile.Proofs.Json.Values

/-!
# The JSON that is written

The library writes one kind of JSON: an object whose members are strings of
plain characters, whole numbers, truth values and null, without a blank. All of
it is in the grammar, so that what is read from it is a case of what is read
from any text.

The readers of single values are the other way round stricter than the
grammar: a whole number, a truth value and null have one spelling each, and
only a string may have escapes.

## Main results

* `valid_numberText`, `valid_stringText`, `valid_truthText`, `valid_nullText` — what is written
  is a value.
* `objectText_written` — an object has the members it was put together from.
* `number?_eq_some_iff`, `truth?_eq_some_iff`, `string?_eq_some_iff` — single values.
* `field?_eq_some_iff`, `element?_eq_some_iff` — what is read from a member or an element.
-/

namespace InvertedFile.Json

/-! ## Strings -/

/-- ASCII characters that stand for themselves in a string. -/
def Plain (cs : List Char) : Prop :=
  ∀ c ∈ cs, 0x20 ≤ c.toNat ∧ c.toNat < 0x80 ∧ c ≠ '"' ∧ c ≠ '\\'

instance (cs : List Char) : Decidable (Plain cs) :=
  List.decidableBAll _ cs

theorem Plain.tail {c : Char} {cs : List Char} (h : Plain (c :: cs)) : Plain cs :=
  fun d hd => h d (List.mem_cons_of_mem c hd)

theorem spellsAll_plain {cs : List Char} (h : Plain cs) : SpellsAll cs (cs.map ascii) := by
  induction cs with
  | nil => exact .nil
  | cons c cs ih =>
      obtain ⟨hlow, hhigh, hquote, hescape⟩ := h c List.mem_cons_self
      have hspells := Spells.utf8 hlow hquote hescape
      rw [utf8_one hhigh] at hspells
      exact .cons hspells (ih h.tail)

theorem pieces_plain {cs : List Char} (h : Plain cs) : Pieces (cs.map ascii) := by
  induction cs with
  | nil => exact .nil
  | cons c cs ih =>
      obtain ⟨hlow, hhigh, hquote, hescape⟩ := h c List.mem_cons_self
      obtain ⟨hlow', hquote', hescape'⟩ :=
        (plain_iff_head (utf8_one hhigh)).mp ⟨hlow, hquote, hescape⟩
      exact .cons (.byte hlow' hquote' hescape') (ih h.tail)

theorem stringText_eq (s : String) : stringText s = quote :: (s.toList.map ascii ++ [quote]) :=
  rfl

theorem valid_stringText {s : String} (h : Plain s.toList) : Valid .value (stringText s) :=
  .scalar (.string (pieces_plain h))

/-- A string is read as the text that it spells. -/
theorem string?_eq_some_iff {s : Bytes} {cs : List Char} :
    string? s = some cs ↔ ∃ body, SpellsAll cs body ∧ s = quote :: (body ++ [quote]) := by
  rw [← quoted?_eq_some_iff]
  unfold string?
  split
  · next ds hquoted => rw [hquoted, Option.some.injEq, Option.some.injEq, Prod.mk.injEq]; simp
  · next hother =>
      constructor
      · intro h
        cases h
      · intro h
        exact absurd h (hother cs)

/-! ## Numbers, truth values and null -/

theorem number_numberText (n : Nat) : Number (numberText n) := by
  have hall := List.all_eq_true.mp (all_numberText n)
  have hwhole : Whole (numberText n) := by
    obtain ⟨b, rest, heq, hhead⟩ := head_numberText n
    rw [heq] at hall ⊢
    refine ⟨⟨List.cons_ne_nil b rest, hall⟩, ?_⟩
    intro rest' hrest
    obtain ⟨rfl, rfl⟩ := List.cons.inj hrest
    exact hhead.resolve_left (not_not_intro rfl)
  have hnumber := Number.parts (Or.inl rfl) hwhole .none .none
  rwa [List.append_nil, List.append_nil, List.nil_append] at hnumber

theorem valid_numberText (n : Nat) : Valid .value (numberText n) :=
  .scalar (.number (number_numberText n))

theorem valid_truthText (b : Bool) : Valid .value (truthText b) := by
  cases b
  · exact .scalar (.word (Or.inr (Or.inl rfl)))
  · exact .scalar (.word (Or.inl rfl))

theorem valid_nullText : Valid .value nullText :=
  .scalar (.word (Or.inr (Or.inr rfl)))

theorem digit_value {b : UInt8} (h : isDigit b = true) :
    b.toNat - 0x30 < 10 ∧ digit (b.toNat - 0x30) = b := by
  have hb := b.toNat_lt
  simp only [isDigit, Bool.and_eq_true, decide_eq_true_eq, UInt8.le_iff_toNat_le,
    UInt8.reduceToNat] at h
  refine ⟨by omega, ?_⟩
  rw [digit, show 0x30 + (b.toNat - 0x30) = b.toNat by omega, UInt8.ofNat_toNat]

/-- Digits without zeros in front are what their number is written in. -/
theorem numberText_digitsValue {s : Bytes} (hs : s ≠ []) (hall : ∀ b ∈ s, isDigit b = true)
    (hzero : ∀ rest, s = digit 0 :: rest → rest = []) : numberText (digitsValue 0 s) = s := by
  induction s using List.reverseRecOn with
  | nil => exact absurd rfl hs
  | append_singleton front b ih =>
      obtain ⟨hlt, hdigit⟩ := digit_value (hall b (by simp))
      have hvalue : digitsValue 0 (front ++ [b]) =
          10 * digitsValue 0 front + (b.toNat - 0x30) := by
        rw [digitsValue, List.foldl_append]
        rfl
      rw [hvalue]
      by_cases hfront : front = []
      · subst hfront
        have hsmall : 10 * digitsValue 0 [] + (b.toNat - 0x30) = b.toNat - 0x30 :=
          Nat.zero_add _
        rw [hsmall, numberText, if_pos hlt, hdigit, List.nil_append]
      · -- More digits follow those in front, so none of these may be a zero in front of a number.
        have hnot : ∀ rest, front ≠ digit 0 :: rest := by
          rintro rest rfl
          exact List.concat_ne_nil b rest (hzero (rest ++ [b]) rfl)
        have hread := ih hfront (fun c hc => hall c (List.mem_append_left _ hc))
          fun rest hrest => absurd hrest (hnot rest)
        have hpos : 0 < digitsValue 0 front := by
          refine Nat.pos_of_ne_zero fun hvalue => hnot [] ?_
          rw [← hread, hvalue, numberText, if_pos (by decide)]
        rw [numberText, if_neg (by omega), Nat.mul_add_div (by decide), Nat.mul_add_mod,
          Nat.div_eq_of_lt hlt, Nat.mod_eq_of_lt hlt, Nat.add_zero, hread, hdigit]

/-- A whole number has one spelling. -/
theorem number?_eq_some_iff {s : Bytes} {n : Nat} : number? s = some n ↔ s = numberText n := by
  constructor
  · intro h
    cases s with
    | nil => cases h
    | cons b rest =>
        rw [number?] at h
        split at h
        · next hs =>
            cases h
            obtain ⟨hall, hhead⟩ := hs
            refine (numberText_digitsValue (List.cons_ne_nil b rest)
              (List.all_eq_true.mp hall) ?_).symm
            intro rest' hrest
            obtain ⟨rfl, rfl⟩ := List.cons.inj hrest
            exact hhead.resolve_left (not_not_intro rfl)
        · cases h
  · rintro rfl
    exact number?_numberText n

theorem truth?_eq_some_iff {s : Bytes} {b : Bool} : truth? s = some b ↔ s = truthText b := by
  constructor
  · intro h
    unfold truth? at h
    split at h
    · next hs =>
        cases h
        exact hs
    split at h
    · next hs =>
        cases h
        exact hs
    · cases h
  · rintro rfl
    exact truth?_truthText b

/-! ## Objects -/

theorem member_written {m : String × Bytes} (hkey : Plain m.1.toList) (h : Valid .value m.2) :
    Member (m.1.toList, m.2) (stringText m.1 ++ colon :: m.2) := by
  have hmember := Member.value blanks_nil (spellsAll_plain hkey) blanks_nil blanks_nil h
  simpa only [List.nil_append, stringText_eq, List.cons_append, List.append_assoc,
    List.singleton_append] using hmember

theorem items_written {members : List (String × Bytes)} (hne : members ≠ [])
    (h : ∀ m ∈ members, Plain m.1.toList ∧ Valid .value m.2) :
    Items Member (members.map fun m => (m.1.toList, m.2))
      (List.intercalate [comma] (members.map fun m => stringText m.1 ++ colon :: m.2)) := by
  induction members with
  | nil => exact absurd rfl hne
  | cons m rest ih =>
      obtain ⟨hkey, hvalue⟩ := h m List.mem_cons_self
      have hmember := member_written hkey hvalue
      cases rest with
      | nil =>
          have hitems := Items.last hmember blanks_nil
          rw [List.append_nil] at hitems
          rwa [List.map_singleton, List.map_singleton, List.intercalate_singleton]
      | cons next rest =>
          have hrest := ih (List.cons_ne_nil _ _) fun m' hm' => h m' (List.mem_cons_of_mem m hm')
          have hitems := Items.more hmember blanks_nil hrest
          simpa only [List.map_cons, List.intercalate_cons_cons, List.nil_append,
            List.append_assoc, List.singleton_append, List.cons_append] using hitems

/-- An object has the members it was put together from. -/
theorem objectText_written {members : List (String × Bytes)}
    (h : ∀ m ∈ members, Plain m.1.toList ∧ Valid .value m.2) :
    ObjectText (members.map fun m => (m.1.toList, m.2)) (objectText members) := by
  have henclosed : Enclosed Member .object (members.map fun m => (m.1.toList, m.2))
      (objectText members) := by
    by_cases hne : members = []
    · subst hne
      exact .empty blanks_nil
    · exact .items (items_written hne h)
  have htext := TextOf.enclosed blanks_nil henclosed blanks_nil
  rwa [List.append_nil, List.nil_append] at htext

/-! ## What is read from a member or an element -/

/-- The texts that an object gives for a key. -/
def textsOf (key : String) (members : List (List Char × Bytes)) : List Bytes :=
  (members.filter fun m => m.1 = key.toList).map (·.2)

/-- What there is to read settles a value: one text that tells it, or none where none is needed. -/
def Settles (Tells : Bytes → Prop) (omissible : Prop) (texts : List Bytes) : Prop :=
  (∃ s, texts = [s] ∧ Tells s) ∨ texts = [] ∧ omissible

theorem Settles.length_le {Tells : Bytes → Prop} {omissible : Prop} {texts : List Bytes}
    (h : Settles Tells omissible texts) : texts.length ≤ 1 := by
  rcases h with ⟨s, rfl, -⟩ | ⟨rfl, -⟩
  · exact Nat.le_refl 1
  · exact Nat.zero_le 1

theorem Settles.of_nil {Tells : Bytes → Prop} {omissible : Prop}
    (h : Settles Tells omissible []) : omissible := by
  rcases h with ⟨s, ⟨⟩, -⟩ | ⟨-, h⟩
  exact h

theorem textsOf_entries (key : String) (entries : List (List Char × Span)) :
    textsOf key (entries.map fun m => (m.1, m.2.text)) = (valuesOf key entries).map Span.text := by
  rw [textsOf, valuesOf, List.filter_map, List.map_map, List.map_map]
  rfl

theorem textsOf_written (key : String) (members : List (String × Bytes)) :
    textsOf key (members.map fun m => (m.1.toList, m.2)) =
      (members.filter fun m => m.1 = key).map (·.2) := by
  rw [textsOf, List.filter_map, List.map_map]
  simp only [Function.comp_def, String.toList_inj]

section

variable {α : Type} {read? : Bytes → Option α} {missing : Option α} {a : α}

theorem field?_eq_some_iff {key : String} {entries : List (List Char × Span)} :
    field? key read? missing entries = some a ↔
      Settles (fun s => read? s = some a) (missing = some a)
        (textsOf key (entries.map fun m => (m.1, m.2.text))) := by
  rw [textsOf_entries, field?]
  split
  · next hnil => simp [Settles, hnil]
  · next value hvalue => simp [Settles, hvalue]
  · next hnil hsingle =>
      refine ⟨nofun, ?_⟩
      rintro (⟨text, htexts, -⟩ | ⟨htexts, -⟩)
      · obtain ⟨value, hvalue, -⟩ := List.map_eq_singleton_iff.mp htexts
        exact absurd hvalue (hsingle value)
      · exact absurd (List.map_eq_nil_iff.mp htexts) hnil

theorem element?_eq_some_iff {index : Nat} {spans : List Span} :
    element? index read? missing spans = some a ↔
      Settles (fun s => read? s = some a) (missing = some a)
        ((spans.map Span.text)[index]?).toList := by
  rw [List.getElem?_map, element?]
  cases spans[index]? with
  | none => simp [Settles]
  | some span => simp [Settles]

end

end InvertedFile.Json
