import InvertedFile.Proofs.Json.Strings

/-!
# The walk over a value

The walk keeps a list of the enclosures it is inside of, and nothing else. One
step lemma for each thing that can come next says what it does, the same for
arrays and for objects: `opening`, `closing` and `skipLead?` are all that these
differ in.

A value is passed over whatever the walk is inside of, by induction on the
value. The other way round the walk does not stop at the end of a value: what
it takes goes on through every enclosure that is still open. `Finishes` says
what the text has to hold for that, and one induction on its length gives the
value at its front and the rest of every enclosure around it.

## Main results

* `skipScalar?_append`, `scalar_of_skipScalar?` — values that enclose no others.
* `Valid.skip?_append` — the walk ends where a value does.
* `valid_of_skip?` — where the walk ends, a value did.
-/

namespace InvertedFile.Json

/-! ## What may stand behind a value -/

/-- A text that may stand behind a value: it goes on with a blank, a comma or the end of an
enclosure, or not at all. -/
def Ends (s : Bytes) : Prop :=
  ∀ b rest, s = b :: rest →
    isBlank b = true ∨ b = comma ∨ b = closeBrace ∨ b = closeBracket

theorem ends_comma (rest : Bytes) : Ends (comma :: rest) := by
  rintro _ _ ⟨⟩
  exact Or.inr (Or.inl rfl)

theorem ends_closing (e : Enclosure) (rest : Bytes) : Ends (e.closing :: rest) := by
  rintro _ _ ⟨⟩
  cases e
  · exact Or.inr (Or.inr (Or.inr rfl))
  · exact Or.inr (Or.inr (Or.inl rfl))

theorem Ends.blanks {blanks rest : Bytes} (hblanks : Blanks blanks) (h : Ends rest) :
    Ends (blanks ++ rest) := by
  cases blanks with
  | nil => exact h
  | cons b tail =>
      rintro _ _ ⟨⟩
      exact Or.inl (hblanks b List.mem_cons_self)

theorem isBlank_cases {b : UInt8} (h : isBlank b = true) :
    b = 0x20 ∨ b = 0x09 ∨ b = 0x0A ∨ b = 0x0D := by
  simpa only [isBlank, Bool.or_eq_true, beq_iff_eq, or_assoc] using h

theorem Ends.noNumber {s : Bytes} (h : Ends s) : NoNumber s := by
  intro b rest hs
  rcases h b rest hs with hblank | rfl | rfl | rfl
  · rcases isBlank_cases hblank with rfl | rfl | rfl | rfl <;> decide
  · decide
  · decide
  · decide

/-! ## Values that enclose no others -/

/-- The byte that a number starts with is a digit or a minus sign. -/
theorem Number.head {s : Bytes} (h : Number s) :
    ∃ b rest, s = b :: rest ∧ (isDigit b = true ∨ b = ascii '-') := by
  obtain ⟨hsign, hwhole, -, -⟩ := h
  rcases hsign with rfl | rfl
  · obtain ⟨b, rest, rfl⟩ := List.exists_cons_of_ne_nil hwhole.digits.ne_nil
    exact ⟨b, _, rfl, Or.inl (hwhole.digits.all b List.mem_cons_self)⟩
  · exact ⟨ascii '-', _, rfl, Or.inr rfl⟩

/-- A digit or a minus sign starts nothing but a number. -/
theorem ne_of_number_head {b c : UInt8} (h : isDigit b = true ∨ b = ascii '-')
    (hdigit : isDigit c = false) (hminus : c ≠ ascii '-') : b ≠ c := by
  rintro rfl
  rcases h with hb | rfl
  · rw [hb] at hdigit
    cases hdigit
  · exact hminus rfl

/-- A byte that is no blank and neither opens nor closes an enclosure. -/
structure Starts (b : UInt8) : Prop where
  blank : isBlank b = false
  opening : ∀ e : Enclosure, b ≠ e.opening
  closing : ∀ e : Enclosure, b ≠ e.closing

theorem Scalar.head {s : Bytes} (h : Scalar s) : ∃ b rest, s = b :: rest ∧ Starts b := by
  cases h with
  | word h =>
      rcases h with rfl | rfl | rfl
      all_goals
        exact ⟨_, _, rfl, by decide, fun e => by cases e <;> decide, fun e => by cases e <;> decide⟩
  | number h =>
      obtain ⟨b, rest, rfl, hb⟩ := h.head
      have hne : ∀ c, isDigit c = false → c ≠ ascii '-' → b ≠ c :=
        fun c hdigit hminus => ne_of_number_head hb hdigit hminus
      refine ⟨b, rest, rfl, ?_, ?_, ?_⟩
      · refine Bool.eq_false_iff.mpr fun hblank => ?_
        rcases isBlank_cases hblank with rfl | rfl | rfl | rfl
        all_goals exact hne _ (by decide) (by decide) rfl
      · intro e
        cases e <;> exact hne _ (by decide) (by decide)
      · intro e
        cases e <;> exact hne _ (by decide) (by decide)
  | string _ =>
      exact ⟨quote, _, rfl, by decide, fun e => by cases e <;> decide,
        fun e => by cases e <;> decide⟩

theorem skipScalar?_append {s rest : Bytes} (h : Scalar s) (hrest : Ends rest) :
    skipScalar? (s ++ rest) = some rest := by
  cases h with
  | word h =>
      rcases h with rfl | rfl | rfl
      · exact literal?_append (asciiText "rue") rest
      · exact literal?_append (asciiText "alse") rest
      · exact literal?_append (asciiText "ull") rest
  | number h =>
      have hread := skipNumber?_append h hrest.noNumber
      obtain ⟨b, tail, rfl, hb⟩ := h.head
      rw [List.cons_append] at hread ⊢
      rw [skipScalar?, if_neg (ne_of_number_head hb (by decide) (by decide)),
        if_neg (ne_of_number_head hb (by decide) (by decide)),
        if_neg (ne_of_number_head hb (by decide) (by decide)),
        if_neg (ne_of_number_head hb (by decide) (by decide)), hread]
  | string h =>
      rw [List.cons_append, skipScalar?, if_pos rfl]
      exact skipString?_eq_some_iff.mpr ⟨_, h, by rw [List.append_assoc, List.singleton_append]⟩

theorem scalar_of_skipScalar? {s rest : Bytes} (h : skipScalar? s = some rest) :
    ∃ scalar, Scalar scalar ∧ s = scalar ++ rest := by
  cases s with
  | nil => cases h
  | cons b tail =>
      rw [skipScalar?] at h
      split at h
      · next hb =>
          obtain ⟨body, hbody, rfl⟩ := skipString?_eq_some_iff.mp h
          exact ⟨_, .string hbody, by simp [hb]⟩
      split at h
      · next hb =>
          rw [append_of_literal? h, hb]
          exact ⟨_, .word (Or.inl rfl), rfl⟩
      split at h
      · next hb =>
          rw [append_of_literal? h, hb]
          exact ⟨_, .word (Or.inr (Or.inl rfl)), rfl⟩
      split at h
      · next hb =>
          rw [append_of_literal? h, hb]
          exact ⟨_, .word (Or.inr (Or.inr rfl)), rfl⟩
      · obtain ⟨number, hnumber, heq⟩ := number_of_skipNumber? h
        exact ⟨number, .number hnumber, heq⟩

/-! ## What stands before the value of an item -/

/-- Reads what stands before the value of an item. -/
def skipLead? : Enclosure → Bytes → Option Bytes
  | .array, s => some s
  | .object, s => skipKey? s

theorem skipLead?_eq_some_iff {e : Enclosure} {s rest : Bytes} :
    skipLead? e s = some rest ↔ ∃ lead, Lead e lead ∧ s = lead ++ rest := by
  cases e with
  | array =>
      constructor
      · rintro ⟨⟩
        exact ⟨[], .array, rfl⟩
      · rintro ⟨_, ⟨⟩, rfl⟩
        rfl
  | object =>
      simp only [skipLead?, skipKey?, Option.bind_eq_bind, Option.bind_eq_some_iff,
        byte?_eq_some_iff, skipString?_eq_some_iff]
      constructor
      · rintro ⟨_, hquote, second, ⟨body, hbody, rfl⟩, hcolon⟩
        obtain ⟨before, hbefore, hs⟩ := exists_blanks s
        obtain ⟨behind, hbehind, hsecond⟩ := exists_blanks second
        refine ⟨_, .object hbefore hbody hbehind, ?_⟩
        rw [hs, hquote, hsecond, hcolon]
        simp only [List.append_assoc, List.cons_append, List.nil_append]
      · rintro ⟨_, hlead, rfl⟩
        cases hlead with
        | @object before key behind hbefore hkey hbehind =>
            simp only [List.append_assoc, List.cons_append, List.nil_append]
            refine ⟨key ++ quote :: (behind ++ colon :: rest), ?_, behind ++ colon :: rest,
              ⟨key, hkey, rfl⟩, ?_⟩
            · rw [skipBlanks_append hbefore, skipBlanks_cons (by decide)]
            · rw [skipBlanks_append hbehind, skipBlanks_cons (by decide)]

/-! ## The steps of the walk -/

section Steps

variable {inside outer : List Enclosure} {e : Enclosure} {b : UInt8} {s rest : Bytes}

theorem skip?_value_nil (hs : skipBlanks s = []) : skip? .value inside s = none := by
  rw [skip?]
  split
  · rfl
  · next hcons =>
      rw [hs] at hcons
      cases hcons

/-- A value comes next, and it starts with some byte. -/
theorem skip?_value_cons (hs : skipBlanks s = b :: rest) :
    skip? .value inside s =
      if b = openBracket then
        match byte? closeBracket (skipBlanks rest) with
        | some more => skip? .behind inside more
        | none => skip? .value (.array :: inside) rest
      else if b = openBrace then
        match byte? closeBrace (skipBlanks rest) with
        | some more => skip? .behind inside more
        | none => (skipKey? rest).bind (skip? .value (.object :: inside))
      else (skipScalar? (b :: rest)).bind (skip? .behind inside) := by
  rw [skip?]
  split
  · next hnil =>
      rw [hs] at hnil
      cases hnil
  · next hcons =>
      rw [hs] at hcons
      cases hcons
      grind

/-- An enclosure comes next: it is closed at once, or it has an item. -/
theorem skip?_value_opening (hs : skipBlanks s = e.opening :: rest) :
    skip? .value inside s =
      match byte? e.closing (skipBlanks rest) with
      | some more => skip? .behind inside more
      | none => (skipLead? e rest).bind (skip? .value (e :: inside)) := by
  rw [skip?_value_cons hs]
  cases e with
  | array => exact if_pos rfl
  | object => exact (if_neg (by decide)).trans (if_pos rfl)

theorem skip?_value_scalar (hs : skipBlanks s = b :: rest) (hb : ∀ e : Enclosure, b ≠ e.opening) :
    skip? .value inside s = (skipScalar? (b :: rest)).bind (skip? .behind inside) := by
  have harray : b ≠ openBracket := hb .array
  have hobject : b ≠ openBrace := hb .object
  rw [skip?_value_cons hs, if_neg harray, if_neg hobject]

theorem skip?_behind_nil : skip? .behind [] s = some s := by
  rw [skip?]

theorem skip?_behind_end (hs : skipBlanks s = []) : skip? .behind (e :: outer) s = none := by
  cases e
  all_goals
    rw [skip?]
    split
    · rfl
    · next hcons =>
        rw [hs] at hcons
        cases hcons

/-- A value has just ended inside of an enclosure, and some byte comes next. -/
theorem skip?_behind_cons (hs : skipBlanks s = b :: rest) :
    skip? .behind (e :: outer) s =
      if b = e.closing then skip? .behind outer rest
      else if b = comma then (skipLead? e rest).bind (skip? .value (e :: outer))
      else none := by
  cases e
  all_goals
    rw [skip?]
    split
    · next hnil =>
        rw [hs] at hnil
        cases hnil
    · next hcons =>
        rw [hs] at hcons
        cases hcons
        grind [Enclosure.closing, skipLead?]

end Steps

/-! ## Over a value -/

/-- A text that goes on, behind its blanks, with something that closes no enclosure. -/
def Opens (s : Bytes) : Prop :=
  ∃ b rest, skipBlanks s = b :: rest ∧ ∀ e : Enclosure, b ≠ e.closing

theorem Opens.byte? {s : Bytes} (h : Opens s) (e : Enclosure) :
    byte? e.closing (skipBlanks s) = none := by
  obtain ⟨b, rest, hs, hb⟩ := h
  rw [hs, Json.byte?, if_neg (hb e)]

/-- A value starts with neither a blank nor the end of an enclosure. -/
theorem Valid.head {s : Bytes} (h : Valid .value s) :
    ∃ b rest, s = b :: rest ∧ isBlank b = false ∧ ∀ e : Enclosure, b ≠ e.closing := by
  cases h with
  | scalar h =>
      obtain ⟨b, rest, hs, hb⟩ := h.head
      exact ⟨b, rest, hs, hb.blank, hb.closing⟩
  | @empty e _ _ => exact ⟨e.opening, _, rfl, e.isBlank_opening, e.opening_ne_closing⟩
  | @enclosure e _ _ => exact ⟨e.opening, _, rfl, e.isBlank_opening, e.opening_ne_closing⟩

theorem Valid.skipBlanks_append {s : Bytes} (h : Valid .value s) (rest : Bytes) :
    skipBlanks (s ++ rest) = s ++ rest := by
  obtain ⟨b, tail, rfl, hb, -⟩ := h.head
  exact skipBlanks_cons hb _

theorem Lead.opens {e : Enclosure} {lead before s : Bytes} (hlead : Lead e lead)
    (hbefore : Blanks before) (h : Valid .value s) (rest : Bytes) :
    Opens (lead ++ (before ++ (s ++ rest))) := by
  cases hlead with
  | array =>
      obtain ⟨b, tail, hs, -, hb⟩ := h.head
      refine ⟨b, tail ++ rest, ?_, hb⟩
      rw [List.nil_append, Json.skipBlanks_append hbefore, h.skipBlanks_append, hs,
        List.cons_append]
  | @object blanks key behind hblanks _ _ =>
      refine ⟨quote, key ++ quote :: (behind ++ [colon]) ++ (before ++ (s ++ rest)), ?_,
        fun e => by cases e <;> decide⟩
      rw [List.append_assoc, Json.skipBlanks_append hblanks, List.cons_append,
        skipBlanks_cons (by decide)]

theorem Valid.opens {e : Enclosure} {s : Bytes} (h : Valid (.items e) s) (rest : Bytes) :
    Opens (s ++ rest) := by
  cases h with
  | last hlead hbefore h _ =>
      simp only [List.append_assoc]
      exact hlead.opens hbefore h _
  | more hlead hbefore h _ _ =>
      simp only [List.append_assoc]
      exact hlead.opens hbefore h _

theorem skip?_value_blanks {blanks : Bytes} (h : Blanks blanks) (inside : List Enclosure)
    (s : Bytes) : skip? .value inside (blanks ++ s) = skip? .value inside s := by
  have heq := skipBlanks_append h s
  cases hs : skipBlanks s with
  | nil => rw [skip?_value_nil (heq.trans hs), skip?_value_nil hs]
  | cons b rest => rw [skip?_value_cons (heq.trans hs), skip?_value_cons hs]

/-- What the walk does on a text that is in the grammar. -/
def Passes : Form → Bytes → Prop
  | .value, s => ∀ inside rest, Ends rest →
      skip? .value inside (s ++ rest) = skip? .behind inside rest
  | .items e, s => ∀ inside rest,
      (skipLead? e (s ++ e.closing :: rest)).bind (skip? .value (e :: inside)) =
        skip? .behind inside rest

/-- The walk over the first item stops behind it. -/
theorem passes_item {e : Enclosure} {lead before s behind : Bytes} (hlead : Lead e lead)
    (hbefore : Blanks before) (h : Passes .value s) (hbehind : Blanks behind)
    (inside : List Enclosure) {b : UInt8} {rest : Bytes} (hends : Ends (b :: rest))
    (hb : isBlank b = false) :
    ∃ more, skipBlanks more = b :: rest ∧
      (skipLead? e (lead ++ (before ++ (s ++ (behind ++ b :: rest))))).bind
        (skip? .value (e :: inside)) = skip? .behind (e :: inside) more := by
  refine ⟨behind ++ b :: rest, ?_, ?_⟩
  · rw [skipBlanks_append hbehind, skipBlanks_cons hb]
  · rw [skipLead?_eq_some_iff.mpr ⟨lead, hlead, rfl⟩, Option.bind_some,
      skip?_value_blanks hbefore, h _ _ (hends.blanks hbehind)]

theorem Valid.passes {form : Form} {s : Bytes} (h : Valid form s) : Passes form s := by
  -- An item needs its value passed over inside of one enclosure more, so the list of enclosures
  -- is left to the induction hypotheses.
  induction h with
  | scalar h =>
      intro inside rest hrest
      obtain ⟨b, tail, rfl, hb⟩ := h.head
      have hread := skipScalar?_append h hrest
      rw [List.cons_append] at hread ⊢
      rw [skip?_value_scalar (skipBlanks_cons hb.blank _) hb.opening, hread, Option.bind_some]
  | @empty e blanks h =>
      intro inside rest _
      have hclosing : byte? e.closing (skipBlanks (blanks ++ e.closing :: rest)) = some rest := by
        rw [Json.skipBlanks_append h, skipBlanks_cons e.isBlank_closing, byte?, if_pos rfl]
      rw [List.cons_append, List.append_assoc, List.singleton_append,
        skip?_value_opening (skipBlanks_cons e.isBlank_opening _), hclosing]
  | @enclosure e s h ih =>
      intro inside rest _
      rw [List.cons_append, List.append_assoc, List.singleton_append,
        skip?_value_opening (skipBlanks_cons e.isBlank_opening _), (h.opens _).byte?]
      exact ih inside rest
  | @last e lead before s behind hlead hbefore h hbehind ih =>
      intro inside rest
      obtain ⟨more, hmore, hpass⟩ := passes_item hlead hbefore ih hbehind inside
        (ends_closing e rest) e.isBlank_closing
      simp only [List.append_assoc]
      rw [hpass, skip?_behind_cons hmore, if_pos rfl]
  | @more e lead before s behind others hlead hbefore h hbehind hothers ih ihothers =>
      intro inside rest
      obtain ⟨more, hmore, hpass⟩ := passes_item hlead hbefore ih hbehind inside
        (ends_comma (others ++ e.closing :: rest)) (by decide)
      simp only [List.append_assoc, List.cons_append]
      rw [hpass, skip?_behind_cons hmore, if_neg e.comma_ne_closing, if_pos rfl]
      exact ihothers inside rest

/-- The walk ends where a value does. -/
theorem Valid.skip?_append {s rest : Bytes} (h : Valid .value s) (hrest : Ends rest) :
    skip? .value [] (s ++ rest) = some rest := by
  have hpass : skip? .value [] (s ++ rest) = skip? .behind [] rest := h.passes [] rest hrest
  rw [hpass, skip?_behind_nil]

/-! ## What the walk went over -/

/-- What is left of an enclosure behind one of its items, without its end. -/
inductive Others (e : Enclosure) : Bytes → Prop where
  | none : Others e []
  | more {s : Bytes} (h : Valid (.items e) s) : Others e (comma :: s)

/-- What a text holds on which the walk ends: the rest of every enclosure that it is inside of. -/
def Finishes : List Enclosure → Bytes → Bytes → Prop
  | [], s, rest => s = rest
  | e :: outer, s, rest => ∃ behind others more, Blanks behind ∧ Others e others ∧
      s = behind ++ (others ++ e.closing :: more) ∧ Finishes outer more rest

/-- An item and what is left of its enclosure are the items of one. -/
theorem valid_items {e : Enclosure} {lead before s behind others : Bytes} (hlead : Lead e lead)
    (hbefore : Blanks before) (h : Valid .value s) (hbehind : Blanks behind)
    (hothers : Others e others) :
    Valid (.items e) (lead ++ (before ++ (s ++ (behind ++ others)))) := by
  cases hothers with
  | none =>
      rw [List.append_nil]
      exact .last hlead hbefore h hbehind
  | more hmore => exact .more hlead hbefore h hbehind hmore

/-- A value comes first, and then what finishes every enclosure. -/
def ValueFinishes (inside : List Enclosure) (s rest : Bytes) : Prop :=
  ∃ before value more, Blanks before ∧ Valid .value value ∧ s = before ++ (value ++ more) ∧
    Finishes inside more rest

/-- An item and what is left behind it, where the walk goes into an enclosure or on in it. -/
theorem exists_items {e : Enclosure} {inside : List Enclosure} {s rest : Bytes}
    (h : ∃ lead more, Lead e lead ∧ s = lead ++ more ∧ ValueFinishes (e :: inside) more rest) :
    ∃ items more, Valid (.items e) items ∧ s = items ++ e.closing :: more ∧
      Finishes inside more rest := by
  obtain ⟨lead, _, hlead, rfl, before, value, _, hbefore, hvalue, rfl, hfinishes⟩ := h
  obtain ⟨behind, others, more, hbehind, hothers, rfl, hmore⟩ := hfinishes
  refine ⟨_, more, valid_items hlead hbefore hvalue hbehind hothers, ?_, hmore⟩
  simp only [List.append_assoc]

/-- What a walk that ends tells about the text it began with. -/
structure Walked (s : Bytes) : Prop where
  value : ∀ inside rest, skip? .value inside s = some rest → ValueFinishes inside s rest
  behind : ∀ inside rest, skip? .behind inside s = some rest → Finishes inside s rest

section

variable {s : Bytes} {e : Enclosure} {inside : List Enclosure} {rest : Bytes}

/-- The walk goes on with an item, in an enclosure just entered or in one it was inside of. -/
theorem items_of_skip? {t : Bytes} (ih : ∀ t : Bytes, t.length < s.length → Walked t)
    (hlt : t.length < s.length)
    (h : (skipLead? e t).bind (skip? .value (e :: inside)) = some rest) :
    ∃ items more, Valid (.items e) items ∧ t = items ++ e.closing :: more ∧
      Finishes inside more rest := by
  obtain ⟨more, hmore, hwalk⟩ := Option.bind_eq_some_iff.mp h
  obtain ⟨lead, hlead, rfl⟩ := skipLead?_eq_some_iff.mp hmore
  rw [List.length_append] at hlt
  exact exists_items ⟨lead, more, hlead, rfl, (ih more (by omega)).value _ rest hwalk⟩

theorem valueFinishes_of_skip? (ih : ∀ t : Bytes, t.length < s.length → Walked t)
    (h : skip? .value inside s = some rest) : ValueFinishes inside s rest := by
  obtain ⟨blanks, hblanks, hs⟩ := exists_blanks s
  have hlength := congrArg List.length hs
  cases hstart : skipBlanks s with
  | nil =>
      rw [skip?_value_nil hstart] at h
      cases h
  | cons b tail =>
      rw [hstart] at hs
      rw [hstart, List.length_append, List.length_cons] at hlength
      by_cases hb : ∃ e : Enclosure, b = e.opening
      · obtain ⟨e, rfl⟩ := hb
        rw [skip?_value_opening hstart] at h
        cases hclosing : byte? e.closing (skipBlanks tail) with
        | some more =>
            rw [hclosing] at h
            obtain ⟨inner, hinner, htail⟩ := exists_blanks tail
            rw [byte?_eq_some_iff.mp hclosing] at htail
            have hshort := congrArg List.length htail
            rw [List.length_append, List.length_cons] at hshort
            refine ⟨blanks, _, more, hblanks, .empty (e := e) hinner, ?_,
              (ih more (by omega)).behind inside rest h⟩
            rw [hs, htail, List.cons_append, List.append_assoc, List.singleton_append]
        | none =>
            rw [hclosing] at h
            obtain ⟨items, more, hitems, htail, hmore⟩ := items_of_skip? ih (by omega) h
            refine ⟨blanks, _, more, hblanks, .enclosure hitems, ?_, hmore⟩
            rw [hs, htail, List.cons_append, List.append_assoc, List.singleton_append]
      · rw [skip?_value_scalar hstart (not_exists.mp hb)] at h
        obtain ⟨more, hmore, hwalk⟩ := Option.bind_eq_some_iff.mp h
        have hshort := skipScalar?_length hmore
        rw [List.length_cons] at hshort
        obtain ⟨scalar, hscalar, heq⟩ := scalar_of_skipScalar? hmore
        exact ⟨blanks, scalar, more, hblanks, .scalar hscalar, by rw [hs, heq],
          (ih more (by omega)).behind inside rest hwalk⟩

theorem finishes_of_skip? (ih : ∀ t : Bytes, t.length < s.length → Walked t)
    (h : skip? .behind inside s = some rest) : Finishes inside s rest := by
  cases inside with
  | nil =>
      rw [skip?_behind_nil] at h
      exact Option.some.inj h
  | cons e outer =>
      obtain ⟨blanks, hblanks, hs⟩ := exists_blanks s
      have hlength := congrArg List.length hs
      cases hstart : skipBlanks s with
      | nil =>
          rw [skip?_behind_end hstart] at h
          cases h
      | cons b tail =>
          rw [hstart] at hs
          rw [hstart, List.length_append, List.length_cons] at hlength
          rw [skip?_behind_cons hstart] at h
          split at h
          · next hb =>
              exact ⟨blanks, [], tail, hblanks, .none, by rw [hs, hb, List.nil_append],
                (ih tail (by omega)).behind outer rest h⟩
          split at h
          · next hb =>
              obtain ⟨items, more, hitems, htail, hmore⟩ := items_of_skip? ih (by omega) h
              refine ⟨blanks, _, more, hblanks, .more hitems, ?_, hmore⟩
              rw [hs, hb, htail, List.cons_append]
          · cases h

end

theorem walked (s : Bytes) : Walked s := by
  -- Both places call each other, every time on a shorter text.
  induction hn : s.length using Nat.strong_induction_on generalizing s with
  | _ n ih =>
      subst hn
      have hshorter : ∀ t : Bytes, t.length < s.length → Walked t := fun t ht => ih _ ht t rfl
      exact ⟨fun _ _ => valueFinishes_of_skip? hshorter, fun _ _ => finishes_of_skip? hshorter⟩

/-- Where the walk ends, a value did. -/
theorem valid_of_skip? {s rest : Bytes} (h : skip? .value [] s = some rest) :
    ∃ before value, Blanks before ∧ Valid .value value ∧ s = before ++ (value ++ rest) := by
  obtain ⟨before, value, more, hbefore, hvalue, rfl, hmore⟩ := (walked s).value [] rest h
  have heq : more = rest := hmore
  exact ⟨before, value, hbefore, hvalue, by rw [heq]⟩

end InvertedFile.Json
