import Mathlib.Data.List.TakeWhile
import InvertedFile.Proofs.Json.Grammar

/-!
# The words of JSON text are read

Every reader of a word reads what the grammar calls that word, and nothing
else: a word is read from the front of a text, whatever stands behind it, and
what a reader takes from the front of a text is such a word. Where a word ends
by itself, as a given byte does, the two directions are one equivalence. A
number does not end by itself. It is read to its end where nothing behind it
could go on with it, which is so behind every value.

## Main results

* `skipBlanks_append`, `exists_blanks` — blanks.
* `skipNumber?_append`, `number_of_skipNumber?` — numbers.
-/

namespace InvertedFile.Json

/-! ## Blanks -/

theorem skipBlanks_append {blanks : Bytes} (h : Blanks blanks) (s : Bytes) :
    skipBlanks (blanks ++ s) = skipBlanks s :=
  List.dropWhile_append_of_pos h

/-- What blanks are left out of is blanks and what is left. -/
theorem exists_blanks (s : Bytes) : ∃ blanks, Blanks blanks ∧ s = blanks ++ skipBlanks s :=
  ⟨s.takeWhile isBlank, fun _ hb => List.mem_takeWhile_imp hb,
    (List.takeWhile_append_dropWhile).symm⟩

theorem skipBlanks_cons {b : UInt8} (h : isBlank b = false) (rest : Bytes) :
    skipBlanks (b :: rest) = b :: rest := by
  rw [skipBlanks, List.dropWhile_cons, h]
  rfl

theorem skipBlanks_eq_nil_iff {s : Bytes} : skipBlanks s = [] ↔ Blanks s :=
  List.dropWhile_eq_nil_iff

theorem byte?_eq_some_iff {b : UInt8} {s rest : Bytes} : byte? b s = some rest ↔ s = b :: rest := by
  cases s with
  | nil => simp [byte?]
  | cons c tail =>
      by_cases h : c = b
      · simp [byte?, h]
      · simp [byte?, h]

theorem literal?_append (word rest : Bytes) : literal? word (word ++ rest) = some rest := by
  rw [literal?, if_pos (by simp), List.drop_left]

theorem append_of_literal? {word s rest : Bytes} (h : literal? word s = some rest) :
    s = word ++ rest := by
  unfold literal? at h
  split at h
  · next hprefix =>
      cases h
      exact List.prefix_iff_eq_append.mp (List.isPrefixOf_iff_prefix.mp hprefix) |>.symm
  · cases h

/-! ## Numbers -/

/-- A text that does not go on with digits. -/
def NoDigit (s : Bytes) : Prop :=
  ∀ b rest, s = b :: rest → isDigit b = false

theorem NoDigit.cons {b : UInt8} (h : isDigit b = false) (rest : Bytes) : NoDigit (b :: rest) := by
  rintro _ _ ⟨⟩
  exact h

theorem dropDigits_append {digits rest : Bytes} (h : ∀ b ∈ digits, isDigit b = true)
    (hrest : NoDigit rest) : (digits ++ rest).dropWhile isDigit = rest := by
  rw [List.dropWhile_append_of_pos h]
  cases rest with
  | nil => rfl
  | cons b tail => rw [List.dropWhile_cons, hrest b tail rfl, if_neg Bool.false_ne_true]

theorem exists_digits (s : Bytes) :
    ∃ digits, (∀ b ∈ digits, isDigit b = true) ∧ s = digits ++ s.dropWhile isDigit :=
  ⟨s.takeWhile isDigit, fun _ hb => List.mem_takeWhile_imp hb,
    (List.takeWhile_append_dropWhile).symm⟩

theorem skipDigits?_append {digits rest : Bytes} (h : Digits digits) (hrest : NoDigit rest) :
    skipDigits? (digits ++ rest) = some rest := by
  cases digits with
  | nil => exact absurd rfl h.ne_nil
  | cons b tail =>
      obtain ⟨hfirst, htail⟩ := List.forall_mem_cons.mp h.all
      rw [List.cons_append, skipDigits?, if_pos hfirst, dropDigits_append htail hrest]

theorem digits_of_skipDigits? {s rest : Bytes} (h : skipDigits? s = some rest) :
    ∃ digits, Digits digits ∧ s = digits ++ rest := by
  cases s with
  | nil => cases h
  | cons b tail =>
      rw [skipDigits?] at h
      split at h
      · next hfirst =>
          cases h
          obtain ⟨digits, hdigits, heq⟩ := exists_digits tail
          refine ⟨b :: digits, ⟨List.cons_ne_nil _ _, ?_⟩, ?_⟩
          · exact List.forall_mem_cons.mpr ⟨hfirst, hdigits⟩
          · rw [List.cons_append, ← heq]
      · cases h

theorem skipWhole?_append {whole rest : Bytes} (h : Whole whole) (hrest : NoDigit rest) :
    skipWhole? (whole ++ rest) = some rest := by
  cases whole with
  | nil => exact absurd rfl h.digits.ne_nil
  | cons b tail =>
      obtain ⟨hfirst, htail⟩ := List.forall_mem_cons.mp h.digits.all
      rw [List.cons_append, skipWhole?]
      by_cases hzero : b = ascii '0'
      · rw [if_pos hzero, h.alone tail (by rw [hzero]), List.nil_append]
      · rw [if_neg hzero, if_pos hfirst, dropDigits_append htail hrest]

theorem whole_of_skipWhole? {s rest : Bytes} (h : skipWhole? s = some rest) :
    ∃ whole, Whole whole ∧ s = whole ++ rest := by
  cases s with
  | nil => cases h
  | cons b tail =>
      rw [skipWhole?] at h
      split at h
      · next hzero =>
          cases h
          refine ⟨[b], ⟨⟨List.cons_ne_nil _ _, ?_⟩, ?_⟩, rfl⟩
          · rw [hzero, List.forall_mem_singleton]
            rfl
          · intro rest hrest
            exact (List.cons.inj hrest).2.symm
      · next hzero =>
          split at h
          · next hfirst =>
              cases h
              obtain ⟨digits, hdigits, heq⟩ := exists_digits tail
              refine ⟨b :: digits, ⟨⟨List.cons_ne_nil _ _, ?_⟩, ?_⟩, ?_⟩
              · exact List.forall_mem_cons.mpr ⟨hfirst, hdigits⟩
              · intro rest hrest
                exact absurd (List.cons.inj hrest).1 hzero
              · rw [List.cons_append, ← heq]
          · cases h

/-- A text that goes on with nothing that could belong to a number. -/
def NoNumber (s : Bytes) : Prop :=
  ∀ b rest, s = b :: rest →
    isDigit b = false ∧ b ≠ ascii '.' ∧ b ≠ ascii 'e' ∧ b ≠ ascii 'E'

theorem NoNumber.noDigit {s : Bytes} (h : NoNumber s) : NoDigit s :=
  fun b rest hs => (h b rest hs).1

/-- What a sign is left out of is a sign, if there is one, and what is left. -/
theorem exists_sign (s : Bytes) :
    ∃ sign, (sign = [] ∨ sign = [ascii '+'] ∨ sign = [ascii '-']) ∧ s = sign ++ skipSign s := by
  cases s with
  | nil => exact ⟨[], Or.inl rfl, rfl⟩
  | cons b rest =>
      rw [skipSign]
      split
      · next hb =>
          refine ⟨[b], Or.inr ?_, rfl⟩
          rcases hb with rfl | rfl
          · exact Or.inl rfl
          · exact Or.inr rfl
      · exact ⟨[], Or.inl rfl, rfl⟩

theorem exists_minus (s : Bytes) :
    ∃ sign, (sign = [] ∨ sign = [ascii '-']) ∧ s = sign ++ skipMinus s := by
  cases s with
  | nil => exact ⟨[], Or.inl rfl, rfl⟩
  | cons b rest =>
      rw [skipMinus]
      split
      · next hb => exact ⟨[b], Or.inr (by rw [hb]), rfl⟩
      · exact ⟨[], Or.inl rfl, rfl⟩

theorem skipExponent?_append {exponent rest : Bytes} (h : Exponent exponent)
    (hrest : NoNumber rest) : skipExponent? (exponent ++ rest) = some rest := by
  cases h with
  | none =>
      rw [List.nil_append]
      cases rest with
      | nil => rfl
      | cons b tail =>
          obtain ⟨-, -, hlower, hupper⟩ := hrest b tail rfl
          exact if_neg (not_or.mpr ⟨hlower, hupper⟩)
  | @digits mark sign digits hmark hsign h =>
      have hsigned : skipSign (sign ++ (digits ++ rest)) = digits ++ rest := by
        rcases hsign with rfl | rfl | rfl
        · cases digits with
          | nil => exact absurd rfl h.ne_nil
          | cons b tail =>
              have hfirst := h.all b List.mem_cons_self
              refine if_neg ?_
              rintro (rfl | rfl) <;> exact absurd hfirst (by decide)
        · rfl
        · rfl
      show skipExponent? (mark :: ((sign ++ digits) ++ rest)) = _
      rw [skipExponent?, if_pos hmark, List.append_assoc, hsigned,
        skipDigits?_append h hrest.noDigit]

theorem exponent_of_skipExponent? {s rest : Bytes} (h : skipExponent? s = some rest) :
    ∃ exponent, Exponent exponent ∧ s = exponent ++ rest := by
  unfold skipExponent? at h
  split at h
  · next b tail =>
      split at h
      · next hmark =>
          obtain ⟨digits, hdigits, heq⟩ := digits_of_skipDigits? h
          obtain ⟨sign, hsign, htail⟩ := exists_sign tail
          refine ⟨b :: (sign ++ digits), .digits hmark hsign hdigits, ?_⟩
          rw [List.cons_append, List.append_assoc, ← heq, ← htail]
      · cases h
        exact ⟨[], .none, rfl⟩
  · cases h
    exact ⟨[], .none, rfl⟩

/-- Neither an exponent nor what may stand behind a number goes on with a fraction. -/
theorem Exponent.append_head {exponent rest : Bytes} (h : Exponent exponent)
    (hrest : NoNumber rest) (b : UInt8) (tail : Bytes) (heq : exponent ++ rest = b :: tail) :
    isDigit b = false ∧ b ≠ ascii '.' := by
  cases h with
  | none =>
      obtain ⟨hdigit, hdot, -, -⟩ := hrest b tail heq
      exact ⟨hdigit, hdot⟩
  | digits hmark _ _ =>
      cases heq
      rcases hmark with rfl | rfl <;> decide

theorem skipFraction?_append {fraction rest : Bytes} (h : Fraction fraction)
    (hrest : ∀ b tail, rest = b :: tail → isDigit b = false ∧ b ≠ ascii '.') :
    skipFraction? (fraction ++ rest) = some rest := by
  cases h with
  | none =>
      rw [List.nil_append]
      cases rest with
      | nil => rfl
      | cons b tail => exact if_neg (hrest b tail rfl).2
  | digits h =>
      rw [List.cons_append, skipFraction?, if_pos rfl]
      exact skipDigits?_append h fun b tail heq => (hrest b tail heq).1

theorem fraction_of_skipFraction? {s rest : Bytes} (h : skipFraction? s = some rest) :
    ∃ fraction, Fraction fraction ∧ s = fraction ++ rest := by
  unfold skipFraction? at h
  split at h
  · next b tail =>
      split at h
      · next hdot =>
          obtain ⟨digits, hdigits, heq⟩ := digits_of_skipDigits? h
          refine ⟨ascii '.' :: digits, .digits hdigits, ?_⟩
          rw [hdot, List.cons_append, ← heq]
      · cases h
        exact ⟨[], .none, rfl⟩
  · cases h
    exact ⟨[], .none, rfl⟩

theorem Fraction.append_noDigit {fraction rest : Bytes} (h : Fraction fraction)
    (hrest : NoDigit rest) : NoDigit (fraction ++ rest) := by
  cases h with
  | none => exact hrest
  | digits _ => exact NoDigit.cons (by decide) _

/-- A number is read where nothing behind it goes on with it. -/
theorem skipNumber?_append {s rest : Bytes} (h : Number s) (hrest : NoNumber rest) :
    skipNumber? (s ++ rest) = some rest := by
  cases h with
  | @parts sign whole fraction exponent hsign hwhole hfraction hexponent =>
      have hhead := hexponent.append_head hrest
      have hdigit : NoDigit (fraction ++ (exponent ++ rest)) :=
        hfraction.append_noDigit fun b tail heq => (hhead b tail heq).1
      have hminus : skipMinus (sign ++ (whole ++ (fraction ++ (exponent ++ rest)))) =
          whole ++ (fraction ++ (exponent ++ rest)) := by
        rcases hsign with rfl | rfl
        · cases whole with
          | nil => exact absurd rfl hwhole.digits.ne_nil
          | cons b tail =>
              have hfirst := hwhole.digits.all b List.mem_cons_self
              refine if_neg ?_
              rintro rfl
              exact absurd hfirst (by decide)
        · rfl
      simp only [List.append_assoc]
      rw [skipNumber?, hminus, skipWhole?_append hwhole hdigit]
      show (skipFraction? (fraction ++ (exponent ++ rest))).bind skipExponent? = _
      rw [skipFraction?_append hfraction hhead]
      exact skipExponent?_append hexponent hrest

/-- What is read as a number is one. -/
theorem number_of_skipNumber? {s rest : Bytes} (h : skipNumber? s = some rest) :
    ∃ number, Number number ∧ s = number ++ rest := by
  simp only [skipNumber?, Option.bind_eq_bind, Option.bind_eq_some_iff] at h
  obtain ⟨first, hfirst, second, hsecond, hthird⟩ := h
  obtain ⟨whole, hwhole, hw⟩ := whole_of_skipWhole? hfirst
  obtain ⟨fraction, hfraction, hf⟩ := fraction_of_skipFraction? hsecond
  obtain ⟨exponent, hexponent, he⟩ := exponent_of_skipExponent? hthird
  obtain ⟨sign, hsign, hs⟩ := exists_minus s
  refine ⟨_, .parts hsign hwhole hfraction hexponent, ?_⟩
  simp only [List.append_assoc]
  rw [← he, ← hf, ← hw, ← hs]

end InvertedFile.Json
