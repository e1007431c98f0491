import InvertedFile.Json.Value

/-!
# Single JSON values

The values that the library itself writes and reads: whole numbers, truth
values, null and strings of ASCII letters. Each reader takes the text of one
value and answers only if it is a value of that kind, spelled in the one way
there is; a string may use escapes.

## Main results

* `number?_numberText` — a whole number reads back.
-/

namespace InvertedFile.Json

/-- The digit of a number below ten. -/
def digit (n : Nat) : UInt8 :=
  UInt8.ofNat (0x30 + n)

/-- A whole number in decimal digits. -/
def numberText (n : Nat) : Bytes :=
  if n < 10 then [digit n] else numberText (n / 10) ++ [digit (n % 10)]

/-- The number that digits stand for, behind those read before. -/
def digitsValue (acc : Nat) (digits : Bytes) : Nat :=
  digits.foldl (fun acc b => 10 * acc + (b.toNat - 0x30)) acc

/-- A whole number: digits, without zeros in front. -/
def number? (s : Bytes) : Option Nat :=
  match s with
  | [] => none
  | b :: rest =>
      if s.all isDigit ∧ (b ≠ digit 0 ∨ rest = []) then some (digitsValue 0 s) else none

theorem isDigit_digit {n : Nat} (h : n < 10) : isDigit (digit n) = true := by
  have all : ∀ k : Fin 10, isDigit (digit k.val) = true := by decide
  exact all ⟨n, h⟩

private theorem toNat_digit {n : Nat} (h : n < 10) : (digit n).toNat - 0x30 = n := by
  have all : ∀ k : Fin 10, (digit k.val).toNat - 0x30 = k.val := by decide
  exact all ⟨n, h⟩

private theorem digit_ne_zero {n : Nat} (h : n < 10) (hpos : 0 < n) : digit n ≠ digit 0 := by
  have all : ∀ k : Fin 10, 0 < k.val → digit k.val ≠ digit 0 := by decide
  exact all ⟨n, h⟩ hpos

theorem all_numberText (n : Nat) : (numberText n).all isDigit = true := by
  fun_induction numberText n with
  | case1 n h => simp [isDigit_digit h]
  | case2 n h ih =>
      have hmod : n % 10 < 10 := by omega
      simp only [List.all_append, ih, List.all_cons, List.all_nil, isDigit_digit hmod,
        Bool.and_true]

private theorem digitsValue_numberText (n : Nat) : digitsValue 0 (numberText n) = n := by
  fun_induction numberText n with
  | case1 n h => simp [digitsValue, toNat_digit h]
  | case2 n h ih =>
      have hmod : n % 10 < 10 := by omega
      simp only [digitsValue, List.foldl_append, List.foldl_cons, List.foldl_nil] at ih ⊢
      rw [ih, toNat_digit hmod]
      omega

theorem head_numberText (n : Nat) :
    ∃ b rest, numberText n = b :: rest ∧ (b ≠ digit 0 ∨ rest = []) := by
  fun_induction numberText n with
  | case1 n h => exact ⟨digit n, [], rfl, Or.inr rfl⟩
  | case2 n h ih =>
      obtain ⟨b, rest, heq, hhead⟩ := ih
      refine ⟨b, rest ++ [digit (n % 10)], by simp [heq], Or.inl ?_⟩
      rcases hhead with hb | hrest
      · exact hb
      · subst hrest
        unfold numberText at heq
        split at heq
        · next hlt =>
            simp only [List.cons.injEq, and_true] at heq
            rw [← heq]
            exact digit_ne_zero hlt (by omega)
        · simp only [List.append_eq_cons_iff, List.cons.injEq, and_true] at heq
          have hne : numberText (n / 10 / 10) ≠ [] := by
            unfold numberText
            split <;> simp
          rcases heq with ⟨hnil, -⟩ | ⟨_, -, hcons⟩
          · exact absurd hnil hne
          · simp at hcons

theorem number?_numberText (n : Nat) : number? (numberText n) = some n := by
  obtain ⟨b, rest, heq, hhead⟩ := head_numberText n
  have hall := all_numberText n
  have hvalue := digitsValue_numberText n
  rw [heq] at hall hvalue ⊢
  simp only [number?]
  rw [if_pos ⟨hall, hhead⟩, hvalue]

/-- A whole number below a limit. -/
def numberBelow? (limit : Nat) (s : Bytes) : Option Nat := do
  let n ← number? s
  if n < limit then return n else none

/-- A truth value. -/
def truthText (b : Bool) : Bytes :=
  if b then asciiText "true" else asciiText "false"

/-- A truth value. -/
def truth? (s : Bytes) : Option Bool :=
  if s = asciiText "true" then some true
  else if s = asciiText "false" then some false
  else none

theorem truth?_truthText (b : Bool) : truth? (truthText b) = some b := by
  cases b <;> decide

/-- The value that stands for nothing. -/
def nullText : Bytes :=
  asciiText "null"

/-- Null, or a value of some kind. -/
def optional? {α : Type} (read? : Bytes → Option α) (s : Bytes) : Option (Option α) :=
  if s = nullText then some none else (read? s).map some

/-- A string of ASCII characters that need no escape. -/
def stringText (s : String) : Bytes :=
  quote :: asciiText s ++ [quote]

/-- The text of a string. -/
def string? (s : Bytes) : Option (List Char) :=
  match quoted? s with
  | some (cs, []) => some cs
  | _ => none

/-- The values of a key, in the order of an object's members. -/
def valuesOf (key : String) (members : List (List Char × Span)) : List Span :=
  (members.filter fun m => m.1 = key.toList).map (·.2)

/-- The value of a key that may be missing and must not be there twice. -/
def field? {α : Type} (key : String) (read? : Bytes → Option α) (missing : Option α)
    (members : List (List Char × Span)) : Option α :=
  match valuesOf key members with
  | [] => missing
  | [value] => read? value.text
  | _ => none

/-- The value at a place in an array that may be too short. -/
def element? {α : Type} (index : Nat) (read? : Bytes → Option α) (missing : Option α)
    (elements : List Span) : Option α :=
  match elements[index]? with
  | none => missing
  | some value => read? value.text

/-- An object of members given as their texts. -/
def objectText (members : List (String × Bytes)) : Bytes :=
  openBrace ::
    (List.intercalate [comma] (members.map fun m => stringText m.1 ++ colon :: m.2)) ++
    [closeBrace]

end InvertedFile.Json
