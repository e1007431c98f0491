import InvertedFile.Json.Value

/-!
# The grammar of JSON text

What JSON text is, without a reader in it. Blanks may stand before and behind
every value, every comma and every colon. A number is written in digits, a
string in pieces: a byte that stands for itself, or an escape.

Two readings of a string are told apart. A string that is only passed over is
`Pieces`: its bytes need not be UTF-8, and the code of an escape may be half of
a pair. A string whose text matters is one that `Spells` characters: each of
them in UTF-8, in an escape of its own, or in the two halves of a pair.

`Valid` is the grammar of values. A value that encloses others has items, each
behind its key where the enclosure is an object, so that arrays and objects are
two cases of one form. `Enclosed` is the same form one level deep, with a list
of what the items are: `ObjectText` and `ArrayText` say which members or
elements a whole text has.
-/

namespace InvertedFile.Json

/-! ## Blanks -/

/-- Blanks and nothing else. -/
def Blanks (s : Bytes) : Prop :=
  ∀ b ∈ s, isBlank b = true

theorem blanks_nil : Blanks [] :=
  nofun

instance (s : Bytes) : Decidable (Blanks s) :=
  List.decidableBAll _ s

/-! ## Numbers -/

/-- At least one digit, and nothing else. -/
structure Digits (s : Bytes) : Prop where
  ne_nil : s ≠ []
  all : ∀ b ∈ s, isDigit b = true

/-- The whole part of a number: digits, without zeros in front. -/
structure Whole (s : Bytes) : Prop where
  digits : Digits s
  alone : ∀ rest, s = ascii '0' :: rest → rest = []

/-- The fraction of a number, if it has one. -/
inductive Fraction : Bytes → Prop where
  | none : Fraction []
  | digits {s : Bytes} (h : Digits s) : Fraction (ascii '.' :: s)

/-- The exponent of a number, if it has one. -/
inductive Exponent : Bytes → Prop where
  | none : Exponent []
  | digits {mark : UInt8} {sign s : Bytes} (hmark : mark = ascii 'e' ∨ mark = ascii 'E')
      (hsign : sign = [] ∨ sign = [ascii '+'] ∨ sign = [ascii '-']) (h : Digits s) :
      Exponent (mark :: (sign ++ s))

/-- A number of any size. -/
inductive Number : Bytes → Prop where
  | parts {sign whole fraction exponent : Bytes} (hsign : sign = [] ∨ sign = [ascii '-'])
      (hwhole : Whole whole) (hfraction : Fraction fraction) (hexponent : Exponent exponent) :
      Number (sign ++ (whole ++ (fraction ++ exponent)))

/-! ## Strings -/

/-- The characters of the short escapes and what they stand for. -/
def shortEscapes : List (Char × Char) :=
  [ ('"', '"'), ('\\', '\\'), ('/', '/'), ('b', Char.ofNat 8), ('f', Char.ofNat 12),
    ('n', '\n'), ('r', '\r'), ('t', '\t') ]

/-- A number in four hexadecimal digits. -/
inductive HexCode : Nat → Bytes → Prop where
  | digits {a b c d : UInt8} {i j k l : Nat} (ha : Hex.digit? a.toNat = some i)
      (hb : Hex.digit? b.toNat = some j) (hc : Hex.digit? c.toNat = some k)
      (hd : Hex.digit? d.toNat = some l) :
      HexCode (4096 * i + 256 * j + 16 * k + l) [a, b, c, d]

/-- A piece of a string whose text does not matter. -/
inductive Piece : Bytes → Prop where
  | byte {b : UInt8} (hlow : ¬ b < 0x20) (hquote : b ≠ quote) (hescape : b ≠ backslash) : Piece [b]
  | short {e c : Char} (h : (e, c) ∈ shortEscapes) : Piece [backslash, ascii e]
  | code {n : Nat} {digits : Bytes} (h : HexCode n digits) :
      Piece (backslash :: ascii 'u' :: digits)

/-- A string whose text does not matter, between its quotes. -/
inductive Pieces : Bytes → Prop where
  | nil : Pieces []
  | cons {piece rest : Bytes} (h : Piece piece) (hrest : Pieces rest) : Pieces (piece ++ rest)

/-- The spellings of a character in a string. -/
inductive Spells : Char → Bytes → Prop where
  | utf8 {c : Char} (hlow : 0x20 ≤ c.toNat) (hquote : c ≠ '"') (hescape : c ≠ '\\') :
      Spells c (String.utf8EncodeChar c)
  | short {e c : Char} (h : (e, c) ∈ shortEscapes) : Spells c [backslash, ascii e]
  | code {c : Char} {digits : Bytes} (h : HexCode c.toNat digits) :
      Spells c (backslash :: ascii 'u' :: digits)
  | pair {c : Char} {high low : Nat} {first second : Bytes} (hfirst : HexCode high first)
      (hsecond : HexCode low second) (hhigh : 0xD800 ≤ high ∧ high < 0xDC00)
      (hlow : 0xDC00 ≤ low ∧ low < 0xE000)
      (hc : c.toNat = 0x10000 + (high - 0xD800) * 1024 + (low - 0xDC00)) :
      Spells c (backslash :: ascii 'u' :: (first ++ backslash :: ascii 'u' :: second))

/-- The spellings of a text, between the quotes of a string. -/
inductive SpellsAll : List Char → Bytes → Prop where
  | nil : SpellsAll [] []
  | cons {c : Char} {cs : List Char} {first rest : Bytes} (h : Spells c first)
      (hrest : SpellsAll cs rest) : SpellsAll (c :: cs) (first ++ rest)

/-! ## Values -/

namespace Enclosure

/-- The byte that opens an enclosure. -/
def opening : Enclosure → UInt8
  | array => openBracket
  | object => openBrace

/-- The byte that closes an enclosure. -/
def closing : Enclosure → UInt8
  | array => closeBracket
  | object => closeBrace

theorem isBlank_opening (e : Enclosure) : isBlank e.opening = false := by
  cases e <;> decide

theorem isBlank_closing (e : Enclosure) : isBlank e.closing = false := by
  cases e <;> decide

theorem comma_ne_closing (e : Enclosure) : comma ≠ e.closing := by
  cases e <;> decide

theorem opening_ne_closing (e f : Enclosure) : e.opening ≠ f.closing := by
  cases e <;> cases f <;> decide

end Enclosure

/-- What stands before the value of an item: its key and a colon in an object, nothing in an
array. -/
inductive Lead : Enclosure → Bytes → Prop where
  | array : Lead .array []
  | object {before key behind : Bytes} (hbefore : Blanks before) (hkey : Pieces key)
      (hbehind : Blanks behind) :
      Lead .object (before ++ quote :: (key ++ quote :: (behind ++ [colon])))

/-- What a text is: a value, or the items of an enclosure. -/
inductive Form where
  | value
  | items (e : Enclosure)

/-- A value that encloses no others. -/
inductive Scalar : Bytes → Prop where
  | word {s : String} (h : s = "true" ∨ s = "false" ∨ s = "null") : Scalar (asciiText s)
  | number {s : Bytes} (h : Number s) : Scalar s
  | string {s : Bytes} (h : Pieces s) : Scalar (quote :: (s ++ [quote]))

/-- The grammar of values, and of the items that an enclosure holds. -/
inductive Valid : Form → Bytes → Prop where
  | scalar {s : Bytes} (h : Scalar s) : Valid .value s
  | empty {e : Enclosure} {blanks : Bytes} (h : Blanks blanks) :
      Valid .value (e.opening :: (blanks ++ [e.closing]))
  | enclosure {e : Enclosure} {s : Bytes} (h : Valid (.items e) s) :
      Valid .value (e.opening :: (s ++ [e.closing]))
  | last {e : Enclosure} {lead before s behind : Bytes} (hlead : Lead e lead)
      (hbefore : Blanks before) (h : Valid .value s) (hbehind : Blanks behind) :
      Valid (.items e) (lead ++ (before ++ (s ++ behind)))
  | more {e : Enclosure} {lead before s behind rest : Bytes} (hlead : Lead e lead)
      (hbefore : Blanks before) (h : Valid .value s) (hbehind : Blanks behind)
      (hrest : Valid (.items e) rest) :
      Valid (.items e) (lead ++ (before ++ (s ++ (behind ++ comma :: rest))))

/-! ## Texts -/

/-- Items with commas between them. -/
inductive Items {α : Type} (Item : α → Bytes → Prop) : List α → Bytes → Prop where
  | last {a : α} {s behind : Bytes} (h : Item a s) (hbehind : Blanks behind) :
      Items Item [a] (s ++ behind)
  | more {a : α} {as : List α} {s behind rest : Bytes} (h : Item a s) (hbehind : Blanks behind)
      (hrest : Items Item as rest) : Items Item (a :: as) (s ++ (behind ++ comma :: rest))

/-- Items between two bytes. -/
inductive Enclosed {α : Type} (Item : α → Bytes → Prop) (e : Enclosure) :
    List α → Bytes → Prop where
  | empty {blanks : Bytes} (h : Blanks blanks) :
      Enclosed Item e [] (e.opening :: (blanks ++ [e.closing]))
  | items {as : List α} {s : Bytes} (h : Items Item as s) :
      Enclosed Item e as (e.opening :: (s ++ [e.closing]))

/-- An element of an array. -/
inductive Element : Bytes → Bytes → Prop where
  | value {before s : Bytes} (hbefore : Blanks before) (h : Valid .value s) :
      Element s (before ++ s)

/-- A member of an object: the text of its key and its value. -/
inductive Member : List Char × Bytes → Bytes → Prop where
  | value {before key behind blanks s : Bytes} {cs : List Char} (hbefore : Blanks before)
      (hkey : SpellsAll cs key) (hbehind : Blanks behind) (hblanks : Blanks blanks)
      (h : Valid .value s) :
      Member (cs, s) (before ++ quote :: (key ++ quote :: (behind ++ colon :: (blanks ++ s))))

/-- A text that holds an enclosure and nothing else. -/
inductive TextOf {α : Type} (Item : α → Bytes → Prop) (e : Enclosure) : List α → Bytes → Prop where
  | enclosed {as : List α} {before s behind : Bytes} (hbefore : Blanks before)
      (h : Enclosed Item e as s) (hbehind : Blanks behind) :
      TextOf Item e as (before ++ (s ++ behind))

/-- A text that is an object of these members. -/
abbrev ObjectText (members : List (List Char × Bytes)) (s : Bytes) : Prop :=
  TextOf Member .object members s

/-- A text that is an array of these elements. -/
abbrev ArrayText (elements : List Bytes) (s : Bytes) : Prop :=
  TextOf Element .array elements s

end InvertedFile.Json
