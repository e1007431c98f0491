import InvertedFile.Bytes.Hex

/-!
# The words of JSON text

Reading JSON from bytes, one word at a time. Every reader takes the bytes
that are left and gives those behind the word, or nothing where no such word
starts.

A string is read in one of two ways. Where its text matters, `text?` decodes
it: escapes are resolved, a surrogate escape must come with its partner and
all other bytes must be UTF-8. Where it does not matter, `skipString?` only
looks for its end: any byte from space on may stand in it, and of an escape
only the shape is looked at.

## Main results

* `skipScalar?_length`, `text?_length` — every word is at least one byte long.
-/

namespace InvertedFile.Json

/-- The byte of an ASCII character. -/
def ascii (c : Char) : UInt8 :=
  UInt8.ofNat c.toNat

/-- The bytes of ASCII text. -/
def asciiText (s : String) : Bytes :=
  s.toList.map ascii

/-- Opens an object. -/
def openBrace : UInt8 :=
  0x7B

/-- Closes an object. -/
def closeBrace : UInt8 :=
  0x7D

/-- Opens an array. -/
def openBracket : UInt8 :=
  0x5B

/-- Closes an array. -/
def closeBracket : UInt8 :=
  0x5D

/-- Opens and closes a string. -/
def quote : UInt8 :=
  0x22

/-- Starts an escape. -/
def backslash : UInt8 :=
  0x5C

/-- Stands between two values or members. -/
def comma : UInt8 :=
  0x2C

/-- Stands between a key and its value. -/
def colon : UInt8 :=
  0x3A

/-- Space, tab, line feed and carriage return. -/
def isBlank (b : UInt8) : Bool :=
  b == 0x20 || b == 0x09 || b == 0x0A || b == 0x0D

/-- Leaves out blanks. -/
def skipBlanks (s : Bytes) : Bytes :=
  s.dropWhile isBlank

theorem skipBlanks_length (s : Bytes) : (skipBlanks s).length ≤ s.length :=
  (List.dropWhile_sublist isBlank).length_le

/-- Reads one given byte. -/
def byte? (b : UInt8) : Bytes → Option Bytes
  | [] => none
  | c :: rest => if c = b then some rest else none

/-- Reads a given word. -/
def literal? (word : Bytes) (s : Bytes) : Option Bytes :=
  if word.isPrefixOf s then some (s.drop word.length) else none

/-! ## Numbers -/

/-- The ten ASCII digits. -/
def isDigit (b : UInt8) : Bool :=
  0x30 ≤ b && b ≤ 0x39

/-- Reads one digit and those behind it. -/
def skipDigits? : Bytes → Option Bytes
  | [] => none
  | b :: rest => if isDigit b then some (rest.dropWhile isDigit) else none

/-- Reads the whole part of a number, which has no zeros in front. -/
def skipWhole? : Bytes → Option Bytes
  | [] => none
  | b :: rest =>
      if b = ascii '0' then some rest
      else if isDigit b then some (rest.dropWhile isDigit)
      else none

/-- Reads the fraction of a number, if it has one. -/
def skipFraction? (s : Bytes) : Option Bytes :=
  match s with
  | b :: rest => if b = ascii '.' then skipDigits? rest else some s
  | [] => some s

/-- Leaves out one sign. -/
def skipSign : Bytes → Bytes
  | [] => []
  | b :: rest => if b = ascii '+' ∨ b = ascii '-' then rest else b :: rest

/-- Reads the exponent of a number, if it has one. -/
def skipExponent? (s : Bytes) : Option Bytes :=
  match s with
  | b :: rest => if b = ascii 'e' ∨ b = ascii 'E' then skipDigits? (skipSign rest) else some s
  | [] => some s

/-- Leaves out one minus sign. -/
def skipMinus : Bytes → Bytes
  | [] => []
  | b :: rest => if b = ascii '-' then rest else b :: rest

/-- Reads a number of any size. -/
def skipNumber? (s : Bytes) : Option Bytes := do
  skipExponent? (← skipFraction? (← skipWhole? (skipMinus s)))

theorem dropDigits_length (s : Bytes) : (s.dropWhile isDigit).length ≤ s.length :=
  (List.dropWhile_sublist isDigit).length_le

theorem skipDigits?_length {s rest : Bytes} (h : skipDigits? s = some rest) :
    rest.length < s.length := by
  unfold skipDigits? at h
  split at h
  · simp at h
  · next b tail =>
    split at h
    · simp only [Option.some.injEq] at h
      have := dropDigits_length tail
      simp only [List.length_cons, ← h]
      omega
    · simp at h

theorem skipWhole?_length {s rest : Bytes} (h : skipWhole? s = some rest) :
    rest.length < s.length := by
  unfold skipWhole? at h
  split at h
  · simp at h
  · next b tail =>
    split at h
    · simp only [Option.some.injEq] at h
      simp [h]
    · split at h
      · simp only [Option.some.injEq] at h
        have := dropDigits_length tail
        simp only [List.length_cons, ← h]
        omega
      · simp at h

theorem skipFraction?_length {s rest : Bytes} (h : skipFraction? s = some rest) :
    rest.length ≤ s.length := by
  unfold skipFraction? at h
  split at h
  · split at h
    · have := skipDigits?_length h
      simp only [List.length_cons]
      omega
    · simp only [Option.some.injEq] at h
      simp [h]
  · simp only [Option.some.injEq] at h
    simp [h]

theorem skipSign_length (s : Bytes) : (skipSign s).length ≤ s.length := by
  unfold skipSign
  split
  · simp
  · split <;> simp

theorem skipMinus_length (s : Bytes) : (skipMinus s).length ≤ s.length := by
  unfold skipMinus
  split
  · simp
  · split <;> simp

theorem skipExponent?_length {s rest : Bytes} (h : skipExponent? s = some rest) :
    rest.length ≤ s.length := by
  unfold skipExponent? at h
  split at h
  · next b tail =>
    split at h
    · have := skipDigits?_length h
      have := skipSign_length tail
      simp only [List.length_cons]
      omega
    · simp only [Option.some.injEq] at h
      simp [h]
  · simp only [Option.some.injEq] at h
    simp [h]

theorem skipNumber?_length {s rest : Bytes} (h : skipNumber? s = some rest) :
    rest.length < s.length := by
  simp only [skipNumber?, Option.bind_eq_bind, Option.bind_eq_some_iff] at h
  obtain ⟨_, hwhole, _, hfraction, hexponent⟩ := h
  have := skipMinus_length s
  have := skipWhole?_length hwhole
  have := skipFraction?_length hfraction
  have := skipExponent?_length hexponent
  omega

/-! ## Strings -/

/-- The characters of the short escapes and what they stand for. -/
def shortEscape? (b : UInt8) : Option Char :=
  if b = quote then some '"'
  else if b = backslash then some '\\'
  else if b = ascii '/' then some '/'
  else if b = ascii 'b' then some (Char.ofNat 8)
  else if b = ascii 'f' then some (Char.ofNat 12)
  else if b = ascii 'n' then some '\n'
  else if b = ascii 'r' then some '\r'
  else if b = ascii 't' then some '\t'
  else none

/-- Four hexadecimal digits. -/
def hexCode? : Bytes → Option (Nat × Bytes)
  | a :: b :: c :: d :: rest => do
      let a ← Hex.digit? a.toNat
      let b ← Hex.digit? b.toNat
      let c ← Hex.digit? c.toNat
      let d ← Hex.digit? d.toNat
      return (4096 * a + 256 * b + 16 * c + d, rest)
  | _ => none

/-- What stands behind the backslash of an escape, by its shape alone. -/
def skipEscape? : Bytes → Option Bytes
  | [] => none
  | b :: rest =>
      if b = ascii 'u' then (hexCode? rest).map (·.2)
      else (shortEscape? b).map fun _ => rest

theorem hexCode?_length {s rest : Bytes} {code : Nat} (h : hexCode? s = some (code, rest)) :
    rest.length < s.length := by
  unfold hexCode? at h
  split at h
  · simp only [Option.bind_eq_bind, Option.bind_eq_some_iff] at h
    obtain ⟨_, -, _, -, _, -, _, -, h⟩ := h
    simp only [Option.pure_def, Option.some.injEq, Prod.mk.injEq] at h
    obtain ⟨-, rfl⟩ := h
    simp only [List.length_cons]
    omega
  · simp at h

theorem skipEscape?_length {s rest : Bytes} (h : skipEscape? s = some rest) :
    rest.length < s.length := by
  unfold skipEscape? at h
  split at h
  · simp at h
  · next b tail =>
    split at h
    · obtain ⟨⟨code, r⟩, hcode, rfl⟩ := Option.map_eq_some_iff.mp h
      have := hexCode?_length hcode
      simp only [List.length_cons]
      omega
    · obtain ⟨_, -, rfl⟩ := Option.map_eq_some_iff.mp h
      simp

/-- Reads a string to its closing quote, from behind the opening one. -/
def skipString? (s : Bytes) : Option Bytes :=
  match s with
  | [] => none
  | b :: rest =>
      if b = quote then some rest
      else if b < 0x20 then none
      else if b = backslash then
        match _h : skipEscape? rest with
        | none => none
        | some more => skipString? more
      else skipString? rest
termination_by s.length
decreasing_by
  · have := skipEscape?_length ‹_›
    simp only [List.length_cons]
    omega
  · simp

theorem skipString?_length {s rest : Bytes} (h : skipString? s = some rest) :
    rest.length < s.length := by
  fun_induction skipString? s with
  | case1 => simp at h
  | case2 =>
      simp only [Option.some.injEq] at h
      simp [h]
  | case3 => simp at h
  | case4 => simp at h
  | case5 tail more hmore _ _ ih =>
      have := ih h
      have := skipEscape?_length hmore
      simp only [List.length_cons]
      omega
  | case6 b tail _ _ _ ih =>
      have := ih h
      simp only [List.length_cons]
      omega

/-- Reads a string, a number, a truth value or null. -/
def skipScalar? (s : Bytes) : Option Bytes :=
  match s with
  | [] => none
  | b :: rest =>
      if b = quote then skipString? rest
      else if b = ascii 't' then literal? (asciiText "rue") rest
      else if b = ascii 'f' then literal? (asciiText "alse") rest
      else if b = ascii 'n' then literal? (asciiText "ull") rest
      else skipNumber? s

theorem literal?_length {word s rest : Bytes} (h : literal? word s = some rest) :
    rest.length ≤ s.length := by
  unfold literal? at h
  split at h
  · simp only [Option.some.injEq] at h
    simp [← h]
  · simp at h

theorem skipScalar?_length {s rest : Bytes} (h : skipScalar? s = some rest) :
    rest.length < s.length := by
  unfold skipScalar? at h
  split at h
  · simp at h
  · next b tail =>
    repeat' split at h
    · have := skipString?_length h
      simp only [List.length_cons]
      omega
    · have := literal?_length h
      simp only [List.length_cons]
      omega
    · have := literal?_length h
      simp only [List.length_cons]
      omega
    · have := literal?_length h
      simp only [List.length_cons]
      omega
    · exact skipNumber?_length h

/-- A byte that continues a character of more than one byte. -/
def continuation? (b : UInt8) : Option Nat :=
  if 0x80 ≤ b ∧ b ≤ 0xBF then some (b.toNat - 0x80) else none

/-- One character of UTF-8 text, in its shortest form and no surrogate. -/
def character? : Bytes → Option (Char × Bytes)
  | [] => none
  | a :: rest =>
      if a < 0x80 then some (Char.ofNat a.toNat, rest)
      else if a < 0xC2 then none
      else if a < 0xE0 then
        match rest with
        | b :: rest => do
            let b ← continuation? b
            return (Char.ofNat ((a.toNat - 0xC0) * 64 + b), rest)
        | _ => none
      else if a < 0xF0 then
        match rest with
        | b :: c :: rest => do
            let b ← continuation? b
            let c ← continuation? c
            let code := (a.toNat - 0xE0) * 4096 + b * 64 + c
            if code < 0x800 ∨ (0xD800 ≤ code ∧ code < 0xE000) then none
            else return (Char.ofNat code, rest)
        | _ => none
      else if a < 0xF5 then
        match rest with
        | b :: c :: d :: rest => do
            let b ← continuation? b
            let c ← continuation? c
            let d ← continuation? d
            let code := (a.toNat - 0xF0) * 262144 + b * 4096 + c * 64 + d
            if code < 0x10000 ∨ 0x110000 ≤ code then none
            else return (Char.ofNat code, rest)
        | _ => none
      else none

theorem character?_length {s rest : Bytes} {c : Char} (h : character? s = some (c, rest)) :
    rest.length < s.length := by
  unfold character? at h
  repeat' split at h
  all_goals
    simp only [Option.bind_eq_bind, Option.bind_eq_some_iff, Option.pure_def,
      Option.some.injEq, Prod.mk.injEq, reduceCtorEq] at h
  · simp [h.2]
  · obtain ⟨_, -, -, rfl⟩ := h
    simp only [List.length_cons]
    omega
  · obtain ⟨_, -, _, -, h⟩ := h
    split at h
    · simp at h
    · simp only [Option.some.injEq, Prod.mk.injEq] at h
      simp only [List.length_cons, h.2]
      omega
  · obtain ⟨_, -, _, -, _, -, h⟩ := h
    split at h
    · simp at h
    · simp only [Option.some.injEq, Prod.mk.injEq] at h
      simp only [List.length_cons, h.2]
      omega

/-- The character of a code escape, with its partner if it is half of a pair. -/
def codeEscape? (s : Bytes) : Option (Char × Bytes) := do
  let (code, rest) ← hexCode? s
  if code < 0xD800 ∨ 0xE000 ≤ code then return (Char.ofNat code, rest)
  else if 0xDC00 ≤ code then none
  else
    let rest ← byte? backslash rest
    let rest ← byte? (ascii 'u') rest
    let (low, rest) ← hexCode? rest
    if 0xDC00 ≤ low ∧ low < 0xE000 then
      return (Char.ofNat (0x10000 + (code - 0xD800) * 1024 + (low - 0xDC00)), rest)
    else none

/-- The character of an escape, from behind its backslash. -/
def escape? : Bytes → Option (Char × Bytes)
  | [] => none
  | b :: rest =>
      if b = ascii 'u' then codeEscape? rest
      else (shortEscape? b).map fun c => (c, rest)

theorem byte?_length {b : UInt8} {s rest : Bytes} (h : byte? b s = some rest) :
    rest.length < s.length := by
  unfold byte? at h
  split at h
  · simp at h
  · split at h
    · simp only [Option.some.injEq] at h
      simp [h]
    · simp at h

theorem codeEscape?_length {s rest : Bytes} {c : Char} (h : codeEscape? s = some (c, rest)) :
    rest.length < s.length := by
  unfold codeEscape? at h
  simp only [Option.bind_eq_bind, Option.bind_eq_some_iff] at h
  obtain ⟨⟨code, first⟩, hcode, h⟩ := h
  have hfirst := hexCode?_length hcode
  simp only at h
  split at h
  · simp only [Option.pure_def, Option.some.injEq, Prod.mk.injEq] at h
    simp only [← h.2]
    exact hfirst
  · split at h
    · simp at h
    · simp only [Option.bind_eq_some_iff] at h
      obtain ⟨second, hsecond, third, hthird, ⟨low, fourth⟩, hlow, h⟩ := h
      have := byte?_length hsecond
      have := byte?_length hthird
      have := hexCode?_length hlow
      split at h
      · simp only [Option.pure_def, Option.some.injEq, Prod.mk.injEq] at h
        simp only [← h.2]
        omega
      · simp at h

theorem escape?_length {s rest : Bytes} {c : Char} (h : escape? s = some (c, rest)) :
    rest.length < s.length := by
  unfold escape? at h
  split at h
  · simp at h
  · split at h
    · have := codeEscape?_length h
      simp only [List.length_cons]
      omega
    · obtain ⟨_, -, heq⟩ := Option.map_eq_some_iff.mp h
      simp only [Prod.mk.injEq] at heq
      simp [heq.2]

/-- The text of a string, from behind its opening quote. -/
def text? (s : Bytes) : Option (List Char × Bytes) :=
  match s with
  | [] => none
  | b :: rest =>
      if b = quote then some ([], rest)
      else if b < 0x20 then none
      else if b = backslash then
        match _h : escape? rest with
        | none => none
        | some (c, more) => (text? more).map fun (cs, behind) => (c :: cs, behind)
      else
        match _h : character? (b :: rest) with
        | none => none
        | some (c, more) => (text? more).map fun (cs, behind) => (c :: cs, behind)
termination_by s.length
decreasing_by
  · have := escape?_length ‹_›
    simp only [List.length_cons]
    omega
  · exact character?_length ‹_›

theorem text?_length {s rest : Bytes} {cs : List Char} (h : text? s = some (cs, rest)) :
    rest.length < s.length := by
  fun_induction text? s generalizing cs rest with
  | case1 => simp at h
  | case2 =>
      simp only [Option.some.injEq, Prod.mk.injEq] at h
      simp [h.2]
  | case3 => simp at h
  | case4 => simp at h
  | case5 tail c more hmore _ _ ih =>
      obtain ⟨⟨cs', behind⟩, htext, heq⟩ := Option.map_eq_some_iff.mp h
      simp only [Prod.mk.injEq] at heq
      have := ih htext
      have := escape?_length hmore
      simp only [List.length_cons, ← heq.2]
      omega
  | case6 => simp at h
  | case7 b tail _ _ _ c more hmore ih =>
      obtain ⟨⟨cs', behind⟩, htext, heq⟩ := Option.map_eq_some_iff.mp h
      simp only [Prod.mk.injEq] at heq
      have := ih htext
      have := character?_length hmore
      simp only [← heq.2]
      omega

/-- The text of a string, with its quotes. -/
def quoted? (s : Bytes) : Option (List Char × Bytes) := do
  text? (← byte? quote s)

end InvertedFile.Json
