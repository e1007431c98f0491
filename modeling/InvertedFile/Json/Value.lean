import InvertedFile.Json.Scan

/-!
# The values of JSON text

The extent of a value, whatever it is and however deep it nests: `skip?` walks
through it with the list of the arrays and objects it is inside of. Nothing is
built on the way, and nothing but the shape of the text is looked at.

A text that is an object or an array is taken apart one level deep, by
`object?` and `array?`, into the values in it. A value is a `Span` of the text;
what the span holds is looked at only when somebody asks for it.

## Main results

* `skip?_length`, `member?_length` — the walk only goes forward.
* `Span.text_append` — a span holds what stands between its ends.
-/

namespace InvertedFile.Json

/-- What a value stands in. -/
inductive Enclosure where
  | array
  | object
  deriving DecidableEq, Repr

/-- Where in a text the walk is. -/
inductive Place where
  /-- A value comes next. -/
  | value
  /-- A value has just ended. -/
  | behind
  deriving DecidableEq, Repr

/-- Reads the key of a value that is not looked at, and its colon. -/
def skipKey? (s : Bytes) : Option Bytes := do
  let rest ← byte? quote (skipBlanks s)
  let rest ← skipString? rest
  byte? colon (skipBlanks rest)

theorem skipKey?_length {s rest : Bytes} (h : skipKey? s = some rest) :
    rest.length < s.length := by
  simp only [skipKey?, Option.bind_eq_bind, Option.bind_eq_some_iff] at h
  obtain ⟨first, hquote, second, hstring, hcolon⟩ := h
  have := skipBlanks_length s
  have := byte?_length hquote
  have := skipString?_length hstring
  have := skipBlanks_length second
  have := byte?_length hcolon
  omega

/-- Walks to the end of the value that the walk began with. -/
def skip? (place : Place) (inside : List Enclosure) (s : Bytes) : Option Bytes :=
  match place with
  | .value =>
      match _hs : skipBlanks s with
      | [] => none
      | b :: rest =>
          if b = openBracket then
            match _h : byte? closeBracket (skipBlanks rest) with
            | some more => skip? .behind inside more
            | none => skip? .value (.array :: inside) rest
          else if b = openBrace then
            match _h : byte? closeBrace (skipBlanks rest) with
            | some more => skip? .behind inside more
            | none =>
                match _hkey : skipKey? rest with
                | some more => skip? .value (.object :: inside) more
                | none => none
          else
            match _h : skipScalar? (b :: rest) with
            | some more => skip? .behind inside more
            | none => none
  | .behind =>
      match inside with
      | [] => some s
      | .array :: outer =>
          match _hs : skipBlanks s with
          | [] => none
          | b :: rest =>
              if b = closeBracket then skip? .behind outer rest
              else if b = comma then skip? .value (.array :: outer) rest
              else none
      | .object :: outer =>
          match _hs : skipBlanks s with
          | [] => none
          | b :: rest =>
              if b = closeBrace then skip? .behind outer rest
              else if b = comma then
                match _hkey : skipKey? rest with
                | some more => skip? .value (.object :: outer) more
                | none => none
              else none
termination_by s.length
decreasing_by
  all_goals
    have hblanks := skipBlanks_length s
    rw [_hs, List.length_cons] at hblanks
    try have := skipKey?_length _hkey
    try have := byte?_length _h
    try have := skipScalar?_length _h
    try have := skipBlanks_length rest
    try simp only [List.length_cons] at *
    omega

theorem skip?_length {place : Place} {inside : List Enclosure} {s rest : Bytes}
    (h : skip? place inside s = some rest) : rest.length ≤ s.length := by
  fun_induction skip? place inside s <;>
    grind [skipBlanks_length, → skipKey?_length, → byte?_length, → skipScalar?_length]

/-- A part of a text, given by all that follows its start and all that follows its end. -/
structure Span where
  start : Bytes
  behind : Bytes
  deriving DecidableEq, Repr

/-- The bytes of a span. -/
def Span.text (p : Span) : Bytes :=
  p.start.take (p.start.length - p.behind.length)

theorem Span.text_append (bytes behind : Bytes) :
    Span.text { start := bytes ++ behind, behind } = bytes := by
  simp [Span.text]

/-- A value, without the blanks before it. -/
def value? (s : Bytes) : Option (Span × Bytes) := do
  let start := skipBlanks s
  let behind ← skip? .value [] start
  return ({ start, behind }, behind)

theorem value?_length {s rest : Bytes} {value : Span} (h : value? s = some (value, rest)) :
    rest.length ≤ s.length := by
  simp only [value?, Option.bind_eq_bind, Option.bind_eq_some_iff] at h
  obtain ⟨_, hskip, heq⟩ := h
  simp only [Option.pure_def, Option.some.injEq, Prod.mk.injEq] at heq
  have := skip?_length hskip
  have := skipBlanks_length s
  simp only [← heq.2]
  omega

/-- The key and the value of one member of an object. -/
def member? (s : Bytes) : Option ((List Char × Span) × Bytes) := do
  let (key, rest) ← quoted? (skipBlanks s)
  let rest ← byte? colon (skipBlanks rest)
  let (value, rest) ← value? rest
  return ((key, value), rest)

theorem member?_length {s rest : Bytes} {m : List Char × Span} (h : member? s = some (m, rest)) :
    rest.length ≤ s.length := by
  simp only [member?, quoted?, Option.bind_eq_bind, Option.bind_eq_some_iff] at h
  obtain ⟨⟨key, first⟩, ⟨_, hquote, htext⟩, second, hcolon, ⟨value, third⟩, hvalue, heq⟩ := h
  simp only [Option.pure_def, Option.some.injEq, Prod.mk.injEq] at heq
  have := skipBlanks_length s
  have := byte?_length hquote
  have := text?_length htext
  have := skipBlanks_length first
  have := byte?_length hcolon
  have := value?_length hvalue
  simp only at *
  simp only [← heq.2]
  omega

/-- Items with commas between them, up to the byte that closes them. -/
def items? {α : Type} (close : UInt8) (item? : Bytes → Option (α × Bytes))
    (hitem : ∀ s a rest, item? s = some (a, rest) → rest.length ≤ s.length) (s : Bytes) :
    Option (List α × Bytes) :=
  match _h : item? s with
  | none => none
  | some (a, behind) =>
      match _hs : skipBlanks behind with
      | [] => none
      | b :: rest =>
          if b = close then some ([a], rest)
          else if b = comma then
            (items? close item? hitem rest).map fun (as, behind) => (a :: as, behind)
          else none
termination_by s.length
decreasing_by
  have := hitem _ _ _ _h
  have hblanks := skipBlanks_length behind
  rw [_hs, List.length_cons] at hblanks
  omega

/-- The items between two bytes, in a text that holds nothing else. -/
def enclosed? {α : Type} (opening close : UInt8) (item? : Bytes → Option (α × Bytes))
    (hitem : ∀ s a rest, item? s = some (a, rest) → rest.length ≤ s.length) (s : Bytes) :
    Option (List α) := do
  let inner ← byte? opening (skipBlanks s)
  let (as, rest) ←
    match byte? close (skipBlanks inner) with
    | some rest => some ([], rest)
    | none => items? close item? hitem inner
  if skipBlanks rest = [] then return as else none

/-- The members of a text that is an object, in order. -/
def object? (s : Bytes) : Option (List (List Char × Span)) :=
  enclosed? openBrace closeBrace member? (fun _ _ _ => member?_length) s

/-- The elements of a text that is an array, in order. -/
def array? (s : Bytes) : Option (List Span) :=
  enclosed? openBracket closeBracket value? (fun _ _ _ => value?_length) s

end InvertedFile.Json
