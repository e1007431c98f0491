import InvertedFile.Stream

/-!
# Bytes to read

A string of bytes that an image is read from: given, or kept under a name,
and changed on the way. It is cut first, then parts of it are overwritten and
then something is added at its end.

Reading may be made to fail past a position. Where that position lies behind
the end of the bytes, the end comes first.
-/

namespace InvertedFile

/-- Changes to a string of bytes before it is read. -/
structure Edits where
  /-- Keeps so many bytes. -/
  keep : Option Nat
  /-- Puts bytes in the place of others, at these positions. -/
  patches : List (Nat × Bytes)
  /-- Adds bytes at the end. -/
  tail : Bytes

namespace Edits

/-- Bytes with others in the place of those from a position on. -/
def patch (bytes : Bytes) (start : Nat) (new : Bytes) : Bytes :=
  bytes.take start ++ new.take (bytes.length - start) ++ bytes.drop (start + new.length)

/-- The changed bytes. -/
def apply (e : Edits) (bytes : Bytes) : Bytes :=
  let kept := match e.keep with
    | none => bytes
    | some n => bytes.take n
  e.patches.foldl (fun bytes p => patch bytes p.1 p.2) kept ++ e.tail

end Edits

/-- Where a string of bytes comes from. -/
inductive Origin where
  | given (bytes : Bytes)
  | blob (name : String)

/-- A string of bytes to read, and the position past which reading fails, if it does. -/
structure Reading where
  origin : Origin
  edits : Edits
  failAt : Option Nat

/-- The source of bytes that are read up to a position. -/
def Source.upTo (bytes : Bytes) (failAt : Option Nat) : Source :=
  match failAt with
  | none => { bytes, ending := .endOfInput }
  | some n =>
      if n ≤ bytes.length then { bytes := bytes.take n, ending := .failure }
      else { bytes, ending := .endOfInput }

end InvertedFile
