import InvertedFile.Buffer
import InvertedFile.Proofs.Reads

/-!
# Arrays read through a buffer

An array of words is read in runs, and every run goes through the same buffer,
which is no longer than a run. A pass of the loop reads as many words as the
buffer holds, or as are missing, over the front of the buffer, and appends
that front to what has been read before. What an earlier pass has left behind
the front stays in the buffer and must not be appended.

The loop is counted in passes. However many words are asked for, it is over
after one pass more than the input has full runs: either all words are there
by then, or a pass has run into the end of the input. So a length that lies
costs no more passes than the input pays for, and none of them appends a word
that was not read.

## Main results

* `pass_ok`, `pass_error` — what one pass of the loop does.
* `passes_ok`, `passes_error` — what the loop comes to, by induction on the passes.
* `runs_read_array` — an array reads back from its bytes bit for bit, bytes that are
  read are the bytes of the array, and the loop through a buffer does the same.
-/

namespace InvertedFile.Source

variable {t : ElementType}

/-! ## The loop -/

/-- Where the loop stands: the words it has read and its buffer. -/
structure Refill (t : ElementType) where
  words : Array (Word t)
  buffer : Array (Word t)

namespace Refill

/-- The words of the next pass, of `length` words in all. -/
def next (length : Nat) (r : Refill t) : Nat :=
  min (length - r.words.size) runLength

/-- Where the loop stands with more words read, and something in its buffer. -/
def add (r : Refill t) (ws : List (Word t)) (buffer : Array (Word t)) : Refill t where
  words := r.words ++ ws.toArray
  buffer := buffer

theorem size_add (r : Refill t) (ws : List (Word t)) (buffer : Array (Word t)) :
    (r.add ws buffer).words.size = r.words.size + ws.length :=
  Array.size_append

theorem add_add (r : Refill t) (ws more : List (Word t)) (buffer last : Array (Word t)) :
    (r.add ws buffer).add more last = r.add (ws ++ more) last := by
  have hjoin : ws.toArray ++ more.toArray = (ws ++ more).toArray := List.append_toArray ..
  show ({ words := r.words ++ ws.toArray ++ more.toArray, buffer := last } : Refill t) = _
  rw [Array.append_assoc, hjoin]
  rfl

theorem add_nil (r : Refill t) : r.add [] r.buffer = r := by
  show ({ words := r.words ++ #[], buffer := r.buffer } : Refill t) = r
  rw [Array.append_empty]

theorem next_le_buffer {length : Nat} {r : Refill t}
    (h : min length runLength ≤ r.buffer.size) : r.next length ≤ r.buffer.size := by
  unfold next
  omega

/-- The words that are missing are those of the next pass and those of the passes behind it. -/
theorem missing_eq (length : Nat) (r : Refill t) :
    length - r.words.size = r.next length + (length - (r.words.size + r.next length)) := by
  unfold next
  omega

end Refill

/-- Reads the words of one pass over the front of the buffer, and appends the front. -/
def pass (length : Nat) (r : Refill t) : Action Source (Refill t) := do
  ensure (r.next length ≤ r.buffer.size) (.fault .outsideBuffer)
  let front ← run t (r.next length) #[]
  let buffer := Buffer.overwrite r.buffer 0 front.toList
  let front ← Action.ofExcept (Buffer.slice buffer 0 (r.next length))
  return r.add front.toList buffer

/-- Passes until there are `length` words, but no more than a number of passes. -/
def passes (length : Nat) : Nat → Refill t → Action Source (Refill t)
  | 0, r => pure r
  | k + 1, r =>
      if r.words.size < length then pass length r >>= passes length k else pure r

/-- Reads an array of `length` words through a buffer, in no more than a number of passes. -/
def wordsThrough (buffer : Array (Word t)) (length k : Nat) : Action Source (Array (Word t)) := do
  return (← passes length k { words := #[], buffer }).words

/-! ## One pass -/

theorem extract_overwrite {α : Type} {a : Array α} {xs : List α} (h : xs.length ≤ a.size) :
    (Buffer.overwrite a 0 xs).extract 0 xs.length = xs.toArray := by
  apply Array.ext_getElem?
  intro k
  have hright : xs.toArray[k]? = xs[k]? := List.getElem?_toArray
  rw [hright, Array.getElem?_extract, Buffer.size_overwrite, Nat.zero_add, Nat.sub_zero,
    Nat.min_eq_left h]
  by_cases hk : k < xs.length
  · rw [if_pos hk, Buffer.getElem?_overwrite, if_pos (by omega), Nat.sub_zero]
  · rw [if_neg hk, List.getElem?_eq_none (Nat.le_of_not_lt hk)]

section Pass

variable {length : Nat} {r : Refill t} {s : Source} (hbuffer : r.next length ≤ r.buffer.size)
include hbuffer

/-- A pass appends the words that come next, and nothing that was in the buffer before. -/
theorem pass_ok (h : r.next length * t.size ≤ s.bytes.length) :
    ∃ buffer, buffer.size = r.buffer.size ∧
      pass length r s = .ok (r.add (Word.decodeAll t (r.next length) s.bytes) buffer)
        (s.dropped (r.next length * t.size)) := by
  let front := Word.decodeAll t (r.next length) s.bytes
  have hfront : front.length = r.next length := Word.length_decodeAll _ _
  refine ⟨Buffer.overwrite r.buffer 0 front, Buffer.size_overwrite _ _ _, ?_⟩
  have hrun : run t (r.next length) #[] s =
      .ok front.toArray (s.dropped (r.next length * t.size)) := by
    rw [run_ok #[] h, Array.empty_append]
  have hslice : Buffer.slice (Buffer.overwrite r.buffer 0 front) 0 (r.next length) =
      .ok front.toArray := by
    rw [Buffer.slice_eq_ok (by rwa [Nat.zero_add, Buffer.size_overwrite]), Nat.zero_add, ← hfront,
      extract_overwrite (hfront ▸ hbuffer)]
  rw [pass, Action.bind_ok (Action.ensure_ok hbuffer s), Action.bind_ok hrun]
  simp only [hslice]
  rfl

/-- A pass whose words are not there runs into the ending. -/
theorem pass_error (h : s.bytes.length < r.next length * t.size) :
    pass length r s = .error s.ending.error { s with bytes := [] } := by
  rw [pass, Action.bind_ok (Action.ensure_ok hbuffer s), Action.bind_error (run_error #[] h)]

end Pass

/-! ## The whole loop -/

section Loop

variable {length k : Nat} {r : Refill t} {s : Source}

/-- Once all words are there the loop is over. -/
theorem passes_of_size_eq (h : r.words.size = length) (k : Nat) :
    passes length k r = pure r := by
  cases k with
  | zero => rfl
  | succ k => exact if_neg (Nat.not_lt.mpr (Nat.le_of_eq h.symm))

theorem passes_succ (h : r.words.size < length) (k : Nat) :
    passes length (k + 1) r = (pass length r >>= passes length k) :=
  if_pos h

/-- A pass that leaves words to be read has read a full run, so that fewer passes are enough for
what it leaves of the input. -/
theorem passes_left (hmissing : r.words.size + r.next length < length)
    (hpass : r.next length * t.size ≤ s.bytes.length)
    (hk : s.bytes.length / (runLength * t.size) < k + 1) :
    (s.dropped (r.next length * t.size)).bytes.length / (runLength * t.size) < k := by
  have hnext : r.next length = runLength := by
    unfold Refill.next at hmissing ⊢
    omega
  have hpos : 0 < runLength * t.size := Nat.mul_pos (by decide) t.size_pos
  rw [hnext] at hpass ⊢
  rw [length_dropped]
  rw [Nat.div_eq_sub_div hpos hpass] at hk
  omega

/-- The loop reads the words that are missing when their bytes are there. -/
theorem passes_ok (hbuffer : min length runLength ≤ r.buffer.size) (hle : r.words.size ≤ length)
    (hk : s.bytes.length / (runLength * t.size) < k)
    (h : (length - r.words.size) * t.size ≤ s.bytes.length) :
    ∃ buffer, passes length k r s =
      .ok (r.add (Word.decodeAll t (length - r.words.size) s.bytes) buffer)
        (s.dropped ((length - r.words.size) * t.size)) := by
  induction k generalizing r s with
  | zero => exact absurd hk (Nat.not_lt_zero _)
  | succ k ih =>
      by_cases hall : r.words.size = length
      · refine ⟨r.buffer, ?_⟩
        rw [passes_of_size_eq hall, hall, Nat.sub_self, Nat.zero_mul, dropped_zero, Word.decodeAll,
          Refill.add_nil]
        rfl
      rw [Refill.missing_eq, Nat.add_mul] at h
      obtain ⟨buffer, hsize, hstep⟩ := pass_ok (s := s) (Refill.next_le_buffer hbuffer) (by omega)
      let r' := r.add (Word.decodeAll t (r.next length) s.bytes) buffer
      have hwords : r'.words.size = r.words.size + r.next length := by
        rw [Refill.size_add, Word.length_decodeAll]
      -- the passes behind this one, if there are any
      have hrest : ∃ last, passes length k r' (s.dropped (r.next length * t.size)) =
          .ok (r'.add (Word.decodeAll t (length - r'.words.size)
              (s.dropped (r.next length * t.size)).bytes) last)
            ((s.dropped (r.next length * t.size)).dropped
              ((length - r'.words.size) * t.size)) := by
        by_cases hlast : r'.words.size = length
        · refine ⟨r'.buffer, ?_⟩
          rw [passes_of_size_eq hlast, hlast, Nat.sub_self, Nat.zero_mul, dropped_zero,
            Word.decodeAll, Refill.add_nil]
          rfl
        · have hnext := Refill.missing_eq length r
          refine ih (hsize ▸ hbuffer) (by omega) (passes_left (by omega) (by omega) hk) ?_
          rw [hwords, length_dropped]
          omega
      obtain ⟨last, hrest⟩ := hrest
      refine ⟨last, ?_⟩
      rw [passes_succ (by omega), Action.bind_ok hstep, hrest, Refill.add_add, hwords,
        bytes_dropped, dropped_dropped, ← Word.decodeAll_add, ← Nat.add_mul, ← Refill.missing_eq]

/-- The loop runs into the ending when they are not. -/
theorem passes_error (hbuffer : min length runLength ≤ r.buffer.size)
    (hk : s.bytes.length / (runLength * t.size) < k)
    (h : s.bytes.length < (length - r.words.size) * t.size) :
    passes length k r s = .error s.ending.error { s with bytes := [] } := by
  induction k generalizing r s with
  | zero => exact absurd hk (Nat.not_lt_zero _)
  | succ k ih =>
      have hmissing : 0 < length - r.words.size :=
        Nat.pos_of_mul_pos_right (Nat.lt_of_le_of_lt (Nat.zero_le _) h)
      rw [passes_succ (Nat.lt_of_sub_pos hmissing)]
      by_cases hpass : r.next length * t.size ≤ s.bytes.length
      · obtain ⟨buffer, hsize, hstep⟩ := pass_ok (Refill.next_le_buffer hbuffer) hpass
        have hwords : (r.add (Word.decodeAll t (r.next length) s.bytes) buffer).words.size =
            r.words.size + r.next length := by
          rw [Refill.size_add, Word.length_decodeAll]
        rw [Refill.missing_eq, Nat.add_mul] at h
        have hshort : (s.dropped (r.next length * t.size)).bytes.length <
            (length - (r.words.size + r.next length)) * t.size := by
          rw [length_dropped]
          omega
        have hleft : 0 < length - (r.words.size + r.next length) :=
          Nat.pos_of_mul_pos_right (Nat.lt_of_le_of_lt (Nat.zero_le _) hshort)
        rw [Action.bind_ok hstep, ih (hsize ▸ hbuffer)
          (passes_left (Nat.lt_of_sub_pos hleft) hpass hk) (by rwa [hwords]), ending_dropped]
      · rw [Action.bind_error (pass_error (Refill.next_le_buffer hbuffer) (Nat.not_le.mp hpass))]

end Loop

/-- Reading through a buffer, whatever the buffer holds, is reading the array, if it may take one
pass more than the input has full runs. -/
theorem wordsThrough_eq {length k : Nat} {buffer : Array (Word t)} {s : Source}
    (hbuffer : min length runLength ≤ buffer.size)
    (hk : s.bytes.length / (runLength * t.size) < k) :
    wordsThrough buffer length k s = words t length s := by
  let start : Refill t := { words := #[], buffer }
  by_cases h : length * t.size ≤ s.bytes.length
  · obtain ⟨last, hloop⟩ := passes_ok (r := start) hbuffer (Nat.zero_le _) hk h
    rw [wordsThrough, Action.bind_ok hloop, words_ok h]
    show EStateM.Result.ok (#[] ++ (Word.decodeAll t length s.bytes).toArray) _ = _
    rw [Array.empty_append]
    rfl
  · have hshort := Nat.not_le.mp h
    rw [wordsThrough, Action.bind_error (passes_error (r := start) hbuffer hk hshort),
      words_error hshort]

/-- **Reading in runs is reading the array.** An array reads back from its bytes bit for bit, and
what stands behind it is left. Any bytes that are enough are read, and are the bytes of the words
they are read as. Bytes that are not enough are refused as cut short, and all of them have been
read by then. In any case the loop through a buffer, whatever is in the buffer, comes to the same
after one pass more than the input has full runs, and further passes change nothing. -/
theorem runs_read_array (t : ElementType) :
    (∀ (ws : Array (Word t)) (tail : Bytes) (ending : Ending),
      words t ws.size { bytes := Word.encodeAll ws ++ tail, ending } =
        .ok ws { bytes := tail, ending }) ∧
    (∀ (length : Nat) (s : Source), length * t.size ≤ s.bytes.length →
      ∃ ws : Array (Word t), ws.size = length ∧
        words t length s = .ok ws { s with bytes := s.bytes.drop (length * t.size) } ∧
        ws.toList = Word.decodeAll t length s.bytes ∧
        Word.encodeAll ws = s.bytes.take (length * t.size)) ∧
    (∀ (length : Nat) (bytes : Bytes), bytes.length < length * t.size →
      words t length { bytes, ending := .endOfInput } =
        .error (.malformed .truncated) { bytes := [], ending := .endOfInput }) ∧
    ∀ (length : Nat) (buffer : Array (Word t)) (s : Source) (k : Nat),
      min length runLength ≤ buffer.size → s.bytes.length / (runLength * t.size) < k →
        wordsThrough buffer length k s = words t length s := by
  refine ⟨fun ws tail ending => reads_words ws tail ending, ?decodes,
    fun length bytes h => words_error h, fun _ _ _ _ => wordsThrough_eq⟩
  case decodes =>
    intro length s h
    refine ⟨(Word.decodeAll t length s.bytes).toArray, ?_, words_ok h, rfl,
      Word.encodeAll_decodeAll h⟩
    rw [List.size_toArray, Word.length_decodeAll]

/-- The bits of a float that is not a number and those of the negative zero read back, from a buffer
that held something else; three bytes are no float. -/
theorem runs_read_floats :
    words .f32 2 { bytes := [0x01, 0x00, 0xC0, 0x7F, 0x00, 0x00, 0x00, 0x80, 0xFF]
                   ending := .endOfInput } =
      .ok #[0x7FC00001#32, 0x80000000#32] { bytes := [0xFF], ending := .endOfInput } ∧
    wordsThrough (#[5#32, 6#32, 7#32] : Array (Word .f32)) 2 1
        { bytes := [0x01, 0x00, 0xC0, 0x7F, 0x00, 0x00, 0x00, 0x80, 0xFF]
          ending := .endOfInput } =
      .ok #[0x7FC00001#32, 0x80000000#32] { bytes := [0xFF], ending := .endOfInput } ∧
    words .f32 1 { bytes := [1, 2, 3], ending := .endOfInput } =
      .error (.malformed .truncated) { bytes := [], ending := .endOfInput } := by
  obtain ⟨hreads, -, hshort, hthrough⟩ := runs_read_array .f32
  have hread := hreads (#[0x7FC00001#32, 0x80000000#32] : Array (Word .f32)) [0xFF] .endOfInput
  refine ⟨hread, ?_, hshort 1 [1, 2, 3] (by decide)⟩
  rw [hthrough 2 #[5#32, 6#32, 7#32] _ 1 (by decide) (by decide)]
  exact hread

end InvertedFile.Source
