import Mathlib.Algebra.Ring.Nat
import InvertedFile.Proofs.Budget
import InvertedFile.Stream

/-!
# Arrays on streams

An array of words is read in runs, so that a length that lies does not make
room for what is not there. The runs do not show: reading an array is
splitting the bytes into words, whatever the length, and it succeeds exactly
when the bytes are there. With `Word.encodeAll` on the other side, an array
reads back bit for bit and leaves what stands behind it.

Writing is simpler. What a sink has taken when fields are written without a
failure is what it had, and then the fields.

## Main results

* `Source.words_ok`, `Source.words_error` — an array is read exactly when its
  bytes are there.
* `Word.decodeAll_encodeAll`, `Word.encodeAll_decodeAll` — splitting and joining
  are inverse to each other.
* `Sink.putAll_ok` — what has been written.
-/

namespace InvertedFile

/-! ## Words and bytes -/

namespace LittleEndian

/-- A number reads back reduced to its field's width. -/
theorem decode_encode (width n : Nat) : decode (encode width n) = n % 256 ^ width := by
  induction width generalizing n with
  | zero => simp [encode, decode, Nat.mod_one]
  | succ width ih =>
      have hpow : 256 ^ (width + 1) = 256 * 256 ^ width := by rw [Nat.pow_succ, Nat.mul_comm]
      simp only [encode, decode, ih, UInt8.toNat_ofNat']
      rw [hpow, Nat.mod_mul]

theorem decode_encode_of_lt {width n : Nat} (h : n < 256 ^ width) :
    decode (encode width n) = n := by
  rw [decode_encode, Nat.mod_eq_of_lt h]

theorem decode_lt (bytes : Bytes) : decode bytes < 256 ^ bytes.length := by
  induction bytes with
  | nil => simp [decode]
  | cons b rest ih =>
      have hb : b.toNat < 256 := b.toNat_lt
      simp only [decode, List.length_cons, Nat.pow_succ]
      omega

end LittleEndian

namespace Word

variable {t : ElementType}

/-- A word reads back bit for bit. -/
theorem decode_encode (w : Word t) : decode t w.encode = w := by
  have hw : w.toNat < 256 ^ t.size := by
    have h := w.isLt
    rwa [Nat.pow_mul] at h
  simp [decode, encode, LittleEndian.decode_encode_of_lt hw]

/-- The first `n` words of a string of bytes. -/
def decodeAll (t : ElementType) : Nat → Bytes → List (Word t)
  | 0, _ => []
  | n + 1, bytes => decode t (bytes.take t.size) :: decodeAll t n (bytes.drop t.size)

@[simp]
theorem length_decodeAll (n : Nat) (bytes : Bytes) : (decodeAll t n bytes).length = n := by
  induction n generalizing bytes with
  | zero => rfl
  | succ n ih => rw [decodeAll, List.length_cons, ih]

theorem toList_decodeOnto (n : Nat) (bytes : Bytes) (acc : Array (Word t)) :
    (decodeOnto t n bytes acc).toList = acc.toList ++ decodeAll t n bytes := by
  induction n generalizing bytes acc with
  | zero => exact (List.append_nil _).symm
  | succ n ih => rw [decodeOnto, ih, Array.toList_push, decodeAll, List.append_assoc,
      List.singleton_append]

theorem decodeAll_add (m n : Nat) (bytes : Bytes) :
    decodeAll t (m + n) bytes = decodeAll t m bytes ++ decodeAll t n (bytes.drop (m * t.size)) := by
  induction m generalizing bytes with
  | zero => rw [Nat.zero_add, Nat.zero_mul, List.drop_zero, decodeAll, List.nil_append]
  | succ m ih =>
      have hsucc : m + 1 + n = (m + n) + 1 := by omega
      rw [hsucc, decodeAll, decodeAll, ih, List.drop_drop, Nat.succ_mul, Nat.add_comm (m * t.size),
        List.cons_append]

/-- Only the bytes of the words matter. -/
theorem decodeAll_take (n : Nat) (bytes : Bytes) :
    decodeAll t n (bytes.take (n * t.size)) = decodeAll t n bytes := by
  induction n generalizing bytes with
  | zero => rfl
  | succ n ih =>
      have hsucc : (n + 1) * t.size = t.size + n * t.size := by rw [Nat.succ_mul, Nat.add_comm]
      rw [decodeAll, decodeAll, List.take_take, List.drop_take, hsucc,
        Nat.min_eq_left (Nat.le_add_right _ _), Nat.add_sub_cancel_left, ih]

theorem length_encodeAll (ws : Array (Word t)) : (encodeAll ws).length = ws.size * t.size := by
  have hlist : ∀ xs : List (Word t), (xs.flatMap encode).length = xs.length * t.size := by
    intro xs
    induction xs with
    | nil => exact (Nat.zero_mul _).symm
    | cons w rest ih =>
        rw [List.flatMap_cons, List.length_append, ih, length_encode, List.length_cons,
          Nat.succ_mul, Nat.add_comm]
  rw [encodeAll, hlist, Array.length_toList]

/-- An array of words reads back bit for bit, whatever stands behind it. -/
theorem decodeAll_encodeAll (ws : Array (Word t)) (tail : Bytes) :
    decodeAll t ws.size (encodeAll ws ++ tail) = ws.toList := by
  have hlist : ∀ xs : List (Word t),
      decodeAll t xs.length (xs.flatMap encode ++ tail) = xs := by
    intro xs
    induction xs with
    | nil => rfl
    | cons w rest ih =>
        have hlength := length_encode w
        rw [List.flatMap_cons, List.length_cons, decodeAll, List.append_assoc,
          List.take_left' hlength, List.drop_left' hlength, decode_encode, ih]
  rw [encodeAll, ← Array.length_toList]
  exact hlist ws.toList

theorem encode_decode {bytes : Bytes} (h : bytes.length = t.size) :
    (decode t bytes).encode = bytes := by
  have hlt : LittleEndian.decode bytes < 2 ^ (8 * t.size) := by
    have hlt := LittleEndian.decode_lt bytes
    rw [h] at hlt
    rwa [Nat.pow_mul]
  rw [encode, decode, BitVec.toNat_ofNat, Nat.mod_eq_of_lt hlt, ← h, LittleEndian.encode_decode]

/-- Bytes that are split into words are the bytes of these words. -/
theorem encodeAll_decodeAll {n : Nat} {bytes : Bytes} (h : n * t.size ≤ bytes.length) :
    encodeAll (decodeAll t n bytes).toArray = bytes.take (n * t.size) := by
  rw [encodeAll, List.toList_toArray]
  induction n generalizing bytes with
  | zero => rw [Nat.zero_mul, List.take_zero, decodeAll, List.flatMap_nil]
  | succ n ih =>
      rw [Nat.succ_mul] at h
      have hfirst : (bytes.take t.size).length = t.size := by
        rw [List.length_take]
        omega
      have hrest : n * t.size ≤ (bytes.drop t.size).length := by
        rw [List.length_drop]
        omega
      rw [decodeAll, List.flatMap_cons, encode_decode hfirst, ih hrest, Nat.succ_mul, Nat.add_comm,
        List.take_add]

end Word

/-! ## Reading -/

namespace Source

variable {t : ElementType}

/-- A source that has been read up to a position. -/
def dropped (s : Source) (n : Nat) : Source :=
  { s with bytes := s.bytes.drop n }

theorem bytes_dropped (s : Source) (n : Nat) : (s.dropped n).bytes = s.bytes.drop n := rfl

theorem ending_dropped (s : Source) (n : Nat) : (s.dropped n).ending = s.ending := rfl

theorem dropped_dropped (s : Source) (m n : Nat) : (s.dropped m).dropped n = s.dropped (m + n) := by
  rw [dropped, dropped, dropped, List.drop_drop]

theorem dropped_zero (s : Source) : s.dropped 0 = s := rfl

theorem length_dropped (s : Source) (n : Nat) : (s.dropped n).bytes.length = s.bytes.length - n :=
  List.length_drop

theorem run_ok {n : Nat} {s : Source} (acc : Array (Word t))
    (h : n * t.size ≤ s.bytes.length) :
    run t n acc s = .ok (acc ++ (Word.decodeAll t n s.bytes).toArray) (s.dropped (n * t.size)) := by
  have hwords : Word.decodeOnto t n (s.bytes.take (n * t.size)) acc =
      acc ++ (Word.decodeAll t n s.bytes).toArray := by
    apply Array.toList_inj.mp
    rw [Word.toList_decodeOnto, Word.decodeAll_take, Array.toList_append]
  rw [run, Action.bind_ok (take_eq_ok h), hwords]
  rfl

theorem run_error {n : Nat} {s : Source} (acc : Array (Word t))
    (h : s.bytes.length < n * t.size) :
    run t n acc s = .error s.ending.error { s with bytes := [] } := by
  rw [run, Action.bind_error (take_eq_error h)]

theorem runs_ok {k : Nat} {s : Source} (acc : Array (Word t))
    (h : k * runLength * t.size ≤ s.bytes.length) :
    runs t k acc s = .ok (acc ++ (Word.decodeAll t (k * runLength) s.bytes).toArray)
      (s.dropped (k * runLength * t.size)) := by
  induction k generalizing s acc with
  | zero =>
      rw [Nat.zero_mul, Nat.zero_mul, dropped_zero, Word.decodeAll, Array.append_empty]
      rfl
  | succ k ih =>
      have hsplit : (k + 1) * runLength = runLength + k * runLength := by
        rw [Nat.succ_mul, Nat.add_comm]
      rw [hsplit, Nat.add_mul] at h
      have hrest : k * runLength * t.size ≤ (s.dropped (runLength * t.size)).bytes.length := by
        rw [length_dropped]
        omega
      rw [runs, Action.bind_ok (run_ok acc (by omega)), ih _ hrest, dropped_dropped, hsplit,
        Word.decodeAll_add, Nat.add_mul, Array.append_assoc, ← List.append_toArray, bytes_dropped]

theorem runs_error {k : Nat} {s : Source} (acc : Array (Word t))
    (h : s.bytes.length < k * runLength * t.size) :
    runs t k acc s = .error s.ending.error { s with bytes := [] } := by
  induction k generalizing s acc with
  | zero =>
      rw [Nat.zero_mul, Nat.zero_mul] at h
      exact absurd h (Nat.not_lt_zero _)
  | succ k ih =>
      rw [Nat.succ_mul, Nat.add_mul] at h
      by_cases hfirst : s.bytes.length < runLength * t.size
      · rw [runs, Action.bind_error (run_error acc hfirst)]
      · have hrest : (s.dropped (runLength * t.size)).bytes.length < k * runLength * t.size := by
          rw [length_dropped]
          omega
        rw [runs, Action.bind_ok (run_ok acc (Nat.le_of_not_lt hfirst)), ih _ hrest, ending_dropped]

/-- An array is read when its bytes are there. -/
theorem words_ok {n : Nat} {s : Source} (h : n * t.size ≤ s.bytes.length) :
    words t n s = .ok (Word.decodeAll t n s.bytes).toArray (s.dropped (n * t.size)) := by
  have hsplit : n = n / runLength * runLength + n % runLength := by
    rw [Nat.mul_comm]
    exact (Nat.div_add_mod n runLength).symm
  have hbytes : n * t.size = n / runLength * runLength * t.size + n % runLength * t.size := by
    rw [← Nat.add_mul, ← hsplit]
  have hruns : n / runLength * runLength * t.size ≤ s.bytes.length := by omega
  have hrest : n % runLength * t.size ≤
      (s.dropped (n / runLength * runLength * t.size)).bytes.length := by
    rw [length_dropped]
    omega
  rw [words, Action.bind_ok (runs_ok #[] hruns), run_ok _ hrest, dropped_dropped, ← hbytes,
    Array.empty_append, List.append_toArray, bytes_dropped, ← Word.decodeAll_add, ← hsplit]

/-- An array is not read when its bytes are not there. -/
theorem words_error {n : Nat} {s : Source} (h : s.bytes.length < n * t.size) :
    words t n s = .error s.ending.error { s with bytes := [] } := by
  have hsplit : n / runLength * runLength + n % runLength = n := by
    rw [Nat.mul_comm]
    exact Nat.div_add_mod n runLength
  have hbytes : n * t.size = n / runLength * runLength * t.size + n % runLength * t.size := by
    rw [← Nat.add_mul, hsplit]
  by_cases hruns : s.bytes.length < n / runLength * runLength * t.size
  · rw [words, Action.bind_error (runs_error #[] hruns)]
  · have hrest : (s.dropped (n / runLength * runLength * t.size)).bytes.length <
        n % runLength * t.size := by
      rw [length_dropped]
      omega
    rw [words, Action.bind_ok (runs_ok #[] (Nat.le_of_not_lt hruns)), run_error _ hrest,
      ending_dropped]

end Source

/-! ## Writing -/

namespace Sink

/-- Fields that are written without a failure stand behind what was written before. -/
theorem putAll_ok {fields : List Bytes} {s s' : Sink} {u : Unit}
    (h : putAll fields s = .ok u s') : s'.written = s.written ++ fields.flatten := by
  induction fields generalizing s with
  | nil =>
      cases h
      exact (List.append_nil _).symm
  | cons field rest ih =>
      obtain ⟨⟨⟩, s₁, hput, hrest⟩ := Action.bind_eq_ok.mp h
      have hfirst : s₁.written = s.written ++ field := by
        unfold put at hput
        split at hput
        · cases hput
          exact written_add _ _ _
        · split at hput
          · cases hput
            exact written_add _ _ _
          · cases hput
      rw [ih hrest, hfirst, List.append_assoc, List.flatten_cons]

/-- A sink without a limit takes everything. -/
theorem putAll_unlimited (fields : List Bytes) {s : Sink} (h : s.room = none) :
    ∃ s', putAll fields s = .ok () s' ∧ s'.room = none := by
  induction fields generalizing s with
  | nil => exact ⟨s, rfl, h⟩
  | cons field rest ih =>
      have hput : put field s = .ok () (s.add field none) := by
        rw [put, h]
      obtain ⟨s', hrest, hroom⟩ := ih (s := s.add field none) rfl
      refine ⟨s', ?_, hroom⟩
      change (put field >>= fun _ => rest.forM put) s = _
      rw [Action.bind_ok hput]
      exact hrest

end Sink

/-! ## Transfers -/

namespace Transfer

variable {σ α : Type}

theorem budgeted_ok {act : Action Budget α} {s : Transfer σ} {a : α} {budget : Budget}
    (h : act s.budget = .ok a budget) : budgeted act s = .ok a { s with budget } :=
  Action.focus_ok h

theorem budgeted_error {act : Action Budget α} {s : Transfer σ} {e : Error} {budget : Budget}
    (h : act s.budget = .error e budget) : budgeted act s = .error e { s with budget } :=
  Action.focus_error h

theorem streamed_ok {act : Action σ α} {s : Transfer σ} {a : α} {stream : σ}
    (h : act s.stream = .ok a stream) : streamed act s = .ok a { s with stream } :=
  Action.focus_ok h

theorem streamed_error {act : Action σ α} {s : Transfer σ} {e : Error} {stream : σ}
    (h : act s.stream = .error e stream) : streamed act s = .error e { s with stream } :=
  Action.focus_error h

/-- What is done to the stream while bytes are charged is done to it without them, when they are
given back in any case. -/
theorem closing_streamed {bytes : Nat} {f : Action (Transfer σ) α} {act : Action σ α}
    {s : Transfer σ}
    (hact : f { s with budget := s.budget.charged bytes } =
      streamed act { s with budget := s.budget.charged bytes }) :
    Action.closing (release bytes) f { s with budget := s.budget.charged bytes } =
      streamed act s := by
  cases hrun : act s.stream with
  | ok a stream =>
      have hcharged := streamed_ok (s := { s with budget := s.budget.charged bytes }) hrun
      rw [streamed_ok hrun]
      refine Action.closing_ok.mpr ⟨_, hact.trans hcharged, ?_⟩
      rw [release, Budget.release_charged]
  | error e stream =>
      have hcharged := streamed_error (s := { s with budget := s.budget.charged bytes }) hrun
      rw [streamed_error hrun]
      refine Action.closing_error.mpr ⟨_, hact.trans hcharged, ?_⟩
      rw [release, Budget.release_charged]

/-- What is done to the stream while a buffer is charged is done to it without the buffer. -/
theorem reserving_streamed {count width : Nat} {f : Nat → Action (Transfer σ) α} {act : Action σ α}
    {s : Transfer σ} (hgrants : s.budget.Grants (count * width))
    (hact : f (count * width) { s with budget := s.budget.charged (count * width) } =
      streamed act { s with budget := s.budget.charged (count * width) }) :
    reserving count width f s = streamed act s :=
  (Action.bind_ok (Action.focus_ok (Budget.allocate_ok hgrants))).trans (closing_streamed hact)

/-- A buffer that is not granted is refused, and nothing is read or written. -/
theorem reserving_refused {count width : Nat} (f : Nat → Action (Transfer σ) α) {s : Transfer σ}
    (h : ¬ s.budget.Grants (count * width)) :
    ∃ e, reserving count width f s = .error e s ∧ e.IsAllocation :=
  Budget.reserving_refused Transfer.budget (fun s b => ({ s with budget := b } : Transfer σ)) f h

/-- A refusal behind bytes that are charged is one of the whole, and gives them back. -/
theorem closing_refused {bytes : Nat} {f : Action (Transfer σ) α} {s : Transfer σ}
    (hact : ∃ e, f { s with budget := s.budget.charged bytes } =
      .error e { s with budget := s.budget.charged bytes } ∧ e.IsAllocation) :
    ∃ e, Action.closing (release bytes) f { s with budget := s.budget.charged bytes } =
      .error e s ∧ e.IsAllocation := by
  obtain ⟨e, hrefused, he⟩ := hact
  refine ⟨e, Action.closing_error.mpr ⟨_, hrefused, ?_⟩, he⟩
  rw [release, Budget.release_charged]

theorem isPart_budget : Action.IsPart (Transfer.budget : Transfer σ → Budget)
    (fun s b => { s with budget := b }) where
  part_put := fun _ _ => rfl
  put_part := fun _ => rfl
  put_put := fun _ _ _ => rfl

end Transfer

end InvertedFile
