import InvertedFile.Proofs.Stream

/-!
# Reading what was written

`Reads act bytes a` says that an action takes exactly `bytes` from the front of
a source and makes `a` of them, whatever stands behind. A reader made of
smaller ones reads the bytes of its parts one after the other, so that the
round trip of a format is built field by field, in the order of the format.

`Stops act bytes` says what becomes of the same bytes when some of them are
missing at the end: the action runs into the ending, wherever the cut is. That
is nothing a format has to be checked for field by field. A reader that is made
of `take` and of decisions on what it has taken is `Exact`: it never looks
further than it reads, so that up to the cut it goes the way it would go on the
whole bytes.

`Refuses act bytes ending e` is the other outcome: on these bytes the action
ends in that error. Every string of bytes starts with a number of a given width
or is too short for one, and the same holds of an array of words. So a format
is told from everything else by going through its fields, and at each of them
either the field is there or the refusal is found.

## Main results

* `Reads.bind` — readers one after the other.
* `reads_number`, `reads_take`, `reads_words` — numbers, texts and arrays.
* `Exact.bind`, `exact_take`, `exact_words` — exact readers.
* `Exact.stops` — bytes that an exact reader reads are not read when they are
  cut short.
* `Refuses.behind` — a refusal behind what has been read.
* `starts_with_number`, `starts_with_words` — a field is there, or the bytes are
  too short for it.
-/

namespace InvertedFile.Source

variable {α β : Type}

/-- The action takes these bytes from the front of a source and makes this of them. -/
def Reads (act : Action Source α) (bytes : Bytes) (a : α) : Prop :=
  ∀ tail ending, act { bytes := bytes ++ tail, ending } = .ok a { bytes := tail, ending }

theorem Reads.pure (a : α) : Reads (Pure.pure a) [] a :=
  fun _ _ => rfl

theorem Reads.bind {act : Action Source α} {f : α → Action Source β} {first rest : Bytes} {a : α}
    {b : β} (hact : Reads act first a) (hf : Reads (f a) rest b) :
    Reads (act >>= f) (first ++ rest) b := by
  intro tail ending
  rw [List.append_assoc, Action.bind_ok (hact (rest ++ tail) ending)]
  exact hf tail ending

/-- What comes after the reader reads nothing. -/
theorem Reads.bind_nil {act : Action Source α} {f : α → Action Source β} {bytes : Bytes} {a : α}
    {b : β} (hact : Reads act bytes a) (hf : Reads (f a) [] b) : Reads (act >>= f) bytes b := by
  have hbind := hact.bind hf
  rwa [List.append_nil] at hbind

theorem Reads.map {act : Action Source α} {bytes : Bytes} {a : α} (h : Reads act bytes a)
    (f : α → β) : Reads (act >>= fun a => Pure.pure (f a)) bytes (f a) :=
  h.bind_nil (Reads.pure (f a))

/-- A check that passes reads nothing. -/
theorem reads_ensure {p : Prop} [Decidable p] (h : p) (e : Error) :
    Reads (ensure p e) [] () :=
  fun _ _ => Action.ensure_ok h _

theorem reads_take (bytes : Bytes) : Reads (take bytes.length) bytes bytes := by
  intro tail ending
  have hle : bytes.length ≤ (bytes ++ tail).length := by
    rw [List.length_append]
    exact Nat.le_add_right _ _
  rw [take_eq_ok hle]
  show EStateM.Result.ok ((bytes ++ tail).take bytes.length)
    ({ bytes := (bytes ++ tail).drop bytes.length, ending } : Source) = _
  rw [List.take_left, List.drop_left]

theorem reads_number {width n : Nat} (h : n < 256 ^ width) :
    Reads (number width) (LittleEndian.encode width n) n := by
  have hread := (reads_take (LittleEndian.encode width n)).map LittleEndian.decode
  rwa [LittleEndian.length_encode, LittleEndian.decode_encode_of_lt h] at hread

theorem reads_byte (b : UInt8) : Reads (number 1) [b] b.toNat := by
  have hread := (reads_take [b]).map LittleEndian.decode
  rwa [show LittleEndian.decode [b] = b.toNat from rfl] at hread

theorem reads_words {t : ElementType} (ws : Array (Word t)) :
    Reads (words t ws.size) (Word.encodeAll ws) ws := by
  intro tail ending
  have hlength := Word.length_encodeAll ws
  have hle : ws.size * t.size ≤ (Word.encodeAll ws ++ tail).length := by
    rw [List.length_append, hlength]
    exact Nat.le_add_right _ _
  rw [words_ok hle, Word.decodeAll_encodeAll, Array.toArray_toList]
  show EStateM.Result.ok ws
    ({ bytes := (Word.encodeAll ws ++ tail).drop (ws.size * t.size), ending } : Source) = _
  rw [List.drop_left' hlength]

/-- An array that is read has the length that was asked for. -/
theorem size_of_words {t : ElementType} {n : Nat} {s s' : Source} {ws : Array (Word t)}
    (h : words t n s = .ok ws s') : ws.size = n := by
  by_cases hle : n * t.size ≤ s.bytes.length
  · rw [words_ok hle] at h
    cases h
    rw [List.size_toArray, Word.length_decodeAll]
  · rw [words_error (Nat.not_le.mp hle)] at h
    cases h

/-! ## Bytes that are cut short -/

/-- The action runs into the ending when some of these bytes are missing at the end. -/
def Stops (act : Action Source α) (bytes : Bytes) : Prop :=
  ∀ cut ending, cut <+: bytes → cut ≠ bytes →
    act { bytes := cut, ending } = .error ending.error { bytes := [], ending }

theorem stops_nil (act : Action Source α) : Stops act [] :=
  fun _ _ hcut hne => absurd (List.prefix_nil.mp hcut) hne

/-- Bytes in two parts are cut short in the first part or in the second. -/
theorem cut_cases {cut first rest : Bytes} (hcut : cut <+: first ++ rest)
    (hne : cut ≠ first ++ rest) :
    (cut <+: first ∧ cut ≠ first) ∨ ∃ more, cut = first ++ more ∧ more <+: rest ∧ more ≠ rest := by
  by_cases hlength : cut.length < first.length
  · left
    refine ⟨?_, fun heq => Nat.lt_irrefl _ (heq ▸ hlength)⟩
    exact List.prefix_of_prefix_length_le hcut (List.prefix_append first rest)
      (Nat.le_of_lt hlength)
  · right
    obtain ⟨more, rfl⟩ := List.prefix_of_prefix_length_le (List.prefix_append first rest) hcut
      (Nat.le_of_not_lt hlength)
    exact ⟨more, rfl, (List.prefix_append_right_inj first).mp hcut, fun heq => hne (heq ▸ rfl)⟩

/-- The cut is in what the first reader reads, or in what the second one does. -/
theorem Stops.bind {act : Action Source α} {f : α → Action Source β} {first rest : Bytes} {a : α}
    (hreads : Reads act first a) (hact : Stops act first) (hf : Stops (f a) rest) :
    Stops (act >>= f) (first ++ rest) := by
  intro cut ending hcut hne
  rcases cut_cases hcut hne with ⟨hfirst, hshort⟩ | ⟨more, rfl, hmore, hshort⟩
  · exact Action.bind_error (hact cut ending hfirst hshort)
  · rw [Action.bind_ok (hreads more ending)]
    exact hf more ending hmore hshort

theorem stops_take (bytes : Bytes) : Stops (take bytes.length) bytes := by
  intro cut ending hcut hne
  have hlength : cut.length < bytes.length := by
    refine Nat.lt_of_le_of_ne hcut.length_le fun heq => hne ?_
    exact hcut.eq_of_length heq
  exact take_eq_error hlength

/-- The action reads what it takes from a source from there alone: the same bytes are read whatever
stands behind them, and none of them can be missing. -/
def Exact (act : Action Source α) : Prop :=
  ∀ s a s', act s = .ok a s' → ∃ taken, s.bytes = taken ++ s'.bytes ∧ s'.ending = s.ending ∧
    Reads act taken a ∧ Stops act taken

theorem exact_pure (a : α) : Exact (Pure.pure a) := by
  rintro s _ _ ⟨⟩
  exact ⟨[], rfl, rfl, Reads.pure a, stops_nil _⟩

theorem exact_throw (e : Error) : Exact (throw e : Action Source α) :=
  fun _ _ _ h => absurd h Action.throw_ne_ok

theorem exact_ensure (p : Prop) [Decidable p] (e : Error) : Exact (ensure p e) := by
  intro s a s' h
  obtain ⟨hp, rfl⟩ := Action.ensure_eq_ok.mp h
  exact ⟨[], rfl, rfl, reads_ensure hp e, stops_nil _⟩

theorem Exact.bind {act : Action Source α} {f : α → Action Source β} (hact : Exact act)
    (hf : ∀ a, Exact (f a)) : Exact (act >>= f) := by
  intro s b s'' h
  obtain ⟨a, s', hfirst, hsecond⟩ := Action.bind_eq_ok.mp h
  obtain ⟨first, hbytes, hending, hreads, hstops⟩ := hact s a s' hfirst
  obtain ⟨rest, hbytes', hending', hreads', hstops'⟩ := hf a s' b s'' hsecond
  refine ⟨first ++ rest, ?_, hending'.trans hending, hreads.bind hreads',
    .bind hreads hstops hstops'⟩
  rw [hbytes, hbytes', List.append_assoc]

theorem exact_take (n : Nat) : Exact (take n) := by
  intro s bytes s' h
  by_cases hlength : n ≤ s.bytes.length
  · rw [take_eq_ok hlength] at h
    cases h
    have htaken : (s.bytes.take n).length = n := List.length_take_of_le hlength
    refine ⟨s.bytes.take n, (List.take_append_drop n s.bytes).symm, rfl, ?_, ?_⟩
    · have hreads := reads_take (s.bytes.take n)
      rwa [htaken] at hreads
    · have hstops := stops_take (s.bytes.take n)
      rwa [htaken] at hstops
  · rw [take_eq_error (Nat.lt_of_not_le hlength)] at h
    cases h

theorem exact_number (width : Nat) : Exact (number width) :=
  (exact_take width).bind fun _ => exact_pure _

theorem exact_words (t : ElementType) (n : Nat) : Exact (words t n) := by
  have hrun : ∀ (n : Nat) (acc : Array (Word t)), Exact (run t n acc) :=
    fun n acc => (exact_take (n * t.size)).bind fun _ => exact_pure _
  have hruns : ∀ (k : Nat) (acc : Array (Word t)), Exact (runs t k acc) := by
    intro k
    induction k with
    | zero => exact fun acc => exact_pure acc
    | succ k ih => exact fun acc => (hrun runLength acc).bind ih
  exact (hruns (n / runLength) #[]).bind (hrun (n % runLength))

/-- Bytes that are read from the front of any source are not read when some are missing. -/
theorem Exact.stops {act : Action Source α} (h : Exact act) {bytes : Bytes} {a : α}
    (hreads : Reads act bytes a) : Stops act bytes := by
  obtain ⟨taken, hbytes, -, -, hstops⟩ := h _ _ _ (hreads [] .endOfInput)
  have hsame : bytes ++ [] = taken ++ [] := hbytes
  rw [List.append_nil, List.append_nil] at hsame
  rwa [hsame]

/-! ## Bytes that are refused -/

/-- On these bytes, with this ending behind them, the action ends in the error. -/
def Refuses (act : Action Source α) (bytes : Bytes) (ending : Ending) (e : Error) : Prop :=
  ∃ left, act { bytes, ending } = .error e left

section Refuses

variable {act : Action Source α} {f : α → Action Source β} {bytes first rest : Bytes}
  {ending : Ending} {e : Error} {a : α}

theorem Refuses.bind (h : Refuses act bytes ending e) : Refuses (act >>= f) bytes ending e := by
  obtain ⟨left, hleft⟩ := h
  exact ⟨left, Action.bind_error hleft⟩

/-- The second reader refuses what stands behind the bytes of the first. -/
theorem Refuses.behind (hact : Reads act first a) (h : Refuses (f a) rest ending e) :
    Refuses (act >>= f) (first ++ rest) ending e := by
  obtain ⟨left, hleft⟩ := h
  exact ⟨left, (Action.bind_ok (hact rest ending)).trans hleft⟩

/-- A check that passes in front of the refusal. -/
theorem Refuses.check {p : Prop} [Decidable p] (hp : p) {e' : Error} {f : Unit → Action Source β}
    (h : Refuses (f ()) bytes ending e) : Refuses (ensure p e' >>= f) bytes ending e :=
  .behind (reads_ensure hp e') h

/-- A byte that is read in front of the refusal. -/
theorem Refuses.behind_byte {b : UInt8} {f : Nat → Action Source β}
    (h : Refuses (f b.toNat) rest ending e) : Refuses (number 1 >>= f) (b :: rest) ending e :=
  .behind (reads_byte b) h

/-- A check that fails refuses whatever there is. -/
theorem refuses_ensure {p : Prop} [Decidable p] (h : ¬ p) (e : Error) (bytes : Bytes)
    (ending : Ending) : Refuses (ensure p e) bytes ending e :=
  ⟨_, Action.ensure_error h _⟩

theorem refuses_throw (e : Error) (bytes : Bytes) (ending : Ending) :
    Refuses (throw e : Action Source α) bytes ending e :=
  ⟨_, rfl⟩

theorem refuses_take {n : Nat} (h : bytes.length < n) (ending : Ending) :
    Refuses (take n) bytes ending ending.error :=
  ⟨_, take_eq_error h⟩

theorem refuses_number {width : Nat} (h : bytes.length < width) (ending : Ending) :
    Refuses (number width) bytes ending ending.error :=
  (refuses_take h ending).bind

theorem refuses_words {t : ElementType} {n : Nat} (h : bytes.length < n * t.size)
    (ending : Ending) : Refuses (words t n) bytes ending ending.error :=
  ⟨_, words_error h⟩

end Refuses

/-- There are bytes for a number at the front, or there are too few. -/
theorem starts_with_number (width : Nat) (bytes : Bytes) :
    bytes.length < width ∨
      ∃ n rest, n < 256 ^ width ∧ bytes = LittleEndian.encode width n ++ rest := by
  by_cases h : bytes.length < width
  · exact Or.inl h
  · have htaken : (bytes.take width).length = width :=
      List.length_take_of_le (Nat.le_of_not_lt h)
    have hlt := LittleEndian.decode_lt (bytes.take width)
    have hback := LittleEndian.encode_decode (bytes.take width)
    rw [htaken] at hlt hback
    refine Or.inr ⟨_, bytes.drop width, hlt, ?_⟩
    rw [hback, List.take_append_drop]

/-- There are bytes for an array at the front, or there are too few. -/
theorem starts_with_words (t : ElementType) (n : Nat) (bytes : Bytes) :
    bytes.length < n * t.size ∨
      ∃ (ws : Array (Word t)) (rest : Bytes), ws.size = n ∧ bytes = Word.encodeAll ws ++ rest := by
  by_cases h : bytes.length < n * t.size
  · exact Or.inl h
  · refine Or.inr ⟨(Word.decodeAll t n bytes).toArray, bytes.drop (n * t.size), ?_, ?_⟩
    · rw [List.size_toArray, Word.length_decodeAll]
    · rw [Word.encodeAll_decodeAll (Nat.le_of_not_lt h), List.take_append_drop]

end InvertedFile.Source
