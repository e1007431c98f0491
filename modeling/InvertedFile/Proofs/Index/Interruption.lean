import InvertedFile.Proofs.Index.Truncation

/-!
# Writing that is broken off

A sink may take some bytes and then fail, and the budget may refuse a buffer of
the encoding. `Fills act bytes b` says all that the first of the two can do to a
run that writes `bytes`: as many of them arrive as there is room for, and the
run fails when this is not all of them. `Declines act b` is the second one: the
run ends before anything is written. Both leave the budget as it is, and this
is why they can be put one after the other: a list is encoded on the budget that
the list before it found, so which of the lists are refused does not depend on
the sink. What comes of a refusal behind bytes is `BreaksOff act bytes b`.

## Main results

* `Fills.bind`, `Fills.breaksOff` — actions that write, one after the other, and
  one that is refused behind others.
* `fills_writeRecord`, `declines_writeRecord` — a list fills the sink with its
  image, or declines.
* `fills_write`, `breaksOff_write` — so does an index, and the refusal of a list
  comes behind the records of the lists before it.
-/

namespace InvertedFile

/-! ## Sinks with little room -/

/-- Fields that are written one after the other fill the room of a sink. -/
theorem Sink.putAll_limited (fields : List Bytes) {s : Sink} {room : Nat}
    (h : s.room = some room) : ∃ s',
      s'.written = s.written ++ fields.flatten.take room ∧
      (fields.flatten.length ≤ room →
        putAll fields s = .ok () s' ∧ s'.room = some (room - fields.flatten.length)) ∧
      (room < fields.flatten.length → putAll fields s = .error (.io .sinkFull) s') := by
  induction fields generalizing s room with
  | nil =>
      refine ⟨s, ?_, fun _ => ⟨rfl, h⟩, fun hlt => absurd hlt (Nat.not_lt_zero room)⟩
      rw [List.flatten_nil, List.take_nil, List.append_nil]
  | cons field rest ih =>
      change ∃ s', _ ∧ (_ → (put field >>= fun _ => putAll rest) s = _ ∧ _) ∧
        (_ → (put field >>= fun _ => putAll rest) s = _)
      rw [List.flatten_cons, List.length_append]
      by_cases hfits : field.length ≤ room
      · have hput : put field s = .ok () (s.add field (some (room - field.length))) := by
          rw [put_eq_ok, h, Option.map_some]
          intro room' hroom'
          rw [h, Option.mem_some_iff] at hroom'
          exact hroom' ▸ hfits
        obtain ⟨s', hwritten, hok, herror⟩ :=
          ih (s := s.add field (some (room - field.length))) rfl
        refine ⟨s', ?_, fun hall => ?_, fun hfull => ?_⟩
        · rw [hwritten, written_add, List.append_assoc, List.take_append,
            List.take_of_length_le hfits]
        · obtain ⟨hrest, hroom⟩ := hok (by omega)
          refine ⟨(Action.bind_ok hput).trans hrest, ?_⟩
          rw [hroom, Nat.sub_sub]
        · exact (Action.bind_ok hput).trans (herror (by omega))
      · have hlt := Nat.lt_of_not_le hfits
        refine ⟨s.add (field.take room) (some 0), ?_, fun hall => absurd hall (by omega),
          fun _ => Action.bind_error (put_eq_error h hlt)⟩
        rw [written_add, List.take_append_of_le_length (Nat.le_of_lt hlt)]

/-! ## Filling and declining -/

/-- With this budget the action writes these bytes, to a sink with little room as far as there is
room for them, and then it fails when there is not room for all. The budget is as before. -/
structure Fills (act : Action (Transfer Sink) Unit) (bytes : Bytes) (b : Budget) : Prop where
  unlimited : ∀ s : Sink, s.room = none → ∃ s',
    act { budget := b, stream := s } = .ok () { budget := b, stream := s' } ∧ s'.room = none ∧
    s'.written = s.written ++ bytes
  limited : ∀ (s : Sink) (room : Nat), s.room = some room → ∃ s',
    s'.written = s.written ++ bytes.take room ∧
    (bytes.length ≤ room →
      act { budget := b, stream := s } = .ok () { budget := b, stream := s' } ∧
        s'.room = some (room - bytes.length)) ∧
    (room < bytes.length →
      act { budget := b, stream := s } = .error (.io .sinkFull) { budget := b, stream := s' })

/-- With this budget the action is refused a buffer when it has written these bytes. To a sink with
little room it writes them as far as there is room for them. The budget is as before. -/
structure BreaksOff (act : Action (Transfer Sink) Unit) (bytes : Bytes) (b : Budget) : Prop where
  unlimited : ∀ s : Sink, s.room = none → ∃ s' e,
    act { budget := b, stream := s } = .error e { budget := b, stream := s' } ∧ e.IsAllocation ∧
    s'.written = s.written ++ bytes
  limited : ∀ (s : Sink) (room : Nat), s.room = some room → ∃ s',
    s'.written = s.written ++ bytes.take room ∧
    (bytes.length ≤ room → ∃ e,
      act { budget := b, stream := s } = .error e { budget := b, stream := s' } ∧
        e.IsAllocation) ∧
    (room < bytes.length →
      act { budget := b, stream := s } = .error (.io .sinkFull) { budget := b, stream := s' })

/-- With this budget the action is refused a buffer, and nothing is written. -/
def Declines (act : Action (Transfer Sink) Unit) (b : Budget) : Prop :=
  ∀ s : Sink, ∃ e,
    act { budget := b, stream := s } = .error e { budget := b, stream := s } ∧ e.IsAllocation

section Fills

variable {act act' : Action (Transfer Sink) Unit} {bytes bytes' : Bytes} {b : Budget}

theorem fills_putAll (fields : List Bytes) (b : Budget) :
    Fills (Transfer.streamed (Sink.putAll fields)) fields.flatten b where
  unlimited := by
    intro s hroom
    obtain ⟨s', hput, hleft⟩ := Sink.putAll_unlimited fields hroom
    exact ⟨s', Transfer.streamed_ok hput, hleft, Sink.putAll_ok hput⟩
  limited := by
    intro s room hroom
    obtain ⟨s', hwritten, hok, herror⟩ := Sink.putAll_limited fields hroom
    refine ⟨s', hwritten, fun hall => ?_, fun hfull => Transfer.streamed_error (herror hfull)⟩
    obtain ⟨hput, hleft⟩ := hok hall
    exact ⟨Transfer.streamed_ok hput, hleft⟩

theorem fills_pure (b : Budget) : Fills (pure ()) [] b where
  unlimited := fun s hroom => ⟨s, rfl, hroom, (List.append_nil _).symm⟩
  limited := by
    intro s room hroom
    refine ⟨s, ?_, fun _ => ⟨rfl, hroom⟩, fun hlt => absurd hlt (Nat.not_lt_zero room)⟩
    rw [List.take_nil, List.append_nil]

/-- What is written second stands behind what is written first. -/
theorem Fills.bind (h : Fills act bytes b) (h' : Fills act' bytes' b) :
    Fills (act >>= fun _ => act') (bytes ++ bytes') b where
  unlimited := by
    intro s hroom
    obtain ⟨s₁, hfirst, hroom₁, hwritten⟩ := h.unlimited s hroom
    obtain ⟨s₂, hsecond, hroom₂, hwritten'⟩ := h'.unlimited s₁ hroom₁
    refine ⟨s₂, (Action.bind_ok hfirst).trans hsecond, hroom₂, ?_⟩
    rw [hwritten', hwritten, List.append_assoc]
  limited := by
    intro s room hroom
    obtain ⟨s₁, hwritten, hok, herror⟩ := h.limited s room hroom
    rw [List.length_append]
    by_cases hfits : bytes.length ≤ room
    · obtain ⟨hfirst, hleft⟩ := hok hfits
      obtain ⟨s₂, hwritten', hok', herror'⟩ := h'.limited s₁ (room - bytes.length) hleft
      refine ⟨s₂, ?_, fun hall => ?_, fun hfull => ?_⟩
      · rw [hwritten', hwritten, List.append_assoc, List.take_append,
          List.take_of_length_le hfits]
      · obtain ⟨hsecond, hleft'⟩ := hok' (by omega)
        refine ⟨(Action.bind_ok hfirst).trans hsecond, ?_⟩
        rw [hleft', Nat.sub_sub]
      · exact (Action.bind_ok hfirst).trans (herror' (by omega))
    · have hlt := Nat.lt_of_not_le hfits
      refine ⟨s₁, ?_, fun hall => absurd hall (by omega),
        fun _ => Action.bind_error (herror hlt)⟩
      rw [hwritten, List.take_append_of_le_length (Nat.le_of_lt hlt)]

/-- A refusal behind bytes is met when all of them have been written. -/
theorem Fills.breaksOff (h : Fills act bytes b) (h' : Declines act' b) :
    BreaksOff (act >>= fun _ => act') bytes b where
  unlimited := by
    intro s hroom
    obtain ⟨s', hfirst, -, hwritten⟩ := h.unlimited s hroom
    obtain ⟨e, he, hallocation⟩ := h' s'
    exact ⟨s', e, (Action.bind_ok hfirst).trans he, hallocation, hwritten⟩
  limited := by
    intro s room hroom
    obtain ⟨s', hwritten, hok, herror⟩ := h.limited s room hroom
    refine ⟨s', hwritten, fun hall => ?_, fun hfull => Action.bind_error (herror hfull)⟩
    obtain ⟨hfirst, -⟩ := hok hall
    obtain ⟨e, he, hallocation⟩ := h' s'
    exact ⟨e, (Action.bind_ok hfirst).trans he, hallocation⟩

theorem Declines.bind (h : Declines act b) (f : Unit → Action (Transfer Sink) Unit) :
    Declines (act >>= f) b := by
  intro s
  obtain ⟨e, he, hallocation⟩ := h s
  exact ⟨e, Action.bind_error he, hallocation⟩

end Fills

variable {t : ElementType} {i : IdType}

/-! ## Lists -/

namespace InvertedList

/-- The buffers for the image of a list are granted. An image without records takes none. -/
def Encodes (l : InvertedList t i) (store : Layout) (length : Nat) (b : Budget) : Prop :=
  length ≠ 0 → EncodingGranted l store length b

theorem fills_writeRecord {l : InvertedList t i} (h : l.WellFormed) {store : ListSpec}
    (hdim : store.dim = l.spec.dim) (length : Option UInt32) {b : Budget}
    (hgranted : Encodes l store.layout (l.imageLength length) b) :
    Fills (l.writeRecord store length)
      (recordBytes store.layout (l.padded (l.imageLength length))) b := by
  -- which fields are written does not depend on the sink, so those of one run serve for all
  rcases writeRecord_cases h hdim length { budget := b, stream := .empty none } with
    ⟨e, -, -, hsome, hrefused⟩ | ⟨-, fields, himage, -⟩
  · exact absurd (hgranted hsome) hrefused
  rw [← himage.flatten_eq h hdim]
  have hrun : ∀ s : Sink, l.writeRecord store length { budget := b, stream := s } =
      Transfer.streamed (Sink.putAll fields) { budget := b, stream := s } := by
    intro s
    rcases writeRecord_cases h hdim length { budget := b, stream := s } with
      ⟨e, -, -, hsome, hrefused⟩ | ⟨-, fields', himage', hrun⟩
    · exact absurd (hgranted hsome) hrefused
    · rw [hrun, himage.unique himage']
  have hfills := fills_putAll fields b
  refine ⟨fun s hroom => ?_, fun s room hroom => ?_⟩
  · rw [hrun]
    exact hfills.unlimited s hroom
  · rw [hrun]
    exact hfills.limited s room hroom

theorem declines_writeRecord {l : InvertedList t i} (h : l.WellFormed) {store : ListSpec}
    (hdim : store.dim = l.spec.dim) {length : Option UInt32} {b : Budget}
    (hrefused : ¬ Encodes l store.layout (l.imageLength length) b) :
    Declines (l.writeRecord store length) b := by
  intro s
  rcases writeRecord_cases h hdim length { budget := b, stream := s } with
    ⟨e, he, hallocation, -⟩ | ⟨hgranted, -⟩
  · exact ⟨e, he, hallocation⟩
  · exact absurd hgranted hrefused

end InvertedList

/-! ## Indexes -/

namespace Index

variable {x : Index} {s : Store t i} {refs : List ListId} {pending : Nat} {b : Budget}

/-- The buffers for the image of the list of a label are granted. -/
def Encodes (x : Index) (s : Store t i) (label : Nat) (b : Budget) : Prop :=
  ∀ l, (x.heldLists s)[label]? = some l → InvertedList.Encodes l x.spec.layout l.size b

theorem imageUpTo_zero (x : Index) (s : Store t i) :
    x.imageUpTo s 0 = (headerFields t i x).flatten :=
  List.append_nil _

theorem imageUpTo_succ {label : Nat} {l : InvertedList t i}
    (hl : (x.heldLists s)[label]? = some l) :
    x.imageUpTo s (label + 1) =
      x.imageUpTo s label ++ InvertedList.recordBytes x.spec.layout l.published := by
  rw [imageUpTo, imageUpTo, List.take_add_one, hl, List.flatMap_append, List.append_assoc]
  simp only [Option.toList_some, List.flatMap_cons, List.flatMap_nil, List.append_nil]

/-- The image of the first lists is the front of the image of all. -/
theorem imageUpTo_prefix (x : Index) (s : Store t i) {n m : Nat} (h : n ≤ m) :
    x.imageUpTo s n <+: x.imageUpTo s m := by
  obtain ⟨k, rfl⟩ := Nat.exists_eq_add_of_le h
  rw [imageUpTo, imageUpTo, List.take_add, List.flatMap_append, ← List.append_assoc]
  exact List.prefix_append _ _

/-- The list of a label, as it is written. -/
theorem writeSlot_of_heldLists (hx : x.Sound s) (hacc : s.Accounts refs pending) {label : Nat}
    {l : InvertedList t i} (hl : (x.heldLists s)[label]? = some l) :
    writeSlot x s label = l.writeRecord x.spec none ∧ l.WellFormed ∧ x.spec.dim = l.spec.dim := by
  rw [hx.getElem?_heldLists, Option.bind_eq_some_iff] at hl
  obtain ⟨id, hid, hlist⟩ := hl
  obtain ⟨l', hlist', hspec, -⟩ := hx.list label id hid
  rw [hlist, Option.some.injEq] at hlist'
  subst hlist'
  exact ⟨funext fun tr => writeSlot_eq hid hlist tr, hacc.wellFormed_list hlist, by rw [hspec]⟩

theorem fills_writeSlot (hx : x.Sound s) (hacc : s.Accounts refs pending) {label : Nat}
    {l : InvertedList t i} (hl : (x.heldLists s)[label]? = some l) (h : x.Encodes s label b) :
    Fills (writeSlot x s label) (InvertedList.recordBytes x.spec.layout l.published) b := by
  obtain ⟨hwrite, hwell, hdim⟩ := writeSlot_of_heldLists hx hacc hl
  have hfills := InvertedList.fills_writeRecord hwell hdim none (h l hl)
  rw [hwrite, ← InvertedList.padded_size hwell]
  exact hfills

theorem declines_writeSlot (hx : x.Sound s) (hacc : s.Accounts refs pending) {label : Nat}
    (h : ¬ x.Encodes s label b) : Declines (writeSlot x s label) b := by
  rw [Encodes, not_forall] at h
  obtain ⟨l, h⟩ := h
  obtain ⟨hl, hrefused⟩ := Classical.not_imp.mp h
  obtain ⟨hwrite, hwell, hdim⟩ := writeSlot_of_heldLists hx hacc hl
  rw [hwrite]
  exact InvertedList.declines_writeRecord hwell hdim hrefused

/-- The header and the first lists are written one after the other. -/
theorem fills_upTo (hx : x.Sound s) (hacc : s.Accounts refs pending) {n : Nat} (hn : n ≤ x.lists)
    (h : ∀ label < n, x.Encodes s label b) :
    Fills (do
      Transfer.streamed (Sink.putAll (headerFields t i x))
      (List.range n).forM (writeSlot x s)) (x.imageUpTo s n) b := by
  induction n with
  | zero =>
      have hfills := (fills_putAll (headerFields t i x) b).bind (fills_pure b)
      rw [List.append_nil] at hfills
      rw [imageUpTo_zero]
      exact hfills
  | succ n ih =>
      have hlt : n < (x.heldLists s).length := by
        rw [hx.length_heldLists]
        exact hn
      have hl := List.getElem?_eq_getElem hlt
      have hfills := (ih (Nat.le_of_succ_le hn) fun label hlabel => h label (by omega)).bind
        (fills_writeSlot hx hacc hl (h n (Nat.lt_succ_self n)))
      rw [List.range_succ, imageUpTo_succ hl]
      simpa only [List.forM_eq_forM, List.forM_append, List.forM_cons, List.forM_nil, bind_assoc,
        bind_pure_unit] using hfills

/-- An index whose lists are all granted fills a sink with its image. -/
theorem fills_write (hx : x.Sound s) (hacc : s.Accounts refs pending)
    (h : ∀ label < x.lists, x.Encodes s label b) :
    Fills (x.write s) (x.imageUpTo s x.lists) b :=
  fills_upTo hx hacc (Nat.le_refl _) h

/-- The first list that is refused is refused behind the records of the lists before it. -/
theorem breaksOff_write (hx : x.Sound s) (hacc : s.Accounts refs pending) {n : Nat}
    (hn : n < x.lists) (h : ∀ label < n, x.Encodes s label b) (hrefused : ¬ x.Encodes s n b) :
    BreaksOff (x.write s) (x.imageUpTo s n) b := by
  obtain ⟨rest, hsplit⟩ : ∃ rest, List.range x.lists = List.range n ++ n :: rest := by
    have hlt : n < (List.range x.lists).length := by rwa [List.length_range]
    have hdrop := List.drop_eq_getElem_cons hlt
    have htake : (List.range x.lists).take n = List.range n := by
      rw [List.take_range, Nat.min_eq_left (Nat.le_of_lt hn)]
    rw [List.getElem_range] at hdrop
    refine ⟨(List.range x.lists).drop (n + 1), ?_⟩
    rw [← hdrop, ← htake, List.take_append_drop]
  have hdeclines :=
    (declines_writeSlot hx hacc hrefused).bind fun _ => rest.forM (writeSlot x s)
  have hbreaks := (fills_upTo hx hacc (Nat.le_of_lt hn) h).breaksOff hdeclines
  rw [write, hsplit]
  simpa only [List.forM_eq_forM, List.forM_append, List.forM_cons, bind_assoc] using hbreaks

/-- All lists of an index are granted, or there is a first one that is refused. -/
theorem encodes_or_refused (x : Index) (s : Store t i) (b : Budget) :
    (∀ label < x.lists, x.Encodes s label b) ∨
      ∃ n < x.lists, (∀ label < n, x.Encodes s label b) ∧ ¬ x.Encodes s n b := by
  generalize x.lists = lists
  induction lists with
  | zero => exact Or.inl fun label hlabel => absurd hlabel (Nat.not_lt_zero label)
  | succ lists ih =>
      rcases ih with hall | ⟨n, hn, hbefore, hrefused⟩
      · by_cases hlast : x.Encodes s lists b
        · refine Or.inl fun label hlabel => ?_
          rcases Nat.lt_succ_iff_lt_or_eq.mp hlabel with hlt | rfl
          · exact hall label hlt
          · exact hlast
        · exact Or.inr ⟨lists, Nat.lt_succ_self lists, hall, hlast⟩
      · exact Or.inr ⟨n, Nat.lt_succ_of_lt hn, hbefore, hrefused⟩

end Index

end InvertedFile
