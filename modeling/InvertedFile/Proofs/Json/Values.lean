import InvertedFile.Proofs.Json.Walk

/-!
# Objects and arrays are taken apart

A text that is an object or an array is taken apart into exactly the members or
elements that the grammar says it has. What both have in common is said once:
`Reads` is what a reader of items has to do, and from it follows what the
reader of an enclosure of such items does. A value and a member are then two
readers of items.

What a reader gives for a value is a span, and two spans may hold the same
text, so items are compared by what they show.

## Main results

* `Reads.enclosed?_iff` — an enclosure is taken apart into its items.
* `objectText_iff`, `arrayText_iff` — for objects and for arrays.
-/

namespace InvertedFile.Json

/-! ## Items -/

/-- A reader of items: it reads an item wherever a value may end, it reads nothing else, and no
item starts with the end of an enclosure. -/
structure Reads {α β : Type} (item? : Bytes → Option (α × Bytes)) (shown : α → β)
    (Item : β → Bytes → Prop) : Prop where
  read : ∀ {b s rest}, Item b s → Ends rest →
    ∃ a, item? (s ++ rest) = some (a, rest) ∧ shown a = b
  item : ∀ {s a rest}, item? s = some (a, rest) → ∃ text, Item (shown a) text ∧ s = text ++ rest
  opens : ∀ {b s}, Item b s → ∀ rest, Opens (s ++ rest)

section Items

variable {α β : Type} {item? : Bytes → Option (α × Bytes)} {shown : α → β}
  {Item : β → Bytes → Prop} {hitem : ∀ s a rest, item? s = some (a, rest) → rest.length ≤ s.length}
  {e : Enclosure}

/-- What stands behind an item decides how its reader goes on. -/
theorem items?_eq {close : UInt8} {s behind rest : Bytes} {a : α} {b : UInt8}
    (h : item? s = some (a, behind)) (hs : skipBlanks behind = b :: rest) :
    items? close item? hitem s =
      if b = close then some ([a], rest)
      else if b = comma then
        (items? close item? hitem rest).map fun (as, behind) => (a :: as, behind)
      else none := by
  rw [items?]
  split
  · next hnone =>
      rw [h] at hnone
      cases hnone
  · next hsome =>
      rw [h] at hsome
      cases hsome
      split
      · next hnil =>
          rw [hs] at hnil
          cases hnil
      · next hcons =>
          rw [hs] at hcons
          cases hcons
          rfl

/-- Items are read to the end of their enclosure. -/
theorem Reads.items?_append (hreads : Reads item? shown Item) {bs : List β} {s : Bytes}
    (h : Items Item bs s) (rest : Bytes) :
    ∃ as, items? e.closing item? hitem (s ++ e.closing :: rest) = some (as, rest) ∧
      as.map shown = bs := by
  induction h with
  | @last b s behind h hbehind =>
      obtain ⟨a, hread, hshown⟩ := hreads.read h ((ends_closing e rest).blanks hbehind)
      have hbehind' : skipBlanks (behind ++ e.closing :: rest) = e.closing :: rest := by
        rw [skipBlanks_append hbehind, skipBlanks_cons e.isBlank_closing]
      refine ⟨[a], ?_, by rw [List.map_singleton, hshown]⟩
      rw [List.append_assoc, items?_eq hread hbehind', if_pos rfl]
  | @more b bs s behind others h hbehind hothers ih =>
      obtain ⟨as, has, hshown⟩ := ih
      obtain ⟨a, hread, ha⟩ :=
        hreads.read h ((ends_comma (others ++ e.closing :: rest)).blanks hbehind)
      have hbehind' : skipBlanks (behind ++ comma :: (others ++ e.closing :: rest)) =
          comma :: (others ++ e.closing :: rest) := by
        rw [skipBlanks_append hbehind, skipBlanks_cons (by decide)]
      refine ⟨a :: as, ?_, by rw [List.map_cons, ha, hshown]⟩
      simp only [List.append_assoc, List.cons_append]
      rw [items?_eq hread hbehind', if_neg e.comma_ne_closing, if_pos rfl, has, Option.map_some]

/-- What is read as items is items. -/
theorem Reads.items_of_items? (hreads : Reads item? shown Item) {as : List α} {s rest : Bytes}
    (h : items? e.closing item? hitem s = some (as, rest)) :
    ∃ text, Items Item (as.map shown) text ∧ s = text ++ e.closing :: rest := by
  fun_induction items? e.closing item? hitem s generalizing as rest with
  | case1 => cases h
  | case2 => cases h
  | case3 s a behind hread tail hs =>
      cases h
      obtain ⟨text, htext, rfl⟩ := hreads.item hread
      obtain ⟨blanks, hblanks, hbehind⟩ := exists_blanks behind
      refine ⟨_, .last htext hblanks, ?_⟩
      rw [hbehind, hs, List.append_assoc]
  | case4 s a behind hread tail hs _ ih =>
      obtain ⟨⟨others, more⟩, hothers, heq⟩ := Option.map_eq_some_iff.mp h
      cases heq
      obtain ⟨text, htext, rfl⟩ := hreads.item hread
      obtain ⟨blanks, hblanks, hbehind⟩ := exists_blanks behind
      obtain ⟨items, hitems, rfl⟩ := ih hothers
      refine ⟨_, .more htext hblanks hitems, ?_⟩
      rw [hbehind, hs]
      simp only [List.append_assoc, List.cons_append]
  | case5 => cases h

theorem Reads.items_opens (hreads : Reads item? shown Item) {bs : List β} {s : Bytes}
    (h : Items Item bs s) (rest : Bytes) : Opens (s ++ rest) := by
  cases h with
  | last h _ =>
      rw [List.append_assoc]
      exact hreads.opens h _
  | more h _ _ =>
      rw [List.append_assoc]
      exact hreads.opens h _

/-- A text that holds an enclosure starts, behind its blanks, with the byte that opens it. -/
theorem TextOf.head {bs : List β} {s : Bytes} (h : TextOf Item e bs s) :
    ∃ rest, skipBlanks s = e.opening :: rest := by
  obtain ⟨hbefore, hinner, _⟩ := h
  rw [skipBlanks_append hbefore]
  cases hinner with
  | empty _ => exact ⟨_, skipBlanks_cons e.isBlank_opening _⟩
  | items _ => exact ⟨_, skipBlanks_cons e.isBlank_opening _⟩

section Enclosed

variable {s inner : Bytes}

/-- Nothing stands in the enclosure. -/
theorem enclosed?_empty {opening close : UInt8} {rest : Bytes}
    (hs : skipBlanks s = opening :: inner)
    (hclosing : byte? close (skipBlanks inner) = some rest) :
    enclosed? opening close item? hitem s = if skipBlanks rest = [] then some [] else none := by
  have hopening : byte? opening (skipBlanks s) = some inner := byte?_eq_some_iff.mpr hs
  simp only [enclosed?, hopening, hclosing, Option.bind_eq_bind, Option.bind_some, Option.pure_def]

/-- Something stands in the enclosure. -/
theorem enclosed?_items {opening close : UInt8} (hs : skipBlanks s = opening :: inner)
    (hclosing : byte? close (skipBlanks inner) = none) :
    enclosed? opening close item? hitem s =
      (items? close item? hitem inner).bind fun (as, rest) =>
        if skipBlanks rest = [] then some as else none := by
  have hopening : byte? opening (skipBlanks s) = some inner := byte?_eq_some_iff.mpr hs
  simp only [enclosed?, hopening, hclosing, Option.bind_eq_bind, Option.bind_some, Option.pure_def]

/-- A text that holds an enclosure is taken apart into its items. -/
theorem Reads.enclosed?_of_textOf (hreads : Reads item? shown Item) {bs : List β}
    (h : TextOf Item e bs s) :
    ∃ as, enclosed? e.opening e.closing item? hitem s = some as ∧ as.map shown = bs := by
  cases h with
  | @enclosed before body behind hbefore hbody hbehind =>
      have hrest : skipBlanks behind = [] := skipBlanks_eq_nil_iff.mpr hbehind
      cases hbody with
      | @empty blanks hblanks =>
          refine ⟨[], ?_, rfl⟩
          have hs : skipBlanks (before ++ (e.opening :: (blanks ++ [e.closing]) ++ behind)) =
              e.opening :: (blanks ++ e.closing :: behind) := by
            rw [skipBlanks_append hbefore, List.cons_append, List.append_assoc,
              List.singleton_append, skipBlanks_cons e.isBlank_opening]
          have hclosing : byte? e.closing (skipBlanks (blanks ++ e.closing :: behind)) =
              some behind := by
            rw [skipBlanks_append hblanks, skipBlanks_cons e.isBlank_closing, byte?, if_pos rfl]
          rw [enclosed?_empty hs hclosing, if_pos hrest]
      | @items _ items hitems =>
          obtain ⟨as, has, hshown⟩ := hreads.items?_append hitems behind
          refine ⟨as, ?_, hshown⟩
          have hs : skipBlanks (before ++ (e.opening :: (items ++ [e.closing]) ++ behind)) =
              e.opening :: (items ++ e.closing :: behind) := by
            rw [skipBlanks_append hbefore, List.cons_append, List.append_assoc,
              List.singleton_append, skipBlanks_cons e.isBlank_opening]
          rw [enclosed?_items hs ((hreads.items_opens hitems _).byte? e), has, Option.bind_some]
          exact if_pos hrest

/-- What is taken apart is a text that holds an enclosure. -/
theorem Reads.textOf_of_enclosed? (hreads : Reads item? shown Item) {as : List α}
    (h : enclosed? e.opening e.closing item? hitem s = some as) :
    TextOf Item e (as.map shown) s := by
  obtain ⟨before, hbefore, heq⟩ := exists_blanks s
  cases hs : byte? e.opening (skipBlanks s) with
  | none =>
      simp only [enclosed?, hs, Option.bind_eq_bind, Option.bind_none, reduceCtorEq] at h
  | some inner =>
      rw [byte?_eq_some_iff] at hs
      rw [hs] at heq
      cases hclosing : byte? e.closing (skipBlanks inner) with
      | some rest =>
          rw [enclosed?_empty hs hclosing] at h
          split at h
          · next hrest =>
              cases h
              obtain ⟨blanks, hblanks, hinner⟩ := exists_blanks inner
              have hbody : Enclosed Item e [] (e.opening :: (blanks ++ [e.closing])) :=
                .empty hblanks
              have htext := TextOf.enclosed hbefore hbody (skipBlanks_eq_nil_iff.mp hrest)
              rw [byte?_eq_some_iff.mp hclosing] at hinner
              rw [heq, hinner]
              simpa only [List.cons_append, List.append_assoc, List.nil_append, List.map_nil]
                using htext
          · cases h
      | none =>
          rw [enclosed?_items hs hclosing] at h
          obtain ⟨⟨as', rest⟩, hitems, h⟩ := Option.bind_eq_some_iff.mp h
          dsimp only at h
          split at h
          · next hrest =>
              cases h
              obtain ⟨items, hitems, hinner⟩ := hreads.items_of_items? hitems
              have htext := TextOf.enclosed hbefore (.items (e := e) hitems)
                (skipBlanks_eq_nil_iff.mp hrest)
              rw [heq, hinner]
              simpa only [List.cons_append, List.append_assoc, List.nil_append] using htext
          · cases h

/-- An enclosure is taken apart into its items, and nothing else is. -/
theorem Reads.enclosed?_iff (hreads : Reads item? shown Item) {bs : List β} :
    TextOf Item e bs s ↔
      ∃ as, enclosed? e.opening e.closing item? hitem s = some as ∧ as.map shown = bs := by
  constructor
  · exact hreads.enclosed?_of_textOf
  · rintro ⟨as, h, rfl⟩
    exact hreads.textOf_of_enclosed? h

end Enclosed

end Items

/-! ## Values and members -/

/-- A value of an array is read. -/
theorem reads_value : Reads value? Span.text Element where
  read := by
    rintro b s rest ⟨hbefore, h⟩ hrest
    refine ⟨{ start := b ++ rest, behind := rest }, ?_, Span.text_append b rest⟩
    rw [value?, List.append_assoc, skipBlanks_append hbefore, h.skipBlanks_append,
      h.skip?_append hrest]
    rfl
  item := by
    intro s a rest h
    simp only [value?, Option.bind_eq_bind, Option.bind_eq_some_iff, Option.pure_def,
      Option.some.injEq, Prod.mk.injEq] at h
    obtain ⟨behind, hskip, rfl, rfl⟩ := h
    obtain ⟨before, hbefore, hs⟩ := exists_blanks s
    obtain ⟨blanks, value, hblanks, hvalue, hstart⟩ := valid_of_skip? hskip
    -- The span starts behind all blanks, so none of them are left to the walk.
    have heq : skipBlanks s = value ++ behind :=
      calc skipBlanks s = skipBlanks (before ++ skipBlanks s) := congrArg skipBlanks hs
        _ = skipBlanks (skipBlanks s) := skipBlanks_append hbefore _
        _ = skipBlanks (value ++ behind) := by rw [hstart, skipBlanks_append hblanks]
        _ = value ++ behind := hvalue.skipBlanks_append behind
    rw [heq] at hs ⊢
    refine ⟨before ++ value, ?_, by rw [hs, List.append_assoc]⟩
    rw [Span.text_append]
    exact .value hbefore hvalue
  opens := by
    rintro b s ⟨hbefore, h⟩ rest
    rw [List.append_assoc]
    exact Lead.array.opens hbefore h rest

theorem quoted?_eq_some_iff {s rest : Bytes} {cs : List Char} :
    quoted? s = some (cs, rest) ↔
      ∃ body, SpellsAll cs body ∧ s = quote :: (body ++ quote :: rest) := by
  simp only [quoted?, Option.bind_eq_bind, Option.bind_eq_some_iff, byte?_eq_some_iff,
    text?_eq_some_iff]
  constructor
  · rintro ⟨_, rfl, body, hbody, rfl⟩
    exact ⟨body, hbody, rfl⟩
  · rintro ⟨body, hbody, rfl⟩
    exact ⟨_, rfl, body, hbody, rfl⟩

/-- A member of an object is read. -/
theorem reads_member : Reads member? (fun m => (m.1, m.2.text)) Member where
  read := by
    intro m s rest hmember hrest
    cases hmember with
    | @value before key behind blanks text cs hbefore hkey hbehind hblanks h =>
        obtain ⟨span, hspan, htext⟩ := reads_value.read (.value hblanks h) hrest
        refine ⟨(cs, span), ?_, by rw [htext]⟩
        simp only [member?, Option.bind_eq_bind, Option.bind_eq_some_iff, byte?_eq_some_iff,
          List.append_assoc, List.cons_append]
        refine ⟨(cs, behind ++ colon :: (blanks ++ (text ++ rest))), ?_,
          blanks ++ (text ++ rest), ?_, (span, rest), ?_, rfl⟩
        · rw [skipBlanks_append hbefore, skipBlanks_cons (by decide)]
          exact quoted?_eq_some_iff.mpr ⟨key, hkey, rfl⟩
        · rw [skipBlanks_append hbehind, skipBlanks_cons (by decide)]
        · rw [← List.append_assoc]
          exact hspan
  item := by
    intro s m rest h
    simp only [member?, Option.bind_eq_bind, Option.bind_eq_some_iff, byte?_eq_some_iff,
      Option.pure_def, Option.some.injEq, Prod.mk.injEq] at h
    obtain ⟨⟨cs, first⟩, hkey, second, hcolon, ⟨span, third⟩, hvalue, rfl, rfl⟩ := h
    obtain ⟨key, hspells, hquoted⟩ := quoted?_eq_some_iff.mp hkey
    obtain ⟨_, ⟨hblanks, hvalid⟩, rfl⟩ := reads_value.item hvalue
    obtain ⟨before, hbefore, hs⟩ := exists_blanks s
    obtain ⟨behind, hbehind, hfirst⟩ := exists_blanks first
    refine ⟨_, .value hbefore hspells hbehind hblanks hvalid, ?_⟩
    rw [hs, hquoted, hfirst, hcolon]
    simp only [List.append_assoc, List.cons_append]
  opens := by
    intro m s hmember rest
    cases hmember with
    | @value before key behind blanks text cs hbefore _ _ _ _ =>
        refine ⟨quote, key ++ quote :: (behind ++ colon :: (blanks ++ text)) ++ rest, ?_,
          fun e => by cases e <;> decide⟩
        rw [List.append_assoc, skipBlanks_append hbefore, List.cons_append,
          skipBlanks_cons (by decide)]

/-! ## Texts -/

/-- The members of an object are the ones that are read. -/
theorem objectText_iff {members : List (List Char × Bytes)} {s : Bytes} :
    ObjectText members s ↔
      ∃ entries, object? s = some entries ∧ entries.map (fun m => (m.1, m.2.text)) = members :=
  reads_member.enclosed?_iff (e := .object)

/-- The elements of an array are the ones that are read. -/
theorem arrayText_iff {elements : List Bytes} {s : Bytes} :
    ArrayText elements s ↔ ∃ spans, array? s = some spans ∧ spans.map Span.text = elements :=
  reads_value.enclosed?_iff (e := .array)

theorem objectText_unique {members members' : List (List Char × Bytes)} {s : Bytes}
    (h : ObjectText members s) (h' : ObjectText members' s) : members = members' := by
  obtain ⟨entries, hentries, rfl⟩ := objectText_iff.mp h
  obtain ⟨entries', hentries', rfl⟩ := objectText_iff.mp h'
  rw [Option.some.inj (hentries.symm.trans hentries')]

theorem arrayText_unique {elements elements' : List Bytes} {s : Bytes}
    (h : ArrayText elements s) (h' : ArrayText elements' s) : elements = elements' := by
  obtain ⟨spans, hspans, rfl⟩ := arrayText_iff.mp h
  obtain ⟨spans', hspans', rfl⟩ := arrayText_iff.mp h'
  rw [Option.some.inj (hspans.symm.trans hspans')]

/-- No text is both an object and an array. -/
theorem object?_of_arrayText {elements : List Bytes} {s : Bytes} (h : ArrayText elements s) :
    object? s = none := by
  obtain ⟨rest, hs⟩ := h.head
  have hopening : byte? openBrace (skipBlanks s) = none := by
    rw [hs, byte?]
    exact if_neg (by decide)
  simp only [object?, enclosed?, hopening, Option.bind_eq_bind, Option.bind_none]

theorem not_arrayText_of_objectText {members : List (List Char × Bytes)} {elements : List Bytes}
    {s : Bytes} (h : ObjectText members s) : ¬ ArrayText elements s := by
  intro harray
  obtain ⟨entries, hentries, -⟩ := objectText_iff.mp h
  rw [object?_of_arrayText harray] at hentries
  cases hentries

end InvertedFile.Json
