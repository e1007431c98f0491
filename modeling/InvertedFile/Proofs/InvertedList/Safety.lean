import InvertedFile.Proofs.Faults
import InvertedFile.Proofs.InvertedList.Accessors
import InvertedFile.Proofs.InvertedList.Saving

/-!
# Safety of the operations of a list

Every operation of a list checks its arguments against the capacity, the
published size or the widths of the list, and not against its buffers. That
an access which passes these checks lies inside a buffer is up to how the list
is kept: the buffers are as long as the capacity asks for, which is what
`WellFormed` says. So on a well-formed list no operation ends in a fault,
whatever it is asked for.

A view is bounded by the published size at the time it was taken. All that
matters here is that the list has slots for that many records, and this stays
true for as long as the list is there.

## Main results

* `View.Safe`, `InvertedList.Safe` — the reads of a view and the operations of a
  list, each with arbitrary arguments.
* `WellFormed.safe` — a list that is well formed is safe.
-/

namespace InvertedFile

open InvertedFile.Action

/-! ## Checks -/

theorem InvertedList.faultless_checkTail {t : ElementType} {i : IdType} (l : InvertedList t i)
    (start n : Nat) : Except.Faultless (l.checkTail start n) := by
  intro cause hfault
  unfold InvertedList.checkTail at hfault
  split at hfault
  · cases hfault
  · split at hfault <;> cases hfault

variable {t : ElementType} {i : IdType}

/-! ## What is safe -/

/-- The reads of a view. What it shows as a whole is there, and a part of it is there or refused. -/
structure View.Safe (v : View t i) : Prop where
  ids : ∃ ids, v.ids = .ok ids
  completeGroups : ∃ words, v.completeGroups = .ok words
  record : ∀ p, Except.Faultless (v.record p)
  chunk : ∀ p c, Except.Faultless (v.chunk p c)
  unpack : ∀ start out, Faultless (v.unpack start) out

/-- The operations of a list: reads through a view of any size that there are slots for, writes of a
writer, and the writing of an image. -/
structure InvertedList.Safe (l : InvertedList t i) : Prop where
  view : ∀ n ≤ l.capacity, View.Safe { list := l, size := n }
  pack : ∀ codes start, Faultless (InvertedList.pack codes start) l
  writeIds : ∀ ids start, Faultless (InvertedList.writeIds ids start) l
  publish : ∀ size, Faultless (InvertedList.publish size) l
  append : ∀ codes ids, Faultless (InvertedList.append codes ids) l
  writeRecord : ∀ store length tr, Faultless (l.writeRecord store length) tr

namespace InvertedList

variable {l : InvertedList t i}

/-! ## Reading -/

section Reading

variable {n : Nat}

/-- What a view refuses is told as such. -/
theorem WellFormed.view_safe (h : l.WellFormed) (hn : n ≤ l.capacity) :
    View.Safe { list := l, size := n } := by
  have hrefuses := View.refuses (v := { list := l, size := n }) h hn
  constructor
  case ids => exact ⟨_, ids_ok h hn⟩
  case completeGroups => exact ⟨_, completeGroups_ok h hn⟩
  case record =>
    intro p cause hfault
    obtain ⟨-, herror⟩ := (hrefuses.record_eq_error p _).mp hfault
    cases herror
  case chunk =>
    intro p c cause hfault
    rcases (hrefuses.chunk_eq_error p c _).mp hfault with ⟨-, herror⟩ | ⟨-, -, herror⟩ <;>
      cases herror
  case unpack =>
    intro start out cause after hfault
    rcases (hrefuses.unpack_eq_error start out _ after).mp hfault with
      ⟨-, ⟨-, herror⟩ | ⟨-, -, herror⟩⟩ <;>
      cases herror

end Reading

/-! ## Writing -/

theorem faultless_pack (h : l.WellFormed) (codes : Array (Word t)) (start : Nat) :
    Faultless (pack codes start) l := by
  refine faultless_bind_ok (get_ok l) ?_
  refine faultless_ensure_bind nofun fun _ => ?_
  refine faultless_ofExcept_bind (l.faultless_checkTail _ _) fun _ hchecked => ?_
  obtain ⟨hroom, -⟩ := (l.checkTail_eq_ok_iff start _).mp hchecked
  obtain ⟨data, hok, -⟩ := Interleave.packSlots_ok l.spec.layout.veclen_pos
    l.spec.layout.veclen_dvd_dim (Nat.div_mul_le_self codes.size l.spec.dim)
    fun k hk => h.covers (by omega : start + k < l.capacity)
  exact faultless_focus (faultless_of_ok hok)

theorem faultless_writeIds (h : l.WellFormed) (ids : Array (Id i)) (start : Nat) :
    Faultless (writeIds ids start) l := by
  refine faultless_bind_ok (get_ok l) ?_
  refine faultless_ofExcept_bind (l.faultless_checkTail _ _) fun _ hchecked => ?_
  obtain ⟨hroom, -⟩ := (l.checkTail_eq_ok_iff start _).mp hchecked
  exact faultless_focus (faultless_of_ok (Buffer.store_eq_ok (h.size_ids.symm ▸ hroom)))

theorem faultless_publish (l : InvertedList t i) (size : Nat) : Faultless (publish size) l := by
  refine faultless_bind_ok (get_ok l) ?_
  refine faultless_ensure_bind nofun fun _ => ?_
  refine faultless_ensure_bind nofun fun _ => ?_
  exact faultless_of_ok rfl

/-- Each of the three writes of an append starts from a list to which the one before it has
evolved. -/
theorem faultless_append (h : l.WellFormed) (codes : Array (Word t)) (ids : Array (Id i)) :
    Faultless (append codes ids) l := by
  refine faultless_bind_ok (get_ok l) ?_
  refine faultless_ensure_bind nofun fun _ => ?_
  refine (faultless_pack h codes l.size).bind fun _ packed hpack => ?_
  have hpacked : packed.WellFormed :=
    (final_ok hpack ▸ evolves_pack h codes l.size).wellFormed h
  refine (faultless_writeIds hpacked ids l.size).bind fun _ named _ => ?_
  exact (faultless_publish named _).bind fun _ _ _ => faultless_pure _ _

/-! ## Saving -/

/-- What is written for a list is put together from its buffers without a fault, and the sink has
none. -/
theorem faultless_writeRecord (h : l.WellFormed) (store : ListSpec) (length : Option UInt32)
    (tr : Transfer Sink) : Faultless (l.writeRecord store length) tr := by
  by_cases hdim : store.dim = l.spec.dim
  · rcases writeRecord_cases h hdim length tr with ⟨e, he, hallocation, -⟩ | ⟨-, fields, -, hwrite⟩
    · exact faultless_of_error he hallocation.ne_fault
    · intro cause tr' hfault
      rw [hwrite] at hfault
      exact faultless_focus (faultless_forM (fun field _ => Sink.faultless_put field) _)
        cause tr' hfault
  · exact faultless_of_error (writeRecord_dim hdim length tr) nofun

/-- A list that is well formed is safe. -/
theorem WellFormed.safe (h : l.WellFormed) : l.Safe where
  view := fun _ hn => h.view_safe hn
  pack := faultless_pack h
  writeIds := faultless_writeIds h
  publish := faultless_publish l
  append := faultless_append h
  writeRecord := faultless_writeRecord h

end InvertedList

end InvertedFile
