import InvertedFile.Proofs.InvertedList.Safety
import InvertedFile.Proofs.Workspace.Session

/-!
# Safety of the lists of a session

Lists come into a session in many ways: they are made, with room or without,
read from bytes that anybody may have written, copied when they are resized,
or grown by an index. Then they are written, by a writer or by a holder who
sets words, ids and sizes as he likes, and any of this may fail half way.

None of it takes a list out of order. Whatever has happened, the buffers of
every list that is there have the lengths its capacity asks for, and so every
operation on it, with arguments of any kind, stays inside of them.

## Main results

* `Store.faultless_resize` — a resize of a list in order is no fault.
* `Session.reachable_list_safe` — how every list of a session is kept, and that
  no operation on it ends in a fault.
-/

namespace InvertedFile

open InvertedFile.Action

variable {t : ElementType} {i : IdType}

/-- A resize that is refused tells of its arguments or of a buffer. -/
theorem Store.faultless_resize {s : Store t i} {id : ListId} {h : Holding t i}
    (hfind : s.find? id = some h) (hwell : h.list.WellFormed) (spec : ListSpec)
    (records used : Nat) : Faultless (resize id spec records used) s := by
  by_cases hdim : spec.dim = h.list.spec.dim
  swap
  · exact faultless_of_error (resize_dim hfind hdim) nofun
  by_cases hused : used ≤ h.list.size
  swap
  · exact faultless_of_error (resize_used hfind hdim hused) nofun
  rcases resize_cases hfind hwell spec records used with
    ⟨e, he, hother | hmore | ⟨-, hallocation, -⟩⟩ |
      ⟨-, -, ⟨-, -, -, hstays⟩ | ⟨-, -, -, -, hcut⟩ | ⟨-, _, _, -, -, hreplaced, -⟩⟩
  · exact absurd hdim hother
  · exact absurd hused (Nat.not_le.mpr hmore)
  · exact faultless_of_error he hallocation.ne_fault
  · exact faultless_of_ok hstays
  · exact faultless_of_ok hcut
  · exact faultless_of_ok hreplaced

namespace Session

/-- **Every list is kept in order, and nothing that is done with it goes astray.** After any events,
successful or not, a list that is there has a capacity of whole groups, none or one that its growth
gives out; the words and the ids of as many slots, and no more records than slots. Its chunks have a
power of two of columns and divide its records. So no read through a view, no write of a writer, no
writing of its image and no resize ends in an access outside of a buffer, whatever the arguments
are, and no width that is divided by is zero. -/
theorem reachable_list_safe {limit : Option Nat} {events : List (Event t i)} {id : ListId}
    {l : InvertedList t i} (hl : ((new t i limit).run events).store.list? id = some l) :
    groupSize ∣ l.capacity ∧
    (l.capacity = 0 ∨ ∃ records, l.spec.growth.capacity? records = some l.capacity) ∧
    l.data.size = l.capacity * l.spec.dim ∧ l.data.size = l.extents.length ∧
    l.ids.size = l.capacity ∧ l.size ≤ l.capacity ∧
    l.spec.veclen.isPowerOfTwo ∧ l.spec.veclen ∣ l.spec.dim ∧
    0 < l.spec.veclen ∧ 0 < l.spec.dim ∧ l.Safe ∧
    ∀ spec records used,
      Faultless (Store.resize id spec records used) ((new t i limit).run events).store := by
  have hsound : ((new t i limit).run events).Sound [] := (run_kept (sound_new limit) events).sound
  have hwell : l.WellFormed := hsound.accounts.wellFormed_list hl
  obtain ⟨holding, hfind, rfl⟩ := Store.list?_eq_some_iff.mp hl
  let layout := holding.list.spec.layout
  exact ⟨hwell.groupSize_dvd, hwell.capacity_eq, hwell.size_data_eq, hwell.size_data,
    hwell.size_ids, hwell.size_le, layout.veclen_isPowerOfTwo, layout.veclen_dvd_dim,
    layout.veclen_pos, layout.dim_pos, hwell.safe, Store.faultless_resize hfind hwell⟩

/-- A list is made and a record is appended to it; its holder writes over a slot behind the record
and publishes that one, too; and then bytes that break off are read as a list. -/
def unevenEvents : List (Event .u8 .i32) :=
  let spec : SpecRequest := { dim := 2, veclen := 2, growth := .steady }
  [.command (.step (.create "a" spec 1)),
    .write ⟨0⟩ (.append #[1, 2] #[7]),
    .command (.step (.poke "a" 1 #[9] #[5])),
    .command (.step (.setSize "a" 2)),
    .command (.step (.load "b"
      { origin := .given [1, 0, 0, 0], edits := { keep := none, patches := [], tail := [] },
        failAt := none } spec spec))]

/-- The list has two records in one group of slots, and is safe. -/
theorem reachable_list_safe_uneven : ∃ l,
    ((new .u8 .i32 none).run unevenEvents).store.list? ⟨0⟩ = some l ∧
      l.size = 2 ∧ l.data.size = 64 ∧ l.Safe := by
  have hfound : (((new .u8 .i32 none).run unevenEvents).store.list? ⟨0⟩).map
      (fun l => (l.size, l.capacity * l.spec.dim)) = some (2, 64) := by
    decide +kernel
  obtain ⟨l, hl, hshape⟩ := Option.map_eq_some_iff.mp hfound
  obtain ⟨-, -, hdata, -, -, -, -, -, -, -, hsafe, -⟩ := reachable_list_safe hl
  obtain ⟨hsize, hwords⟩ := Prod.mk.inj hshape
  exact ⟨l, hl, hsize, hdata.trans hwords, hsafe⟩

end Session

end InvertedFile
