import InvertedFile.Proofs.Workspace.Session

/-!
# What is charged to the budget of a session

A budget only counts. That its count means anything is the work of everybody
who charges it: bytes are charged when a list is made and given back with the
list, and what is charged for the time of an operation is given back before
the operation ends, on every way out of it.

So after every event the bytes in use are those of the lists that somebody
still holds, each counted once however many hold it. The order in which lists
were shared and dropped does not matter, nor does it what has failed and how
far it had come.

## Main results

* `inUse_eq_sum` — the law for one session in order.
* `accounting_exact` — the law for every run of events from a new session.
-/

namespace InvertedFile.Session

variable {t : ElementType} {i : IdType} {s : Session t i}

/-- The lists that somebody holds, each once. -/
def heldLists (s : Session t i) : List (InvertedList t i) :=
  s.refs.dedup.filterMap s.store.list?

/-- A session whose lists are held by nobody outside. -/
theorem Sound.accounts_refs (h : s.Sound []) : s.store.Accounts s.refs 0 := by
  have hacc := h.accounts
  rwa [List.append_nil] at hacc

theorem mem_refs_iff (h : s.Sound []) (id : ListId) :
    id ∈ s.refs ↔ (s.store.list? id).isSome := by
  rw [Option.isSome_iff_exists]
  constructor
  · intro hid
    obtain ⟨holding, hfind⟩ := h.accounts_refs.found hid
    exact ⟨holding.list, Store.list?_of_find? hfind⟩
  · rintro ⟨l, hl⟩
    obtain ⟨holding, hfind, -⟩ := Store.list?_eq_some_iff.mp hl
    exact h.accounts_refs.mem hfind

/-- The bytes in use are those of the lists that somebody holds. -/
theorem inUse_eq_sum (h : s.Sound []) :
    s.store.budget.inUse = (s.heldLists.map (·.memoryBytes)).sum := by
  have hbytes : s.heldLists.map (·.memoryBytes) = s.heldLists.map (·.reserved) := by
    refine List.map_congr_left fun l hl => ?_
    obtain ⟨id, -, hlist⟩ := List.mem_filterMap.mp hl
    exact (h.accounts_refs.wellFormed_list hlist).reserved_eq.symm
  rw [hbytes, heldLists, h.accounts_refs.inUse_eq_sum]

/-- A holder who lets go gives back the bytes of the list if he was the last one. -/
theorem inUse_release (h : s.Sound []) {id : ListId} {l : InvertedList t i}
    (hl : s.store.list? id = some l) :
    (s.store.release id).budget.inUse + (if s.refs.count id = 1 then l.memoryBytes else 0) =
      s.store.budget.inUse := by
  obtain ⟨holding, hfind, rfl⟩ := Store.list?_eq_some_iff.mp hl
  have hcount := h.accounts_refs.holders_eq hfind
  have hpos := h.accounts_refs.holders_pos hfind
  have hreserved := (h.accounts_refs.wellFormed hfind).reserved_eq
  by_cases hlast : holding.holders ≤ 1
  · have hle := h.accounts_refs.reserved_le hfind
    rw [if_pos (by omega), Store.release_last hfind hlast, ← hreserved]
    show s.store.budget.inUse - holding.list.reserved + holding.list.reserved = _
    omega
  · rw [if_neg (by omega), Store.release_shared hfind hlast]
    rfl

/-- **The accounts are exact.** After any events, successful or not, the bytes in use are those of
the lists that somebody holds, by a name, by an index or by a handle, and the lists of the store are
these. A list takes the bytes of its slots; letting go of it gives back all of them with the last
holder and none before. The budget has the limit it was made with, and keeps it. -/
theorem accounting_exact (limit : Option Nat) (events : List (Event t i)) :
    let s := (new t i limit).run events
    s.store.budget.inUse = (s.heldLists.map (·.memoryBytes)).sum ∧
    (∀ id, id ∈ s.refs ↔ (s.store.list? id).isSome) ∧
    (∀ id l, s.store.list? id = some l →
      l.memoryBytes = l.capacity * (l.spec.dim * t.size + i.size) ∧
      (s.store.release id).budget.inUse + (if s.refs.count id = 1 then l.memoryBytes else 0) =
        s.store.budget.inUse) ∧
    s.store.budget.limit = limit ∧
    (∀ bytes ∈ limit, s.store.budget.inUse ≤ bytes) ∧ s.store.budget.inUse < byteLimit := by
  intro s
  have hkept := run_kept (sound_new (t := t) (i := i) limit) events
  have hsound : s.Sound [] := hkept.sound
  have hlimit : s.store.budget.limit = limit := hkept.limit_eq
  have hbudget := hsound.accounts_refs.budget
  refine ⟨inUse_eq_sum hsound, mem_refs_iff hsound, fun id l hl => ?_, hlimit, ?_,
    hbudget.inUse_lt⟩
  · exact ⟨(hsound.accounts_refs.wellFormed_list hl).memoryBytes_eq, inUse_release hsound hl⟩
  · rw [← hlimit]
    exact hbudget.le_limit

end InvertedFile.Session
