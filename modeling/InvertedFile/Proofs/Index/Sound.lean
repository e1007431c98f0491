import Mathlib.Algebra.Order.Group.Nat
import Mathlib.Algebra.Order.BigOperators.Group.List
import InvertedFile.Index.Basic
import InvertedFile.Proofs.Store.Accounts

/-!
# The lists of an index

The lists of an index all have its spec, and none has more room than its
growth asks for: a list without records has no slots, and one with records
has the capacity of a list made for that number. The format of a stored index
leaves the capacities out and relies on it.

The law is a law of the list alone. Records that are published into the room
that is there do not break it, since all numbers of records up to a capacity
have that capacity; so it survives whatever other holders of a list may do.

## Main results

* `Sound.listed` — every label has a list.
* `Sound.keeps` — an index survives what others do to its lists.
* `Sound.memoryBytes_le` — the lists of an index take a part of the bytes in
  use.
-/

namespace InvertedFile

namespace Index

variable {t : ElementType} {i : IdType}

/-- The lists of an index are in the store, one for each label, with the spec of the index and
with no more room than they need. -/
structure Sound (x : Index) (s : Store t i) : Prop where
  size_slots : x.slots.size = x.lists
  growth_eq : x.spec.growth = x.params.growth
  nodup : x.slots.toList.Nodup
  list : ∀ (label : Nat) (id : ListId), x.slots[label]? = some id →
    ∃ l, s.list? id = some l ∧ l.spec = x.spec ∧ l.Tight

theorem mem_slots_iff {x : Index} {id : ListId} :
    id ∈ x.slots.toList ↔ ∃ label : Nat, x.slots[label]? = some id := by
  rw [Array.mem_toList_iff, Array.mem_iff_getElem?]

/-- The list of a label is one of the lists of the index. -/
theorem mem_of_slot {x : Index} {label : Nat} {id : ListId} (h : x.slots[label]? = some id) :
    id ∈ x.slots.toList :=
  mem_slots_iff.mpr ⟨label, h⟩

namespace Sound

variable {x : Index} {s s' : Store t i}

/-- What is known of the list of a label. -/
theorem spec_tight (h : x.Sound s) {label : Nat} {id : ListId} {l : InvertedList t i}
    (hid : x.slots[label]? = some id) (hl : s.list? id = some l) :
    l.spec = x.spec ∧ l.Tight := by
  obtain ⟨l', hl', hlaws⟩ := h.list label id hid
  have hsame : l' = l := Option.some.inj (hl'.symm.trans hl)
  rwa [hsame] at hlaws

/-- What others do to the lists of an index leaves it sound. -/
theorem keeps (h : x.Sound s) {refs : List ListId} {pending : Nat}
    (haccounts : s.Accounts refs pending) (hkeeps : Store.Keeps x.slots.toList s s') :
    x.Sound s' where
  size_slots := h.size_slots
  growth_eq := h.growth_eq
  nodup := h.nodup
  list := by
    intro label id hid
    obtain ⟨l, hl, hspec, htight⟩ := h.list label id hid
    obtain ⟨l', hl', hevolves⟩ := hkeeps id (mem_of_slot hid) l hl
    exact ⟨l', hl', hevolves.spec_eq.trans hspec,
      hevolves.tight (haccounts.wellFormed_list hl) htight⟩

theorem lt_size (h : x.Sound s) {label : Nat} : label < x.slots.size ↔ label < x.lists := by
  rw [h.size_slots]

/-- Every label has a list. -/
theorem listed (h : x.Sound s) {label : Nat} (hlt : label < x.lists) :
    ∃ id l, x.slots[label]? = some id ∧ s.list? id = some l ∧ l.spec = x.spec ∧ l.Tight := by
  have hid := Array.getElem?_eq_getElem (h.lt_size.mpr hlt)
  obtain ⟨l, hl, hlaws⟩ := h.list label _ hid
  exact ⟨_, l, hid, hl, hlaws⟩

/-- No two labels have one list. -/
theorem slot_inj (h : x.Sound s) {label other : Nat} {id : ListId}
    (hlabel : x.slots[label]? = some id) (hother : x.slots[other]? = some id) :
    label = other := by
  rw [← Array.getElem?_toList] at hlabel hother
  obtain ⟨hlt, -⟩ := List.getElem?_eq_some_iff.mp hlabel
  exact (List.getElem?_inj hlt h.nodup).mp (hlabel.trans hother.symm)

end Sound

theorem slot_ok {x : Index} {label : Nat} {id : ListId} (h : x.slots[label]? = some id) :
    x.slot label = .ok id := by
  rw [slot, h]

theorem length_sizes (x : Index) (s : Store t i) : (x.sizes s).length = x.slots.size := by
  rw [sizes, List.length_map, Array.length_toList]

/-- The size of the list of a label. -/
theorem getElem?_sizes {x : Index} {s : Store t i} {label : Nat} {id : ListId}
    {l : InvertedList t i} (hid : x.slots[label]? = some id) (hl : s.list? id = some l) :
    (x.sizes s)[label]? = some l.size := by
  rw [sizes, List.getElem?_map, Array.getElem?_toList, hid]
  simp [hl]

/-! ## All lists together -/

/-- The lists of an index, in the order of their labels. -/
def heldLists (x : Index) (s : Store t i) : List (InvertedList t i) :=
  x.slots.toList.filterMap s.list?

/-- Bytes of all lists of an index. -/
def memoryBytes (x : Index) (s : Store t i) : Nat :=
  ((x.heldLists s).map (·.memoryBytes)).sum

private theorem getElem?_filterMap_of_isSome {α β : Type} {f : α → Option β} {xs : List α}
    (h : ∀ a ∈ xs, (f a).isSome) (k : Nat) : (xs.filterMap f)[k]? = xs[k]?.bind f := by
  induction xs generalizing k with
  | nil => rfl
  | cons a rest ih =>
      obtain ⟨b, hb⟩ := Option.isSome_iff_exists.mp (h a (List.mem_cons_self ..))
      rw [List.filterMap_cons_some hb]
      cases k with
      | zero => exact hb.symm
      | succ k => exact ih (fun a' ha' => h a' (List.mem_cons_of_mem a ha')) k

namespace Sound

variable {x : Index} {s : Store t i} {refs : List ListId} {pending : Nat}

theorem isSome_list? (hx : x.Sound s) : ∀ id ∈ x.slots.toList, (s.list? id).isSome := by
  intro id hid
  obtain ⟨label, hlabel⟩ := mem_slots_iff.mp hid
  obtain ⟨l, hl, -⟩ := hx.list label id hlabel
  rw [hl]
  rfl

theorem getElem?_heldLists (hx : x.Sound s) (label : Nat) :
    (x.heldLists s)[label]? = x.slots[label]?.bind s.list? := by
  rw [heldLists, getElem?_filterMap_of_isSome hx.isSome_list?, Array.getElem?_toList]

theorem length_heldLists (hx : x.Sound s) : (x.heldLists s).length = x.lists := by
  rw [heldLists, List.length_filterMap_eq_countP, List.countP_eq_length.mpr hx.isSome_list?,
    Array.length_toList, hx.size_slots]

/-- What is known of the lists of an index. -/
theorem of_mem_heldLists (hx : x.Sound s) (hacc : s.Accounts refs pending)
    {l : InvertedList t i} (hl : l ∈ x.heldLists s) :
    l.WellFormed ∧ l.Hosted ∧ l.spec = x.spec ∧ l.Tight := by
  obtain ⟨id, hid, hlist⟩ := List.mem_filterMap.mp hl
  obtain ⟨label, hlabel⟩ := mem_slots_iff.mp hid
  exact ⟨hacc.wellFormed_list hlist, hacc.hosted_list hlist, hx.spec_tight hlabel hlist⟩

/-- The lists of an index take no more bytes than are in use. -/
theorem memoryBytes_le (hx : x.Sound s) (hacc : s.Accounts refs pending) :
    x.memoryBytes s ≤ s.budget.inUse := by
  have hreserved : (x.heldLists s).map (·.memoryBytes) =
      (x.heldLists s).map (·.reserved) :=
    List.map_congr_left fun l hl => ((hx.of_mem_heldLists hacc hl).1.reserved_eq).symm
  have hbytes := Store.sum_reserved_le s hx.nodup
  have hinUse := hacc.inUse_eq
  rw [memoryBytes, hreserved, heldLists]
  omega

/-- The bytes of a list are among those of its index. -/
theorem memoryBytes_le_of_list (hx : x.Sound s) {label : Nat} {id : ListId}
    {l : InvertedList t i} (hid : x.slots[label]? = some id) (hl : s.list? id = some l) :
    l.memoryBytes ≤ x.memoryBytes s := by
  have hget := hx.getElem?_heldLists label
  rw [hid, Option.bind_some, hl] at hget
  exact List.le_sum_of_mem (List.mem_map.mpr ⟨l, List.mem_of_getElem? hget, rfl⟩)

end Sound

end Index

end InvertedFile
