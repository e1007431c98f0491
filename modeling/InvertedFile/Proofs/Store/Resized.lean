import InvertedFile.Proofs.InvertedList.RoundTrip
import InvertedFile.Proofs.Store.Resize

/-!
# What a resize keeps

`resize_cases` lists the ways in which a resize ends. This module says what
they have in common. Whether the list stays, is cut in place, is copied group
by group or is put into another layout, the holder has a list of the layout
that was asked for, with room for the records that were asked for, which
publishes the first records of the old one.

What differs is whether the holder is given another list. `NeedsSwap` says
when, and only then are there two lists to speak of: the new one, in which
nothing is behind the published records, and the old one, which every other
holder keeps as it was.

## Main results

* `Copied.resized`, `Copied.fresh` — a copy is what a resize promises.
* `resize_keeps_records` — a resize fails for one of three reasons and changes
  nothing, or it keeps the records.
-/

namespace InvertedFile

namespace InvertedList

variable {t : ElementType} {i : IdType}

/-- What comes of a list that was to have room for `records` records under a spec and to keep the
first `keep` of its own. -/
structure Resized (l : InvertedList t i) (spec : ListSpec) (records keep : Nat)
    (l' : InvertedList t i) : Prop where
  wellFormed : l'.WellFormed
  layout_eq : l'.spec.layout = spec.layout
  room : records ≤ l'.capacity
  size_eq : l'.size = keep
  published_eq : l'.published = l.published.take keep

/-- A list that was made for `records` records under a spec and has been filled from the start. -/
structure Fresh (spec : ListSpec) (records : Nat) (l : InvertedList t i) : Prop where
  spec_eq : l.spec = spec
  capacity_eq : spec.growth.capacity? records = some l.capacity
  unused : ∀ p, l.size ≤ p → p < l.capacity → l.ids[p]? = some (Id.invalid i)

section Copied

variable {source after : InvertedList t i} {spec : ListSpec} {records capacity keep : Nat}

theorem Copied.resized (h : source.Copied (.blank t i spec capacity) keep after)
    (hsource : source.WellFormed) (hdim : spec.dim = source.spec.dim) (hkeep : keep ≤ source.size)
    (hrecords : keep ≤ records) (hcapacity : spec.growth.capacity? records = some capacity) :
    source.Resized spec records keep after := by
  have hblank := wellFormed_blank (t := t) (i := i) hcapacity
  have hroom := Growth.le_capacity hcapacity
  exact
    { wellFormed := wellFormed_copied h hblank (Nat.le_trans hrecords hroom)
      layout_eq := congrArg ListSpec.layout h.spec_eq
      room := h.capacity_eq.symm ▸ hroom
      size_eq := h.size_eq
      published_eq :=
        published_copied h hsource hblank hdim.symm hkeep (Nat.le_trans hrecords hroom) }

theorem Copied.fresh (h : source.Copied (.blank t i spec capacity) keep after)
    (hcapacity : spec.growth.capacity? records = some capacity) : Fresh spec records after where
  spec_eq := h.spec_eq
  capacity_eq := h.capacity_eq.symm ▸ hcapacity
  unused := by
    intro p hp hlt
    rw [h.size_eq] at hp
    rw [h.capacity_eq] at hlt
    rw [h.id p, if_neg (Nat.not_lt.mpr hp), getElem?_ids_blank]
    exact if_pos hlt

end Copied

end InvertedList

section

variable {t : ElementType} {i : IdType}

/-- A resize gives the holder another list: the layout differs, there is not enough room, or records
are to be given up that others still hold. -/
def Holding.NeedsSwap (h : Holding t i) (spec : ListSpec) (records used : Nat) : Prop :=
  spec.layout ≠ h.list.spec.layout ∨ h.list.capacity < records ∨
    1 < h.holders ∧ min used records < h.list.size

theorem Holding.needsSwap_iff {h : Holding t i} {spec : ListSpec} {records used : Nat}
    (hused : used ≤ h.list.size) :
    h.NeedsSwap spec records used ↔
      ¬ (records ≤ h.list.capacity ∧ spec.layout = h.list.spec.layout) ∨
        min used records ≠ h.list.size ∧ ¬ h.holders ≤ 1 := by
  unfold NeedsSwap
  by_cases hlayout : spec.layout = h.list.spec.layout
  · simp only [hlayout, ne_eq, not_true_eq_false, false_or, and_true]
    omega
  · simp [hlayout]

end

namespace Store

variable {t : ElementType} {i : IdType}

/-- What is in the place of a list that one of its holders has exchanged for another one. -/
theorem find?_replaced {s : Store t i} {id : ListId} {h : Holding t i} (hfind : s.find? id = some h)
    (list : InvertedList t i) :
    (s.replaced id list).find? id =
      if h.holders ≤ 1 then none else some { h with holders := h.holders - 1 } := by
  have hpushed : ((s.charged list.reserved).pushed list).find? id = some h :=
    (find?_pushed_ne _ list (ne_nextId hfind)).trans hfind
  split
  · next hlast => exact find?_release_last hpushed hlast
  · next hshared => exact find?_release_shared hpushed hshared

theorem list?_replaced_nextId {s : Store t i} {id : ListId} {h : Holding t i}
    (hfind : s.find? id = some h) (list : InvertedList t i) :
    (s.replaced id list).list? s.nextId = some list := by
  have hkept : (s.replaced id list).find? s.nextId =
      ((s.charged list.reserved).pushed list).find? s.nextId :=
    find?_release_ne _ (ne_nextId hfind).symm
  exact (list?_congr hkept).trans
    (list?_of_find? (find?_pushed_self (s.charged list.reserved) list))

theorem find?_replaced_ne (s : Store t i) {id other : ListId} (list : InvertedList t i)
    (hne : other ≠ id) (hnew : other ≠ s.nextId) :
    (s.replaced id list).find? other = s.find? other :=
  (find?_release_ne _ hne).trans (find?_pushed_ne (s.charged list.reserved) list hnew)

/-- **A resize keeps the records.** It fails only when the widths of the records differ, when more
records are to be kept than are published, or when it needs a copy whose buffers are refused, and
then the store is as it was. Otherwise the holder has a list of the layout that was asked for, with
the room that was asked for, that publishes the first records of the old one. It is another list
exactly when `NeedsSwap` says so. A new list has the capacity its growth asks for and nothing behind
its records; the old one stays as it is for those who still hold it, and no further list is
touched. -/
theorem resize_keeps_records {s : Store t i} {id : ListId} {h : Holding t i}
    (hfind : s.find? id = some h) (hwell : h.list.WellFormed) (spec : ListSpec)
    (records used : Nat) :
    (∃ e, resize id spec records used s = .error e s ∧
      (spec.dim ≠ h.list.spec.dim ∨ h.list.size < used ∨
        h.NeedsSwap spec records used ∧ e.IsAllocation ∧
          ∀ capacity, spec.growth.capacity? records = some capacity →
            ¬ CopyGranted h.list spec capacity (min used records) s.budget)) ∨
    ∃ new s' list,
      resize id spec records used s = .ok new s' ∧ s'.list? new = some list ∧
      h.list.Resized spec records (min used records) list ∧
      (new ≠ id ↔ h.NeedsSwap spec records used) ∧
      (new ≠ id → list.Fresh spec records ∧ s.find? new = none ∧
        s'.find? id = if h.holders ≤ 1 then none else some { h with holders := h.holders - 1 }) ∧
      ∀ other, other ≠ id → other ≠ new → s'.find? other = s.find? other := by
  rcases resize_cases hfind hwell spec records used with
    ⟨e, he, hwhy⟩ | ⟨hdim, hused, hways⟩
  · left
    refine ⟨e, he, ?_⟩
    rcases hwhy with hdim | hused | ⟨hneeds, hrefused⟩
    · exact Or.inl hdim
    · exact Or.inr (Or.inl hused)
    · by_cases hused : used ≤ h.list.size
      · exact Or.inr (Or.inr ⟨(Holding.needsSwap_iff hused).mpr hneeds, hrefused⟩)
      · exact Or.inr (Or.inl (Nat.lt_of_not_le hused))
  right
  have hkeep : min used records ≤ h.list.size := Nat.le_trans (Nat.min_le_left _ _) hused
  have hneeds : h.NeedsSwap spec records used ↔
      ¬ (records ≤ h.list.capacity ∧ spec.layout = h.list.spec.layout) ∨
        min used records ≠ h.list.size ∧ ¬ h.holders ≤ 1 := Holding.needsSwap_iff hused
  rcases hways with ⟨hroom, hlayout, hall, hstay⟩ | ⟨hroom, hlayout, hless, hsole, hcut⟩ |
    ⟨hwhy, capacity, after, hcapacity, -, hreplaced, hcopied⟩
  · -- the list stays
    refine ⟨id, s, h.list, hstay, list?_of_find? hfind, ?_, ?_, fun hne => absurd rfl hne,
      fun _ _ _ => rfl⟩
    · exact ⟨hwell, hlayout.symm, hroom, hall.symm, by
        rw [hall, ← InvertedList.length_published hwell, List.take_length]⟩
    · rw [hneeds]
      simp [hroom, hlayout, hall]
  · -- the list is cut in place
    have hplace := find?_update_self s
      (some { h with list := { h.list with size := min used records } }) hfind
    refine ⟨id, _, _, hcut, list?_of_find? hplace, ?_, ?_, fun hne => absurd rfl hne,
      fun other hother _ => find?_update_ne s _ hother⟩
    · exact ⟨InvertedList.wellFormed_cut hwell hkeep, hlayout.symm, hroom, rfl,
        InvertedList.published_cut hwell hkeep⟩
    · rw [hneeds]
      simp [hroom, hlayout, hsole]
  · -- a copy takes its place
    have hnew : s.nextId ≠ id := (ne_nextId hfind).symm
    refine ⟨s.nextId, s.replaced id after, after, hreplaced, list?_replaced_nextId hfind after,
      hcopied.resized hwell hdim hkeep (Nat.min_le_right _ _) hcapacity,
      iff_of_true hnew (hneeds.mpr hwhy), fun _ => ⟨hcopied.fresh hcapacity, find?_nextId s,
        find?_replaced hfind after⟩, fun other hne hother => find?_replaced_ne s after hne hother⟩

/-- A store with one list of one record, which has two holders. -/
def sharedSingle : Store .u8 .i32 where
  budget := Budget.charged (.new none) 256
  lists := #[some { list := InvertedList.single, holders := 2, writing := false }]

set_option maxRecDepth 4000 in
/-- One holder asks for room and for another layout; the other one keeps the list as it was. -/
theorem resize_keeps_records_shared : ∃ new s' list,
    resize ⟨0⟩ (InvertedList.fourColumns 2 (by decide) .doubling) 40 1 sharedSingle = .ok new s' ∧
      s'.list? new = some list ∧ list.capacity = 64 ∧ list.published = [(7, [1, 2, 3, 4])] ∧
      s'.list? ⟨0⟩ = some InvertedList.single := by
  have hfind : sharedSingle.find? ⟨0⟩ =
      some { list := InvertedList.single, holders := 2, writing := false } := rfl
  have hwell : InvertedList.single.WellFormed :=
    ⟨Or.inr ⟨1, rfl⟩, by decide +kernel, by decide +kernel, by decide, by decide +kernel⟩
  have hgranted : CopyGranted InvertedList.single
      (InvertedList.fourColumns 2 (by decide) .doubling) 64 1 sharedSingle.budget :=
    ⟨⟨⟨by decide, by decide, nofun⟩, ⟨by decide, by decide, nofun⟩⟩,
      Or.inr (Or.inr ⟨by decide, by decide, nofun⟩)⟩
  rcases resize_keeps_records hfind hwell (InvertedList.fourColumns 2 (by decide) .doubling) 40 1
    with ⟨e, -, hdim | hused | ⟨-, -, hrefused⟩⟩ |
      ⟨new, s', list, hresize, hlist, hkept, hswap, hnew, -⟩
  · exact absurd rfl hdim
  · exact absurd hused (by decide)
  · exact absurd hgranted (hrefused 64 rfl)
  · have hneeds : new ≠ ⟨0⟩ := hswap.mpr (Or.inr (Or.inl (by decide)))
    obtain ⟨hfresh, -, hold⟩ := hnew hneeds
    refine ⟨new, s', list, hresize, hlist, ?_, ?_, list?_of_find? hold⟩
    · have hcapacity : some 64 = some list.capacity := hfresh.capacity_eq
      exact (Option.some.inj hcapacity).symm
    · rw [hkept.published_eq]
      decide +kernel

end Store

end InvertedFile
