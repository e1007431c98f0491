import InvertedFile.Proofs.InvertedList.Copy
import InvertedFile.Proofs.Store.Accounts
import InvertedFile.Proofs.Store.Writers
import InvertedFile.Store.Resize

/-!
# How a resize ends

A resize either fails and changes nothing, or it ends in one of three ways:
the list stays, the list is cut in place, or a copy takes its place and the
list is let go. `resize_cases` tells which, from the arguments, the list and
the number of its holders, and everything that is to be known of a resize is
read off it.

The copy is a fresh list, so that what stands behind its published records
are unused slots, whatever stood there in the original.

## Main results

* `copyOf_cases` — a copy is made exactly when its buffers are granted.
* `duplicate_eq` — holding the writer of a list does nothing to the copy.
* `resize_cases` — the ways in which a resize ends.
* `resize_accounts` — the reference that a resize is given turns into the one
  it gives back, and the other holders see nothing of it.
-/

namespace InvertedFile.Store

variable {t : ElementType} {i : IdType}

/-! ## The copy -/

/-- The buffers of a copy are granted, and the flat buffer where the records must change their
order. -/
structure CopyGranted (source : InvertedList t i) (spec : ListSpec) (capacity keep : Nat)
    (b : Budget) : Prop where
  list : InvertedList.Granted t i spec capacity b
  flat : keep = 0 ∨ source.spec.layout = spec.layout ∨
    (b.charged (InvertedList.blank t i spec capacity).reserved).Grants
      (keep * source.spec.dim * t.size)

/-- A copy is made exactly when there is a capacity for it and its buffers are granted. -/
theorem copyOf_cases {source : InvertedList t i} (hsource : source.WellFormed) {spec : ListSpec}
    (hdim : spec.dim = source.spec.dim) {records keep : Nat} (hkeep : keep ≤ source.size)
    (hrecords : keep ≤ records) (b : Budget) :
    ((∃ e, copyOf source spec records keep b = .error e b ∧ e.IsAllocation) ∧
        ∀ capacity, spec.growth.capacity? records = some capacity →
          ¬ CopyGranted source spec capacity keep b) ∨
      ∃ capacity after, spec.growth.capacity? records = some capacity ∧
        CopyGranted source spec capacity keep b ∧
        copyOf source spec records keep b = .ok after (b.charged after.reserved) ∧
        source.Copied (.blank t i spec capacity) keep after := by
  cases hcreate : InvertedList.create t i spec records b with
  | error e b' =>
      obtain ⟨he, rfl⟩ := InvertedList.create_error hcreate
      left
      refine ⟨⟨e, Action.bind_error hcreate, he⟩, ?_⟩
      intro capacity hcapacity hgranted
      have hok := InvertedList.create_ok_iff.mpr ⟨capacity, hcapacity, hgranted.list, rfl, rfl⟩
      rw [hcreate] at hok
      cases hok
  | ok dest b' =>
      obtain ⟨capacity, hcapacity, hlist, rfl, rfl⟩ := InvertedList.create_ok_iff.mp hcreate
      have hdest := InvertedList.wellFormed_blank (t := t) (i := i) hcapacity
      have hroom : keep ≤ capacity := Nat.le_trans hrecords (Growth.le_capacity hcapacity)
      by_cases hflat : keep = 0 ∨ source.spec.layout = spec.layout ∨
          (b.charged (InvertedList.blank t i spec capacity).reserved).Grants
            (keep * source.spec.dim * t.size)
      · right
        obtain ⟨after, hcopy, hcopied⟩ :=
          InvertedList.copyRecords_ok hsource hdest hdim.symm hkeep hroom hflat
        refine ⟨capacity, after, hcapacity, ⟨hlist, hflat⟩, ?_, hcopied⟩
        rw [hcopied.reserved_eq, copyOf, Action.bind_ok hcreate]
        exact Action.undoing_ok.mpr hcopy
      · left
        simp only [not_or] at hflat
        obtain ⟨hzero, hlayout, hgrants⟩ := hflat
        have hroomBlank : keep ≤ (InvertedList.blank t i spec capacity).capacity := hroom
        obtain ⟨e, hcopy, he⟩ :=
          InvertedList.copyRecords_refused hroomBlank hzero hlayout hgrants
        refine ⟨⟨e, ?_, he⟩, ?_⟩
        · rw [copyOf, Action.bind_ok hcreate]
          exact Action.undoing_error.mpr ⟨_, hcopy, Budget.release_charged _ _⟩
        · intro other hother hgranted
          rw [hcapacity] at hother
          cases hother
          rcases hgranted.flat with h | h | h
          · exact hzero h
          · exact hlayout h
          · exact hgrants h

/-! ## The resize -/

/-- A store in which a list has taken the place of another one, for one of its holders. -/
def replaced (s : Store t i) (id : ListId) (list : InvertedList t i) : Store t i :=
  ((s.charged list.reserved).pushed list).release id

@[simp]
theorem limit_replaced (s : Store t i) (id : ListId) (list : InvertedList t i) :
    (s.replaced id list).budget.limit = s.budget.limit :=
  limit_release _ id

theorem isPart_budget : Action.IsPart (Store.budget : Store t i → Budget)
    (fun s b => { s with budget := b }) where
  part_put := fun _ _ => rfl
  put_part := fun _ => rfl
  put_put := fun _ _ _ => rfl

/-- A copy of a list is the copy of its records, whoever has the writer. -/
theorem duplicate_eq {s : Store t i} {id : ListId} {h : Holding t i} (hfind : s.find? id = some h)
    (source : InvertedList t i) (spec : ListSpec) (records keep : Nat) :
    duplicate id source spec records keep s = budgeted (copyOf source spec records keep) s := by
  rw [copyOf, budgeted, isPart_budget.focus_bind]
  refine Action.bind_congr fun dest s' hcreate => ?_
  rw [isPart_budget.focus_undoing]
  -- the buffers of the copy are charged, and the list is still there
  obtain ⟨b, -, rfl⟩ := Action.focus_eq_ok.mp hcreate
  unfold Action.undoing
  rw [withWriter_budgeted (s := { s with budget := b }) hfind]
  rfl

/-- A list is replaced exactly when a copy is made. -/
theorem replace_cases {s : Store t i} {id : ListId} {h : Holding t i} (hfind : s.find? id = some h)
    {source : InvertedList t i} (hsource : source.WellFormed) {spec : ListSpec}
    (hdim : spec.dim = source.spec.dim) {records keep : Nat} (hkeep : keep ≤ source.size)
    (hrecords : keep ≤ records) :
    ((∃ e, replace id source spec records keep s = .error e s ∧ e.IsAllocation) ∧
        ∀ capacity, spec.growth.capacity? records = some capacity →
          ¬ CopyGranted source spec capacity keep s.budget) ∨
      ∃ capacity after, spec.growth.capacity? records = some capacity ∧
        CopyGranted source spec capacity keep s.budget ∧
        replace id source spec records keep s = .ok s.nextId (s.replaced id after) ∧
        source.Copied (.blank t i spec capacity) keep after := by
  rcases copyOf_cases hsource hdim hkeep hrecords s.budget with
    ⟨⟨e, hcopy, he⟩, hnot⟩ | ⟨capacity, after, hcapacity, hgranted, hcopy, hcopied⟩
  · left
    have hduplicate : duplicate id source spec records keep s = .error e s :=
      (duplicate_eq hfind source spec records keep).trans (Action.focus_error hcopy)
    exact ⟨⟨e, Action.bind_error hduplicate, he⟩, hnot⟩
  · right
    have hduplicate : duplicate id source spec records keep s =
        .ok after (s.charged after.reserved) :=
      (duplicate_eq hfind source spec records keep).trans (Action.focus_ok hcopy)
    refine ⟨capacity, after, hcapacity, hgranted, ?_, hcopied⟩
    rw [replace, Action.bind_ok hduplicate, Action.bind_ok (insert_ok _ _)]
    rfl

section Resize

variable {s : Store t i} {id : ListId} {h : Holding t i} {spec : ListSpec} {records used : Nat}

/-- A spec of another width is refused. -/
theorem resize_dim (hfind : s.find? id = some h) (hdim : spec.dim ≠ h.list.spec.dim) :
    resize id spec records used s =
      .error (.invalid (.resizeDim h.list.spec.dim spec.dim)) s := by
  rw [resize, Action.bind_ok (holding_ok hfind),
    Action.bind_error (Action.ensure_error hdim _)]

/-- Records that are not published are not kept. -/
theorem resize_used (hfind : s.find? id = some h) (hdim : spec.dim = h.list.spec.dim)
    (hused : ¬ used ≤ h.list.size) :
    resize id spec records used s = .error (.outOfBounds .usedRecords used h.list.size) s := by
  rw [resize, Action.bind_ok (holding_ok hfind), Action.bind_ok (Action.ensure_ok hdim s),
    Action.bind_error (Action.ensure_error hused _)]

/-- What is left behind the checks is the choice between the three ways. -/
theorem resize_checked (hfind : s.find? id = some h) (hdim : spec.dim = h.list.spec.dim)
    (hused : used ≤ h.list.size) :
    resize id spec records used s = (do
      if records ≤ h.list.capacity ∧ spec.layout = h.list.spec.layout then
        if min used records = h.list.size then return id
        else if h.holders ≤ 1 then
          onList id (InvertedList.setSize (min used records))
          return id
        else replace id h.list spec records (min used records)
      else replace id h.list spec records (min used records) : Action (Store t i) ListId) s := by
  rw [resize, Action.bind_ok (holding_ok hfind), Action.bind_ok (Action.ensure_ok hdim s),
    Action.bind_ok (Action.ensure_ok hused s)]

/-- A list that has no room, or that is shared and is to be cut, is replaced. -/
theorem resize_eq_replace (hfind : s.find? id = some h) (hdim : spec.dim = h.list.spec.dim)
    (hused : used ≤ h.list.size)
    (hwhy : ¬ (records ≤ h.list.capacity ∧ spec.layout = h.list.spec.layout) ∨
      min used records ≠ h.list.size ∧ ¬ h.holders ≤ 1) :
    resize id spec records used s = replace id h.list spec records (min used records) s := by
  rw [resize_checked hfind hdim hused]
  by_cases hfits : records ≤ h.list.capacity ∧ spec.layout = h.list.spec.layout
  · obtain ⟨hcut, hshared⟩ := hwhy.resolve_left (not_not_intro hfits)
    rw [if_pos hfits, if_neg hcut, if_neg hshared]
  · rw [if_neg hfits]

/-- The ways in which a resize ends. -/
theorem resize_cases (hfind : s.find? id = some h) (hwell : h.list.WellFormed) (spec : ListSpec)
    (records used : Nat) :
    (∃ e, resize id spec records used s = .error e s ∧
        (spec.dim ≠ h.list.spec.dim ∨ h.list.size < used ∨
          (¬ (records ≤ h.list.capacity ∧ spec.layout = h.list.spec.layout) ∨
              min used records ≠ h.list.size ∧ ¬ h.holders ≤ 1) ∧
            e.IsAllocation ∧ ∀ capacity, spec.growth.capacity? records = some capacity →
              ¬ CopyGranted h.list spec capacity (min used records) s.budget)) ∨
      spec.dim = h.list.spec.dim ∧ used ≤ h.list.size ∧
        ((records ≤ h.list.capacity ∧ spec.layout = h.list.spec.layout ∧
            min used records = h.list.size ∧ resize id spec records used s = .ok id s) ∨
          (records ≤ h.list.capacity ∧ spec.layout = h.list.spec.layout ∧
            min used records ≠ h.list.size ∧ h.holders ≤ 1 ∧
            resize id spec records used s = .ok id
              (s.update id
                (some { h with list := { h.list with size := min used records } }))) ∨
          (¬ (records ≤ h.list.capacity ∧ spec.layout = h.list.spec.layout) ∨
              min used records ≠ h.list.size ∧ ¬ h.holders ≤ 1) ∧
            ∃ capacity after, spec.growth.capacity? records = some capacity ∧
              CopyGranted h.list spec capacity (min used records) s.budget ∧
              resize id spec records used s = .ok s.nextId (s.replaced id after) ∧
              h.list.Copied (.blank t i spec capacity) (min used records) after) := by
  by_cases hdim : spec.dim = h.list.spec.dim
  swap
  · exact Or.inl ⟨_, resize_dim hfind hdim, Or.inl hdim⟩
  by_cases hused : used ≤ h.list.size
  swap
  · exact Or.inl ⟨_, resize_used hfind hdim hused, Or.inr (Or.inl (by omega))⟩
  have hkeep : min used records ≤ h.list.size := Nat.le_trans (Nat.min_le_left _ _) hused
  have hroom : min used records ≤ h.list.capacity := Nat.le_trans hkeep hwell.size_le
  -- what is left is the choice between the three ways
  by_cases hwhy : ¬ (records ≤ h.list.capacity ∧ spec.layout = h.list.spec.layout) ∨
      min used records ≠ h.list.size ∧ ¬ h.holders ≤ 1
  · rw [resize_eq_replace hfind hdim hused hwhy]
    rcases replace_cases hfind hwell hdim hkeep (Nat.min_le_right _ _) with
      ⟨⟨e, he, hallocation⟩, hnot⟩ | hreplaced
    · exact Or.inl ⟨e, he, Or.inr (Or.inr ⟨hwhy, hallocation, hnot⟩)⟩
    · exact Or.inr ⟨hdim, hused, Or.inr (Or.inr ⟨hwhy, hreplaced⟩)⟩
  · right
    obtain ⟨hfits, hcut⟩ := not_or.mp hwhy
    obtain ⟨hrecords, hlayout⟩ := not_not.mp hfits
    refine ⟨hdim, hused, ?_⟩
    rw [resize_checked hfind hdim hused, if_pos ⟨hrecords, hlayout⟩]
    by_cases hall : min used records = h.list.size
    · left
      refine ⟨hrecords, hlayout, hall, ?_⟩
      rw [if_pos hall]
      rfl
    · right
      left
      have hsole : h.holders ≤ 1 := by
        by_contra hshared
        exact hcut ⟨hall, hshared⟩
      refine ⟨hrecords, hlayout, hall, hsole, ?_⟩
      rw [if_neg hall, if_pos hsole,
        Action.bind_ok (onList_ok hfind (InvertedList.setSize_ok hroom))]
      rfl

end Resize

/-! ## References through a resize -/

section References

variable {s : Store t i} {id : ListId} {refs : List ListId} {pending : Nat}

/-- A list that a granted copy has made is taken in, and the one in whose place it stands is let
go. -/
theorem Accounts.replaced (h : s.Accounts (id :: refs) pending) {source after : InvertedList t i}
    {spec : ListSpec} {records capacity keep : Nat}
    (hcapacity : spec.growth.capacity? records = some capacity)
    (hgranted : CopyGranted source spec capacity keep s.budget)
    (hcopied : source.Copied (.blank t i spec capacity) keep after) (hkeep : keep ≤ capacity) :
    (s.replaced id after).Accounts (s.nextId :: refs) pending ∧
      Leaves refs s (s.replaced id after) := by
  have hblank := InvertedList.wellFormed_blank (t := t) (i := i) hcapacity
  have hwell := InvertedList.wellFormed_copied hcopied hblank hkeep
  have hhosted := (InvertedList.hosted_blank hgranted.list).congr hcopied.size_data hcopied.size_ids
  have hreserved : after.reserved = (InvertedList.blank t i spec capacity).reserved :=
    hcopied.reserved_eq
  have hcharged : (s.charged after.reserved).Accounts (id :: refs) (pending + after.reserved) :=
    h.charged (hreserved.symm ▸ hgranted.list.sound)
  have hpushed := hcharged.pushed hwell hhosted
  have hswap : ((s.charged after.reserved).pushed after).Accounts (id :: s.nextId :: refs)
      pending :=
    hpushed.congr fun other => (List.Perm.swap ..).count_eq other
  refine ⟨hswap.release, ?_⟩
  have hleavesCharged : Leaves refs s (s.charged after.reserved) := Leaves.refl refs s
  have hleavesPushed := (Leaves.of_pushed hcharged after).mono fun other hother =>
    List.mem_cons_of_mem id hother
  have hleavesRelease := (Leaves.of_release hswap).mono fun other hother =>
    List.mem_cons_of_mem s.nextId hother
  exact (hleavesCharged.trans hleavesPushed).trans hleavesRelease

/-- The reference that a resize is given turns into the one it gives back. -/
theorem resize_accounts (h : s.Accounts (id :: refs) pending) (spec : ListSpec)
    (records used : Nat) :
    (∃ e, resize id spec records used s = .error e s) ∨
      ∃ new s', resize id spec records used s = .ok new s' ∧
        s'.Accounts (new :: refs) pending ∧ Leaves refs s s' ∧
        s'.budget.limit = s.budget.limit := by
  obtain ⟨holding, hfind⟩ := h.found (List.mem_cons_self ..)
  have hwell := h.wellFormed hfind
  have hhosted := h.hosted hfind
  rcases resize_cases hfind hwell spec records used with
    ⟨e, he, -⟩ | ⟨-, hused, ⟨-, -, -, hstay⟩ | ⟨-, -, -, hsole, hcut⟩ |
      ⟨-, capacity, after, hcapacity, hgranted, hreplaced, hcopied⟩⟩
  · exact Or.inl ⟨e, he⟩
  · exact Or.inr ⟨id, s, hstay, h, Leaves.refl refs s, rfl⟩
  · right
    have hkeep : min used records ≤ holding.list.size := Nat.le_trans (Nat.min_le_left _ _) hused
    refine ⟨id, _, hcut, ?_, Leaves.of_update (h.notMem_of_holders_le hfind hsole) _, rfl⟩
    exact h.update hfind (InvertedList.wellFormed_cut hwell hkeep)
      (hhosted.congr rfl rfl) rfl rfl
  · right
    have hkeep : min used records ≤ capacity :=
      Nat.le_trans (Nat.min_le_right _ _) (Growth.le_capacity hcapacity)
    obtain ⟨hafter, hleaves⟩ := h.replaced hcapacity hgranted hcopied hkeep
    exact ⟨_, _, hreplaced, hafter, hleaves, limit_replaced s id after⟩

end References

end InvertedFile.Store
