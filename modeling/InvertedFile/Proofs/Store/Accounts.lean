import Mathlib.Data.List.Dedup
import InvertedFile.Proofs.InvertedList.Evolution
import InvertedFile.Proofs.Store.Places

/-!
# The accounts of a store

A store does not know who holds its lists; it only counts. `Accounts` ties
the counts to a list of references: a list of the store is there exactly as
long as there is a reference to it, and its count is the number of these
references. The budget counts the bytes of the lists that are there, and the
`pending` bytes of lists that are made and not yet taken in.

References are passed around like resources. An operation takes those it was
given, `id :: refs`, and leaves those it gives back; the `refs` it does not
know of stay as they are. What their holders see of it is `Leaves`, that the
lists they hold are as they were, or at least `Keeps`: they are still there,
with their published records untouched.

## Main results

* `Accounts.hold`, `Accounts.release`, `Accounts.pushed` — references come and
  go together with the counts and the bytes.
* `Accounts.update` — a list of the store is written.
* `Accounts.inUse_eq_sum` — the bytes in use are those of the lists that are
  referred to, each once.
* `Leaves.of_release`, `Keeps.of_update` — what others see of it.
-/

namespace InvertedFile.Store

variable {t : ElementType} {i : IdType}

/-- What is in a place that so many references lead to: a list with this count, if it is not
zero. -/
def Fits (count : Nat) : Option (Holding t i) → Prop
  | none => count = 0
  | some h => h.list.WellFormed ∧ h.list.Hosted ∧ h.holders = count ∧ 0 < count

/-- The lists of a store are those that are referred to, and the counts are right. -/
structure Accounts (s : Store t i) (refs : List ListId) (pending : Nat) : Prop where
  places : ∀ id, Fits (refs.count id) (s.find? id)
  inUse_eq : s.budget.inUse = s.listBytes + pending
  budget : s.budget.Sound

/-- The lists that are referred to are still there, and have at most been written behind their
published records. -/
def Keeps (refs : List ListId) (s s' : Store t i) : Prop :=
  ∀ id ∈ refs, ∀ l, s.list? id = some l → ∃ l', s'.list? id = some l' ∧ l.Evolves l'

/-- The lists that are referred to are as they were. -/
def Leaves (refs : List ListId) (s s' : Store t i) : Prop :=
  ∀ id ∈ refs, s'.list? id = s.list? id

/-- Two stores with the same budget and the same lists, each held as often in one as in the
other. -/
structure Same (s s' : Store t i) : Prop where
  budget_eq : s'.budget = s.budget
  find?_eq : ∀ id, s'.find? id = s.find? id

/-- Two stores with the same budget that have the same under the first `n` names. -/
structure SameBelow (n : Nat) (s s' : Store t i) : Prop where
  budget_eq : s'.budget = s.budget
  find?_eq : ∀ id : ListId, id.number < n → s'.find? id = s.find? id

namespace SameBelow

variable {n : Nat} {s s' : Store t i}

/-- A list that is taken in gets a name behind the others. -/
theorem pushed (h : SameBelow n s s') (hn : n ≤ s'.lists.size) (list : InvertedList t i) :
    SameBelow n s (s'.pushed list) where
  budget_eq := h.budget_eq
  find?_eq := by
    intro id hlt
    have hne : id ≠ s'.nextId := by
      rintro rfl
      exact absurd hlt (Nat.not_lt.mpr hn)
    rw [find?_pushed_ne s' list hne, h.find?_eq id hlt]

theorem release (h : SameBelow n s s') (id : ListId) (hid : id.number < n) :
    SameBelow n (s.release id) (s'.release id) := by
  have hfind' := h.find?_eq id hid
  cases hfind : s.find? id with
  | none =>
      rw [hfind] at hfind'
      rw [Store.release, hfind, Store.release, hfind']
      exact h
  | some holding =>
      rw [hfind] at hfind'
      constructor
      · by_cases hlast : holding.holders ≤ 1
        · rw [release_last hfind hlast, release_last hfind' hlast]
          exact congrArg (Budget.release holding.list.reserved) h.budget_eq
        · rw [release_shared hfind hlast, release_shared hfind' hlast]
          exact h.budget_eq
      · intro other hlt
        by_cases heq : other = id
        · rw [heq, find?_release_self hfind, find?_release_self hfind']
        · rw [find?_release_ne _ heq, find?_release_ne _ heq, h.find?_eq other hlt]

end SameBelow

namespace Same

theorem refl (s : Store t i) : Same s s := ⟨rfl, fun _ => rfl⟩

theorem trans {a b c : Store t i} (hab : Same a b) (hbc : Same b c) : Same a c where
  budget_eq := hbc.budget_eq.trans hab.budget_eq
  find?_eq := fun id => (hbc.find?_eq id).trans (hab.find?_eq id)

/-- A holder that has come and gone leaves no trace. -/
theorem release_hold {s : Store t i} {id : ListId} {h : Holding t i}
    (hfind : s.find? id = some h) (hheld : 0 < h.holders) : Same s ((s.hold id).release id) := by
  have hself := find?_hold_self hfind
  have hshared : ¬ h.holders + 1 ≤ 1 := by omega
  constructor
  · rw [release_shared hself hshared]
    exact budget_hold s id
  · intro other
    by_cases heq : other = id
    · subst heq
      rw [find?_release_shared hself hshared, hfind]
      simp
    · rw [find?_release_ne _ heq, find?_hold_ne _ heq]

/-- Stores that are the same have the same under any number of names. -/
theorem below {s s' : Store t i} (h : Same s s') (n : Nat) : SameBelow n s s' :=
  ⟨h.budget_eq, fun id _ => h.find?_eq id⟩

theorem release {s s' : Store t i} (h : Same s s') (id : ListId) :
    Same (s.release id) (s'.release id) where
  budget_eq := ((h.below (id.number + 1)).release id (Nat.lt_succ_self _)).budget_eq
  find?_eq := by
    intro other
    have hbelow := (h.below (id.number + other.number + 1)).release id (by omega)
    exact hbelow.find?_eq other (by omega)

theorem leaves {s s' : Store t i} (h : Same s s') (refs : List ListId) : Leaves refs s s' :=
  fun id _ => list?_congr (h.find?_eq id)

end Same

namespace Leaves

variable {refs : List ListId}

theorem refl (refs : List ListId) (s : Store t i) : Leaves refs s s :=
  fun _ _ => rfl

theorem trans {a b c : Store t i} (hab : Leaves refs a b) (hbc : Leaves refs b c) :
    Leaves refs a c :=
  fun id hid => (hbc id hid).trans (hab id hid)

theorem mono {refs' : List ListId} {s s' : Store t i} (h : Leaves refs s s')
    (hsub : ∀ id ∈ refs', id ∈ refs) : Leaves refs' s s' :=
  fun id hid => h id (hsub id hid)

theorem of_hold (refs : List ListId) (s : Store t i) (id : ListId) : Leaves refs s (s.hold id) :=
  fun other _ => list?_hold s id other

end Leaves

theorem Leaves.keeps {refs : List ListId} {s s' : Store t i} (h : Leaves refs s s') :
    Keeps refs s s' := by
  intro id hid l hl
  exact ⟨l, (h id hid).trans hl, .refl l⟩

namespace Keeps

variable {refs : List ListId}

theorem refl (refs : List ListId) (s : Store t i) : Keeps refs s s :=
  (Leaves.refl refs s).keeps

theorem trans {a b c : Store t i} (hab : Keeps refs a b) (hbc : Keeps refs b c) :
    Keeps refs a c := by
  intro id hid l hl
  obtain ⟨l', hl', hevolves⟩ := hab id hid l hl
  obtain ⟨l'', hl'', hevolves'⟩ := hbc id hid l' hl'
  exact ⟨l'', hl'', hevolves.trans hevolves'⟩

theorem mono {refs' : List ListId} {s s' : Store t i} (h : Keeps refs s s')
    (hsub : ∀ id ∈ refs', id ∈ refs) : Keeps refs' s s' :=
  fun id hid => h id (hsub id hid)

end Keeps

namespace Accounts

variable {s s' : Store t i} {refs refs' : List ListId} {pending : Nat}

theorem new (limit : Option Nat) : (Store.new t i limit).Accounts [] 0 where
  places := fun _ => rfl
  inUse_eq := rfl
  budget := Budget.sound_new limit

section Lookup

variable {id : ListId} {holding : Holding t i}

theorem wellFormed (h : s.Accounts refs pending) (hfind : s.find? id = some holding) :
    holding.list.WellFormed := by
  have hplace := h.places id
  rw [hfind] at hplace
  exact hplace.1

theorem hosted (h : s.Accounts refs pending) (hfind : s.find? id = some holding) :
    holding.list.Hosted := by
  have hplace := h.places id
  rw [hfind] at hplace
  exact hplace.2.1

theorem wellFormed_list (h : s.Accounts refs pending) {l : InvertedList t i}
    (hl : s.list? id = some l) : l.WellFormed := by
  obtain ⟨holding, hfind, rfl⟩ := list?_eq_some_iff.mp hl
  exact h.wellFormed hfind

theorem hosted_list (h : s.Accounts refs pending) {l : InvertedList t i}
    (hl : s.list? id = some l) : l.Hosted := by
  obtain ⟨holding, hfind, rfl⟩ := list?_eq_some_iff.mp hl
  exact h.hosted hfind

theorem mem (h : s.Accounts refs pending) (hfind : s.find? id = some holding) : id ∈ refs := by
  have hplace := h.places id
  rw [hfind] at hplace
  exact List.count_pos_iff.mp hplace.2.2.2

theorem holders_eq (h : s.Accounts refs pending) (hfind : s.find? id = some holding) :
    holding.holders = refs.count id := by
  have hplace := h.places id
  rw [hfind] at hplace
  exact hplace.2.2.1

/-- A list that is there is held. -/
theorem holders_pos (h : s.Accounts refs pending) (hfind : s.find? id = some holding) :
    0 < holding.holders := by
  have hplace := h.places id
  rw [hfind] at hplace
  rw [hplace.2.2.1]
  exact hplace.2.2.2

theorem found (h : s.Accounts refs pending) (hid : id ∈ refs) : ∃ h, s.find? id = some h := by
  have hplace := h.places id
  cases hfind : s.find? id with
  | some holding => exact ⟨holding, rfl⟩
  | none =>
      rw [hfind] at hplace
      exact absurd hid (List.count_eq_zero.mp hplace)

theorem nextId_notMem (h : s.Accounts refs pending) : s.nextId ∉ refs := by
  intro hid
  obtain ⟨holding, hfind⟩ := h.found hid
  rw [find?_nextId] at hfind
  cases hfind

/-- A list of one holder is not held by anybody else. -/
theorem notMem_of_holders_le (h : s.Accounts (id :: refs) pending)
    (hfind : s.find? id = some holding) (hsole : holding.holders ≤ 1) : id ∉ refs := by
  have hcount := h.holders_eq hfind
  rw [List.count_cons_self] at hcount
  exact List.count_eq_zero.mp (by omega)

end Lookup

/-- Only the number of references matters, not their order. -/
theorem congr (h : s.Accounts refs pending) (hcount : ∀ id, refs'.count id = refs.count id) :
    s.Accounts refs' pending where
  places := fun id => hcount id ▸ h.places id
  inUse_eq := h.inUse_eq
  budget := h.budget

theorem same (h : s.Accounts refs pending) (hsame : Same s s') : s'.Accounts refs pending where
  places := fun id => (hsame.find?_eq id).symm ▸ h.places id
  inUse_eq := by rw [hsame.budget_eq, listBytes_congr hsame.find?_eq, h.inUse_eq]
  budget := hsame.budget_eq ▸ h.budget

/-- A change to one place. -/
theorem places_of (h : s.Accounts refs pending) (id : ListId)
    (hself : Fits (refs'.count id) (s'.find? id))
    (hother : ∀ other ≠ id, s'.find? other = s.find? other)
    (hcount : ∀ other ≠ id, refs'.count other = refs.count other) :
    ∀ other, Fits (refs'.count other) (s'.find? other) := by
  intro other
  by_cases heq : other = id
  · rw [heq]
    exact hself
  · rw [hother other heq, hcount other heq]
    exact h.places other

theorem hold (h : s.Accounts refs pending) {id : ListId} (hid : id ∈ refs) :
    (s.hold id).Accounts (id :: refs) pending := by
  obtain ⟨holding, hfind⟩ := h.found hid
  have hwell := h.wellFormed hfind
  have hhosted := h.hosted hfind
  have hbytes := listBytes_update hfind (some { holding with holders := holding.holders + 1 })
  rw [← hold_of_find? hfind] at hbytes
  simp only [placeBytes] at hbytes
  constructor
  · apply h.places_of id
    · rw [find?_hold_self hfind, List.count_cons_self]
      exact ⟨hwell, hhosted, congrArg (· + 1) (h.holders_eq hfind),
        Nat.succ_pos _⟩
    · exact fun other hne => find?_hold_ne s hne
    · exact fun other hne => List.count_cons_of_ne (Ne.symm hne)
  · rw [budget_hold, h.inUse_eq]
    omega
  · rw [budget_hold]
    exact h.budget

theorem release {id : ListId} (h : s.Accounts (id :: refs) pending) :
    (s.release id).Accounts refs pending := by
  obtain ⟨holding, hfind⟩ := h.found (List.mem_cons_self ..)
  have hwell := h.wellFormed hfind
  have hhosted := h.hosted hfind
  have hcount := h.holders_eq hfind
  rw [List.count_cons_self] at hcount
  have hne : ∀ other ≠ id, refs.count other = (id :: refs).count other :=
    fun other hne => (List.count_cons_of_ne (Ne.symm hne)).symm
  have hinUse := h.inUse_eq
  by_cases hlast : holding.holders ≤ 1
  · -- the last reference goes, and the bytes of the list with it
    have hbytes := listBytes_update hfind none
    have hzero : refs.count id = 0 := by omega
    constructor
    · apply h.places_of id
      · rw [find?_release_last hfind hlast]
        exact hzero
      · exact fun other hne => find?_release_ne s hne
      · exact hne
    · rw [release_last hfind hlast]
      show s.budget.inUse - holding.list.reserved = (s.update id none).listBytes + pending
      simp only [placeBytes] at hbytes
      omega
    · rw [release_last hfind hlast]
      exact h.budget.release _
  · have hbytes :=
      listBytes_update hfind (some { holding with holders := holding.holders - 1 })
    rw [← release_shared hfind hlast] at hbytes
    simp only [placeBytes] at hbytes
    have hbudget : (s.release id).budget = s.budget := by
      rw [release_shared hfind hlast]
      rfl
    constructor
    · apply h.places_of id
      · rw [find?_release_shared hfind hlast]
        refine ⟨hwell, hhosted, ?_, ?_⟩
        · show holding.holders - 1 = _
          omega
        · omega
      · exact fun other hne => find?_release_ne s hne
      · exact hne
    · rw [hbudget]
      omega
    · rw [hbudget]
      exact h.budget

/-- A list whose bytes are charged is taken in. -/
theorem pushed {list : InvertedList t i} (h : s.Accounts refs (pending + list.reserved))
    (hwell : list.WellFormed) (hhosted : list.Hosted) :
    (s.pushed list).Accounts (s.nextId :: refs) pending := by
  have hinUse := h.inUse_eq
  constructor
  · apply h.places_of s.nextId
    · rw [find?_pushed_self, List.count_cons_self, List.count_eq_zero.mpr h.nextId_notMem]
      exact ⟨hwell, hhosted, rfl, Nat.one_pos⟩
    · exact fun other hne => find?_pushed_ne s list hne
    · exact fun other hne => List.count_cons_of_ne (Ne.symm hne)
  · rw [listBytes_pushed]
    show s.budget.inUse = _
    omega
  · exact h.budget

/-- What is in a place is changed, but neither its count nor its bytes. -/
theorem update (h : s.Accounts refs pending) {id : ListId} {old new : Holding t i}
    (hfind : s.find? id = some old) (hwell : new.list.WellFormed) (hhosted : new.list.Hosted)
    (hholders : new.holders = old.holders) (hreserved : new.list.reserved = old.list.reserved) :
    (s.update id (some new)).Accounts refs pending := by
  have hbytes := listBytes_update hfind (some new)
  simp only [placeBytes] at hbytes
  have hinUse := h.inUse_eq
  constructor
  · apply h.places_of id
    · rw [find?_update_self s _ hfind]
      have hpos := h.holders_pos hfind
      have hcount := h.holders_eq hfind
      exact ⟨hwell, hhosted, hholders.trans hcount, hcount ▸ hpos⟩
    · exact fun other hne => find?_update_ne s _ hne
    · exact fun other _ => rfl
  · show s.budget.inUse = _
    omega
  · exact h.budget

/-- Bytes are charged for a list that is not yet taken in. -/
theorem charged (h : s.Accounts refs pending) {bytes : Nat}
    (hbudget : (s.budget.charged bytes).Sound) :
    (s.charged bytes).Accounts refs (pending + bytes) where
  places := h.places
  inUse_eq := by
    have hinUse := h.inUse_eq
    show s.budget.inUse + bytes = s.listBytes + (pending + bytes)
    omega
  budget := hbudget

/-- A list takes no more bytes than are in use. -/
theorem reserved_le (h : s.Accounts refs pending) {id : ListId} {holding : Holding t i}
    (hfind : s.find? id = some holding) : holding.list.reserved ≤ s.budget.inUse := by
  have hbytes := reserved_le_listBytes hfind
  have hinUse := h.inUse_eq
  omega

/-- The bytes in use are those of the lists that are referred to, each once. -/
theorem inUse_eq_sum (h : s.Accounts refs 0) :
    s.budget.inUse = ((refs.dedup.filterMap s.list?).map (·.reserved)).sum := by
  have hall : ∀ id, (s.find? id).isSome → id ∈ refs.dedup := by
    intro id hfound
    obtain ⟨holding, hfind⟩ := Option.isSome_iff_exists.mp hfound
    exact List.mem_dedup.mpr (h.mem hfind)
  rw [sum_reserved_eq s refs.nodup_dedup hall, h.inUse_eq, Nat.add_zero]

/-- As many bytes are in use in a store that has kept the lists of another one, with as many
references to each. -/
theorem inUse_keeps (h : s.Accounts refs 0) (h' : s'.Accounts refs 0) (hkeeps : Keeps refs s s') :
    s'.budget.inUse = s.budget.inUse := by
  rw [h.inUse_eq_sum, h'.inUse_eq_sum, List.map_filterMap, List.map_filterMap]
  congr 1
  apply List.filterMap_congr
  intro id hid
  obtain ⟨holding, hfind⟩ := h.found (List.mem_dedup.mp hid)
  have hl := list?_of_find? hfind
  obtain ⟨l', hl', hevolves⟩ := hkeeps id (List.mem_dedup.mp hid) _ hl
  rw [hl, hl', Option.map_some, Option.map_some, hevolves.reserved_eq]

end Accounts

namespace Same

variable {s s' : Store t i} {id : ListId} {holding : Holding t i}

/-- A list that stays when its holder lets go has cost nothing. -/
theorem budget_eq_of_found (h : Same s (s'.release id)) (hfind : s'.find? id = some holding)
    (hfound : s.find? id ≠ none) : s'.budget = s.budget := by
  have hleft := h.find?_eq id
  rw [find?_release_self hfind, letGo] at hleft
  by_cases hlast : holding.holders ≤ 1
  · rw [if_pos hlast] at hleft
    exact absurd hleft.symm hfound
  · rw [← h.budget_eq, release_shared hfind hlast]
    rfl

/-- A list that goes when its holder lets go has cost its bytes. -/
theorem budget_eq_of_new {refs : List ListId} {pending : Nat} (h : Same s (s'.release id))
    (hacc : s'.Accounts refs pending) (hfind : s'.find? id = some holding)
    (hnew : s.find? id = none) : s'.budget = s.budget.charged holding.list.reserved := by
  have hle := hacc.reserved_le hfind
  have hleft := h.find?_eq id
  have hbudget := h.budget_eq
  rw [find?_release_self hfind, letGo, hnew] at hleft
  by_cases hlast : holding.holders ≤ 1
  · rw [release_last hfind hlast] at hbudget
    rw [← hbudget]
    show s'.budget = (s'.budget.release holding.list.reserved).charged holding.list.reserved
    simp [Budget.charged, Budget.release, Nat.sub_add_cancel hle]
  · rw [if_neg hlast] at hleft
    cases hleft

end Same

/-! ## What others see -/

section Others

variable {s : Store t i} {refs : List ListId} {pending : Nat} {id : ListId}

/-- A reference that goes does not harm the others. -/
theorem Leaves.of_release (h : s.Accounts (id :: refs) pending) :
    Leaves refs s (s.release id) := by
  obtain ⟨holding, hfind⟩ := h.found (List.mem_cons_self ..)
  intro other hother
  by_cases heq : other = id
  · subst heq
    have hshared : ¬ holding.holders ≤ 1 :=
      fun hlast => h.notMem_of_holders_le hfind hlast hother
    rw [list?_of_find? (find?_release_shared hfind hshared), list?_of_find? hfind]
  · exact list?_congr (find?_release_ne s heq)

theorem Leaves.of_pushed (h : s.Accounts refs pending) (list : InvertedList t i) :
    Leaves refs s (s.pushed list) := by
  intro other hother
  have hne : other ≠ s.nextId := fun heq => h.nextId_notMem (heq ▸ hother)
  exact list?_congr (find?_pushed_ne s list hne)

/-- A change to a list that nobody else holds. -/
theorem Leaves.of_update (hnot : id ∉ refs) (new : Option (Holding t i)) :
    Leaves refs s (s.update id new) := by
  intro other hother
  have hne : other ≠ id := fun heq => hnot (heq ▸ hother)
  exact list?_congr (find?_update_ne s new hne)

/-- A list that evolves, whoever holds it. -/
theorem Keeps.of_update (refs : List ListId) {old new : Holding t i} (hfind : s.find? id = some old)
    (hevolves : old.list.Evolves new.list) : Keeps refs s (s.update id (some new)) := by
  intro other _ l hl
  by_cases heq : other = id
  · subst heq
    rw [list?_of_find? hfind] at hl
    cases hl
    exact ⟨new.list, list?_of_find? (find?_update_self s _ hfind), hevolves⟩
  · exact ⟨l, (list?_congr (find?_update_ne s _ heq)).trans hl, .refl l⟩

end Others

end InvertedFile.Store
