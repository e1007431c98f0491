import InvertedFile.Proofs.Index.Placing
import InvertedFile.Workspace.Basic

/-!
# Workspaces in order

The lists of a store are held by the names of a workspace: a name of a list
holds one, a name of an index holds one for each label. A workspace is in
order when these are all the holders there are, together with those in the
middle of some operation, and the indexes are sound.

An operation takes a workspace out of order and puts it back. So `Sound` has
two parameters for what is on its way: the lists that are held by nobody's
name, and the bytes that are charged for no list. Putting a list or an index
under a name, and taking it from there, moves between them.

## Main results

* `Names.count_refs` — what a name refers to is counted with the others.
* `Sound.putList`, `Sound.putIndex` — what is held is put under a name.
* `Sound.withStore` — an operation on the store.
-/

namespace InvertedFile

namespace Names

variable {α : Type}

/-- The names that stand for something. -/
def keys (names : Names α) : List String :=
  names.map (·.1)

/-- All that the names refer to, where `f` tells what each value refers to. -/
def refs (f : α → List ListId) (names : Names α) : List ListId :=
  names.flatMap fun entry => f entry.2

@[simp]
theorem find?_nil (name : String) : find? ([] : Names α) name = none := rfl

theorem find?_cons_self (name : String) (a : α) (names : Names α) :
    find? ((name, a) :: names) name = some a :=
  List.lookup_cons_self

theorem find?_cons_ne {name other : String} (hne : other ≠ name) (a : α) (names : Names α) :
    find? ((name, a) :: names) other = find? names other := by
  rw [find?, find?, List.lookup_cons, beq_eq_false_iff_ne.mpr hne]

theorem find?_eq_none_iff {names : Names α} {name : String} :
    find? names name = none ↔ name ∉ names.keys := by
  induction names with
  | nil => simp [keys]
  | cons entry rest ih =>
      obtain ⟨key, a⟩ := entry
      by_cases heq : name = key
      · subst heq
        simp [find?_cons_self, keys]
      · rw [find?_cons_ne heq, ih]
        simp [keys, heq]

theorem mem_of_find? {names : Names α} {name : String} {a : α} (h : find? names name = some a) :
    (name, a) ∈ names := by
  induction names with
  | nil => cases h
  | cons entry rest ih =>
      obtain ⟨key, b⟩ := entry
      by_cases heq : name = key
      · subst heq
        rw [find?_cons_self, Option.some.injEq] at h
        rw [h]
        exact List.mem_cons_self ..
      · rw [find?_cons_ne heq] at h
        exact List.mem_cons_of_mem _ (ih h)

/-- A name that stands for nothing is not there to be taken away. -/
theorem erase_of_notMem {names : Names α} {name : String} (h : name ∉ names.keys) :
    names.erase name = names := by
  apply List.filter_eq_self.mpr
  intro entry hentry
  apply decide_eq_true
  rintro rfl
  exact h (List.mem_map.mpr ⟨entry, hentry, rfl⟩)

theorem erase_cons_self (name : String) (a : α) (names : Names α) :
    erase ((name, a) :: names) name = names.erase name :=
  List.filter_cons_of_neg (by simp)

theorem erase_cons_ne {key name : String} (hne : key ≠ name) (a : α) (names : Names α) :
    erase ((key, a) :: names) name = (key, a) :: names.erase name :=
  List.filter_cons_of_pos (by simpa using hne)

theorem find?_erase_self (names : Names α) (name : String) :
    find? (names.erase name) name = none := by
  rw [find?_eq_none_iff]
  intro hmem
  obtain ⟨entry, hentry, heq⟩ := List.mem_map.mp hmem
  exact of_decide_eq_true (List.mem_filter.mp hentry).2 heq

theorem find?_erase_ne {name other : String} (hne : other ≠ name) (names : Names α) :
    find? (names.erase name) other = find? names other := by
  induction names with
  | nil => rfl
  | cons entry rest ih =>
      obtain ⟨key, a⟩ := entry
      by_cases hkey : key = name
      · rw [hkey, erase_cons_self, ih, find?_cons_ne hne]
      · rw [erase_cons_ne hkey]
        by_cases heq : other = key
        · subst heq
          rw [find?_cons_self, find?_cons_self]
        · rw [find?_cons_ne heq, find?_cons_ne heq, ih]

theorem find?_put_self (names : Names α) (name : String) (a : α) :
    find? (names.put name a) name = some a :=
  find?_cons_self name a _

theorem find?_put_ne {name other : String} (hne : other ≠ name) (names : Names α) (a : α) :
    find? (names.put name a) other = find? names other := by
  rw [put, find?_cons_ne hne, find?_erase_ne hne]

theorem nodup_erase {names : Names α} (h : names.keys.Nodup) (name : String) :
    (names.erase name).keys.Nodup :=
  h.sublist (List.filter_sublist.map _)

theorem nodup_put {names : Names α} (h : names.keys.Nodup) (name : String) (a : α) :
    (names.put name a).keys.Nodup :=
  List.nodup_cons.mpr
    ⟨find?_eq_none_iff.mp (find?_erase_self names name), nodup_erase h name⟩

/-! ## What names refer to -/

variable {f : α → List ListId}

theorem mem_refs_of_find? {names : Names α} {name : String} {a : α} {id : ListId}
    (h : find? names name = some a) (hid : id ∈ f a) : id ∈ names.refs f :=
  List.mem_flatMap.mpr ⟨(name, a), mem_of_find? h, hid⟩

/-- What one name refers to is counted with what the others refer to. -/
theorem count_refs {names : Names α} (hkeys : names.keys.Nodup) {name : String} {a : α}
    (h : find? names name = some a) (id : ListId) :
    (names.refs f).count id = (f a).count id + ((names.erase name).refs f).count id := by
  induction names with
  | nil => cases h
  | cons entry rest ih =>
      obtain ⟨key, b⟩ := entry
      obtain ⟨hnot, hrest⟩ := List.nodup_cons.mp hkeys
      have hcons : ∀ names : Names α,
          (refs f ((key, b) :: names)).count id = (f b).count id + (names.refs f).count id := by
        intro names
        rw [refs, List.flatMap_cons, List.count_append]
        rfl
      by_cases heq : key = name
      · subst heq
        rw [find?_cons_self, Option.some.injEq] at h
        rw [hcons, erase_cons_self, erase_of_notMem hnot, h]
      · rw [find?_cons_ne (Ne.symm heq)] at h
        rw [hcons, erase_cons_ne heq, hcons, ih hrest h]
        omega

theorem refs_put (names : Names α) (name : String) (a : α) :
    (names.put name a).refs f = f a ++ (names.erase name).refs f :=
  List.flatMap_cons ..

end Names

namespace Workspace

variable {t : ElementType} {i : IdType}

/-- The lists that the names of a workspace hold, each as often as it is held. -/
def refs (w : Workspace t i) : List ListId :=
  w.lists.refs (fun id => [id]) ++ w.indexes.refs (fun x => x.slots.toList)

/-- The names hold the lists of the store, together with the holders of `held`; for `pending` bytes
there is no list yet. The indexes are sound. -/
structure Sound (w : Workspace t i) (held : List ListId) (pending : Nat) : Prop where
  lists : w.lists.keys.Nodup
  indexes : w.indexes.keys.Nodup
  accounts : w.store.Accounts (w.refs ++ held) pending
  index : ∀ name x, w.indexes.find? name = some x → x.Sound w.store

/-- A workspace is in order again, over a budget of the same limit, and those who hold lists still
have them. -/
structure Kept (w : Workspace t i) (held : List ListId) (w' : Workspace t i) : Prop where
  sound : w'.Sound held 0
  keeps : Store.Keeps held w.store w'.store
  limit_eq : w'.store.budget.limit = w.store.budget.limit

theorem sound_new (limit : Option Nat) : (new t i limit).Sound [] 0 where
  lists := List.nodup_nil
  indexes := List.nodup_nil
  accounts := Store.Accounts.new limit
  index := fun _ _ h => nomatch h

namespace Kept

variable {w w' w'' : Workspace t i} {held : List ListId}

theorem refl (h : w.Sound held 0) : w.Kept held w :=
  ⟨h, Store.Keeps.refl held w.store, rfl⟩

theorem after (h : w'.Kept held w'') (hkeeps : Store.Keeps held w.store w'.store)
    (hlimit : w'.store.budget.limit = w.store.budget.limit) : w.Kept held w'' :=
  ⟨h.sound, hkeeps.trans h.keeps, h.limit_eq.trans hlimit⟩

theorem trans (h : w.Kept held w') (h' : w'.Kept held w'') : w.Kept held w'' :=
  h'.after h.keeps h.limit_eq

end Kept

namespace Sound

variable {w : Workspace t i} {held held' : List ListId} {pending pending' : Nat} {s : Store t i}

theorem mem_refs_of_list {name : String} {id : ListId}
    (hname : w.lists.find? name = some id) : id ∈ w.refs ++ held :=
  List.mem_append_left _ (List.mem_append_left _
    (Names.mem_refs_of_find? hname (List.mem_singleton_self id)))

/-- Only the number of holders matters. -/
theorem congr (h : w.Sound held pending) (hcount : ∀ id, held'.count id = held.count id) :
    w.Sound held' pending where
  lists := h.lists
  indexes := h.indexes
  accounts := h.accounts.congr fun id => by
    rw [List.count_append, List.count_append, hcount]
  index := h.index

/-- An operation on the store that keeps what the names hold. -/
theorem withStore (h : w.Sound held pending) (hacc : s.Accounts (w.refs ++ held') pending')
    (hkeeps : Store.Keeps w.refs w.store s) : ({ w with store := s }).Sound held' pending' where
  lists := h.lists
  indexes := h.indexes
  accounts := hacc
  index := fun name x hname => (h.index name x hname).keeps h.accounts
    (hkeeps.mono fun _ hid =>
      List.mem_append_right _ (Names.mem_refs_of_find? hname hid))

/-- Other lists under the names, which refer to the same indexes. -/
theorem withLists (h : w.Sound held pending) {names : Names ListId} (hkeys : names.keys.Nodup)
    (hacc : s.Accounts (names.refs (fun id => [id]) ++
      w.indexes.refs (fun x => x.slots.toList) ++ held') pending')
    (hkeeps : Store.Keeps (w.indexes.refs fun x => x.slots.toList) w.store s) :
    ({ w with store := s, lists := names }).Sound held' pending' where
  lists := hkeys
  indexes := h.indexes
  accounts := hacc
  index := fun name x hname => (h.index name x hname).keeps h.accounts
    (hkeeps.mono fun _ hid => Names.mem_refs_of_find? hname hid)

/-- What the names hold when one of a list is taken away. -/
theorem count_eraseList (h : w.Sound held pending) {name : String} {old : ListId}
    (hname : w.lists.find? name = some old) (id : ListId) :
    (old :: ((w.lists.erase name).refs (fun id => [id]) ++
        w.indexes.refs (fun x => x.slots.toList) ++ held)).count id =
      (w.refs ++ held).count id := by
  have hcount := Names.count_refs (f := fun id => [id]) h.lists hname id
  simp only [refs, List.count_append, List.count_cons, List.count_nil] at hcount ⊢
  omega

/-- A list that is held is put under a name, and what was there is let go. -/
theorem putList {id : ListId} (h : w.Sound (id :: held) 0) (name : String) :
    w.Kept held (w.putList name id) := by
  unfold Workspace.putList
  cases hname : w.lists.find? name with
  | none =>
      have herase := Names.erase_of_notMem (Names.find?_eq_none_iff.mp hname)
      refine ⟨h.withLists (Names.nodup_put h.lists name id) ?_ (Store.Keeps.refl _ _),
        Store.Keeps.refl _ _, rfl⟩
      apply h.accounts.congr
      intro other
      rw [Names.refs_put, herase]
      simp only [refs, List.count_append, List.count_cons, List.count_nil]
      omega
  | some old =>
      have hswap : w.store.Accounts (old :: ((w.lists.put name id).refs (fun id => [id]) ++
          w.indexes.refs (fun x => x.slots.toList) ++ held)) 0 := by
        apply h.accounts.congr
        intro other
        rw [← h.count_eraseList hname, Names.refs_put]
        simp only [List.count_append, List.count_cons, List.count_nil]
        omega
      have hleaves := Store.Leaves.of_release hswap
      refine ⟨h.withLists (Names.nodup_put h.lists name id) hswap.release ?_, ?_,
        Store.limit_release _ _⟩
      · exact (hleaves.mono fun other hother =>
          List.mem_append_left _ (List.mem_append_right _ hother)).keeps
      · exact (hleaves.mono fun other hother => List.mem_append_right _ hother).keeps

/-- A name of a list is taken away. -/
theorem dropList (h : w.Sound held 0) {name : String} {id : ListId}
    (hname : w.lists.find? name = some id) :
    w.Kept held { w with lists := w.lists.erase name, store := w.store.release id } := by
  have hswap : w.store.Accounts (id :: ((w.lists.erase name).refs (fun id => [id]) ++
      w.indexes.refs (fun x => x.slots.toList) ++ held)) 0 :=
    h.accounts.congr (h.count_eraseList hname)
  have hleaves := Store.Leaves.of_release hswap
  refine ⟨h.withLists (Names.nodup_erase h.lists name) hswap.release ?_, ?_,
    Store.limit_release _ _⟩
  · exact (hleaves.mono fun other hother =>
      List.mem_append_left _ (List.mem_append_right _ hother)).keeps
  · exact (hleaves.mono fun other hother => List.mem_append_right _ hother).keeps

/-! ## Indexes under names -/

/-- What the names hold when one of an index is taken away. -/
def others (w : Workspace t i) (name : String) (held : List ListId) : List ListId :=
  w.lists.refs (fun id => [id]) ++ (w.indexes.erase name).refs (fun x => x.slots.toList) ++ held

theorem count_eraseIndex (h : w.Sound held pending) {name : String} {old : Index}
    (hname : w.indexes.find? name = some old) (id : ListId) :
    (old.slots.toList ++ others w name held).count id = (w.refs ++ held).count id := by
  have hcount := Names.count_refs (f := fun x : Index => x.slots.toList) h.indexes hname id
  simp only [refs, others, List.count_append] at hcount ⊢
  omega

/-- The holders of the lists of a named index and all others. -/
theorem accounts_index (h : w.Sound held pending) {name : String} {x : Index}
    (hname : w.indexes.find? name = some x) :
    w.store.Accounts (x.slots.toList ++ others w name held) pending :=
  h.accounts.congr (h.count_eraseIndex hname)

/-- An index in the place of the one of a name. -/
theorem withIndex (h : w.Sound held pending) (name : String) {x : Index} (hx : x.Sound s)
    (hacc : s.Accounts (x.slots.toList ++ others w name held') 0)
    (hkeeps : Store.Keeps (others w name held') w.store s) :
    ({ w with store := s, indexes := w.indexes.put name x }).Sound held' 0 where
  lists := h.lists
  indexes := Names.nodup_put h.indexes name x
  accounts := by
    apply hacc.congr
    intro id
    simp only [refs, Names.refs_put, others, List.count_append]
    omega
  index := by
    intro other y hother
    by_cases heq : other = name
    · rw [heq, Names.find?_put_self, Option.some.injEq] at hother
      exact hother ▸ hx
    · have hother' : (w.indexes.erase name).find? other = some y := by
        rwa [Names.find?_put_ne heq, ← Names.find?_erase_ne heq] at hother
      rw [Names.find?_put_ne heq] at hother
      exact (h.index other y hother).keeps h.accounts (hkeeps.mono fun id hid =>
        List.mem_append_left _
          (List.mem_append_right _ (Names.mem_refs_of_find? hother' hid)))

/-- An index whose lists are held is put under a name, and the one that was there is let go. -/
theorem putIndex {x : Index} (h : w.Sound (x.slots.toList ++ held) 0) (hx : x.Sound w.store)
    (name : String) :
    w.Kept held (w.putIndex name x) := by
  unfold Workspace.putIndex
  cases hname : w.indexes.find? name with
  | none =>
      have herase := Names.erase_of_notMem (Names.find?_eq_none_iff.mp hname)
      refine ⟨h.withIndex name hx ?_ (Store.Keeps.refl _ _), Store.Keeps.refl _ _, rfl⟩
      apply h.accounts.congr
      intro id
      simp only [refs, others, herase, List.count_append]
      omega
  | some old =>
      have hswap : w.store.Accounts
          (old.slots.toList ++ (x.slots.toList ++ others w name held)) 0 := by
        apply (h.accounts_index hname).congr
        intro id
        simp only [others, List.count_append]
        omega
      obtain ⟨hacc, hleaves⟩ := Index.releaseAll_accounts hswap
      have hslots : x.Sound (w.store.releaseAll old.slots.toList) :=
        hx.keeps h.accounts (hleaves.mono fun id hid => List.mem_append_left _ hid).keeps
      refine ⟨h.withIndex name hslots hacc ?_, ?_, Store.limit_releaseAll _ _⟩
      · exact (hleaves.mono fun id hid => List.mem_append_right _ hid).keeps
      · exact (hleaves.mono fun id hid =>
          List.mem_append_right _ (List.mem_append_right _ hid)).keeps

/-- A name of an index is taken away. -/
theorem dropIndex (h : w.Sound held 0) {name : String} {x : Index}
    (hname : w.indexes.find? name = some x) :
    w.Kept held { w with indexes := w.indexes.erase name, store := x.close w.store } := by
  obtain ⟨hacc, hleaves⟩ := Index.releaseAll_accounts (h.accounts_index hname)
  refine ⟨⟨h.lists, Names.nodup_erase h.indexes name, hacc, ?_⟩, ?_,
    Store.limit_releaseAll _ _⟩
  · intro other y hother
    have hne : other ≠ name := by
      rintro rfl
      rw [Names.find?_erase_self] at hother
      cases hother
    have hother' := hother
    rw [Names.find?_erase_ne hne] at hother
    exact (h.index other y hother).keeps h.accounts (hleaves.mono fun id hid =>
      List.mem_append_left _ (List.mem_append_right _ (Names.mem_refs_of_find? hother' hid))).keeps
  · exact (hleaves.mono fun id hid => List.mem_append_right _ hid).keeps

end Sound

end Workspace

end InvertedFile
