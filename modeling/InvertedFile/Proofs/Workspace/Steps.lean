import InvertedFile.Proofs.Index.Extend
import InvertedFile.Proofs.Index.Loading
import InvertedFile.Proofs.Index.Saving
import InvertedFile.Proofs.Store.Resize
import InvertedFile.Proofs.Workspace.Sound
import InvertedFile.Workspace.Perform

/-!
# Every step keeps a workspace in order

Each step is made of lookups, of an operation of a list, an index or the
store, and of putting what came of it under a name. The lookups change
nothing. Of the operations it is known how they end, and a step that fails
ends where one of them did.

A writer works on a list that others hold, too. All it does is to write
behind the published records, so that for the others their lists evolve.

## Main results

* `performStep_kept` — a step keeps a workspace in order, with whatever
  arguments and whether it succeeds or fails.
-/

namespace InvertedFile

open InvertedFile.Action

/-! ## Operations on one list of a store -/

namespace Store

variable {t : ElementType} {i : IdType} {s s' s'' : Store t i}

/-- What was done to the lists of a store has been done behind their published records, and nothing
was charged for it. -/
structure Worked (s s' : Store t i) : Prop where
  budget_eq : s'.budget = s.budget
  accounts : ∀ {refs pending}, s.Accounts refs pending → s'.Accounts refs pending
  keeps : ∀ {refs pending}, s.Accounts refs pending → Keeps refs s s'

theorem Worked.refl (s : Store t i) : Worked s s :=
  ⟨rfl, fun h => h, fun _ => Keeps.refl _ s⟩

theorem Worked.trans (h : Worked s s') (h' : Worked s' s'') : Worked s s'' where
  budget_eq := h'.budget_eq.trans h.budget_eq
  accounts := fun hacc => h'.accounts (h.accounts hacc)
  keeps := fun hacc => (h.keeps hacc).trans (h'.keeps (h.accounts hacc))

theorem worked_update {id : ListId} {old new : Holding t i} (hfind : s.find? id = some old)
    (hholders : new.holders = old.holders)
    (hevolves : old.list.WellFormed → old.list.Evolves new.list) :
    Worked s (s.update id (some new)) where
  budget_eq := rfl
  accounts := fun hacc => by
    have hwell := hacc.wellFormed hfind
    have hstep := hevolves hwell
    exact hacc.update hfind (hstep.wellFormed hwell)
      ((hacc.hosted hfind).congr hstep.size_data hstep.size_ids) hholders hstep.reserved_eq
  keeps := fun hacc => Keeps.of_update _ hfind (hevolves (hacc.wellFormed hfind))

/-- An operation of a writer. -/
theorem worked_onList {α : Type} {act : Action (InvertedList t i) α}
    (hevolves : ∀ l : InvertedList t i, l.WellFormed → l.Evolves (final act l)) (id : ListId)
    (s : Store t i) : Worked s (final (onList id act) s) := by
  cases hfind : s.find? id with
  | none =>
      rw [final_error (onList_none act hfind)]
      exact Worked.refl s
  | some h =>
      have hstep := hevolves h.list
      cases hact : act h.list with
      | ok a list =>
          rw [final_ok hact] at hstep
          rw [final_ok (onList_ok hfind hact)]
          exact worked_update hfind rfl hstep
      | error e list =>
          rw [final_error hact] at hstep
          rw [final_error (onList_error hfind hact)]
          exact worked_update hfind rfl hstep

theorem looks_holding (id : ListId) (s : Store t i) :
    Looks (holding id) s (fun h => s.find? id = some h) := by
  cases hfind : s.find? id with
  | some h => exact looks_of_ok (holding_ok hfind) rfl
  | none => exact looks_of_error (holding_error hfind)

theorem leads_onList {α : Type} {act : Action (InvertedList t i) α}
    (hevolves : ∀ l : InvertedList t i, l.WellFormed → l.Evolves (final act l)) (id : ListId)
    (s : Store t i) : Leads (onList id act) s (fun _ => Worked s) (Worked s) := by
  have hworked := worked_onList hevolves id s
  cases hrun : onList id act s with
  | ok a s' => exact leads_of_ok hrun (final_ok hrun ▸ hworked)
  | error e s' => exact leads_of_error hrun (final_error hrun ▸ hworked)

/-- Taking or putting back the writer of a list. -/
theorem worked_writing {id : ListId} {h : Holding t i} (hfind : s.find? id = some h)
    (writing : Bool) : Worked s (s.update id (some { h with writing })) :=
  worked_update hfind rfl fun _ => InvertedList.Evolves.refl h.list

theorem leads_takeWriter (id : ListId) (s : Store t i) :
    Leads (takeWriter id) s (fun _ => Worked s) (Worked s) := by
  refine (looks_holding id s).then (Worked.refl s) ?_
  intro h hfind
  by_cases hwriting : h.writing
  · rw [if_pos hwriting]
    exact leads_pure (Worked.refl s)
  · rw [if_neg hwriting]
    exact worked_writing hfind true

theorem worked_putWriter (id : ListId) (s : Store t i) : Worked s (s.putWriter id) := by
  unfold putWriter
  cases hfind : s.find? id with
  | none => exact Worked.refl s
  | some h => exact worked_writing hfind false

end Store

namespace Workspace

variable {t : ElementType} {i : IdType} {α : Type} {w : Workspace t i} {held : List ListId}

/-! ## Looking things up -/

theorem looks_check (x : Except Error α) (w : Workspace t i) :
    Looks (check x : Run t i α) w (fun a => x = .ok a) := by
  cases x with
  | ok a => exact looks_of_ok rfl rfl
  | error e => exact looks_of_error (e := .error e .nothing) rfl

theorem looks_named {β : Type} (names : Workspace t i → Names β) (name : String)
    (w : Workspace t i) : Looks (named names name) w (fun b => (names w).find? name = some b) := by
  refine looks_get.bind ?_
  rintro _ rfl
  cases hname : (names w).find? name with
  | some b => exact looks_of_ok rfl rfl
  | none => exact looks_of_error (e := .missing) rfl

theorem looks_stored {act : Action (Store t i) α} {p : α → Prop} (h : Looks act w.store p) :
    Looks (stored act) w p := by
  unfold Looks Leads at h ⊢
  unfold stored attempt
  cases hact : act w.store with
  | ok a s =>
      rw [hact] at h
      obtain ⟨rfl, hp⟩ := h
      exact ⟨rfl, hp⟩
  | error e s =>
      rw [hact] at h
      rw [h]

theorem stored_ok {act : Action (Store t i) α} {a : α} {s : Store t i}
    (h : act w.store = .ok a s) : stored act w = .ok a { w with store := s } := by
  rw [stored, attempt, h]

theorem listNamed_ok {name : String} {id : ListId} {l : InvertedList t i}
    (hname : w.lists.find? name = some id) (hl : w.store.list? id = some l) :
    listNamed name w = .ok (id, l) w := by
  obtain ⟨holding, hfind, rfl⟩ := Store.list?_eq_some_iff.mp hl
  have hnamed : named Workspace.lists name w = .ok id w := by
    rw [named, bind_ok (get_ok w), hname]
    rfl
  rw [listNamed, bind_ok hnamed, bind_ok (stored_ok (Store.holding_ok hfind))]
  rfl

theorem looks_listNamed (name : String) (w : Workspace t i) :
    Looks (listNamed name) w (fun (id, l) =>
      w.lists.find? name = some id ∧ ∃ h, w.store.find? id = some h ∧ h.list = l) := by
  refine (looks_named Workspace.lists name w).bind ?_
  intro id hname
  refine (looks_stored (Store.looks_holding id w.store)).bind ?_
  intro h hfind
  exact looks_of_ok rfl ⟨hname, h, hfind, rfl⟩

theorem looks_sourceOf (r : Reading) (w : Workspace t i) :
    Looks (sourceOf r) w (fun _ => True) := by
  obtain ⟨origin, edits, failAt⟩ := r
  cases origin with
  | given bytes => exact looks_of_ok rfl trivial
  | blob name =>
      refine (looks_named Workspace.blobs name w).bind ?_
      intro bytes _
      exact looks_of_ok rfl trivial

/-! ## Operations on the store -/

/-- An action on the store leads where it leads there. -/
theorem leads_stored {act : Action (Store t i) α} {ok : α → Workspace t i → Prop}
    {fail : Workspace t i → Prop}
    (h : Leads act w.store (fun a s => ok a { w with store := s })
      (fun s => fail { w with store := s })) : Leads (stored act) w ok fail := by
  unfold Leads at h ⊢
  unfold stored attempt
  cases hact : act w.store with
  | ok a s =>
      rw [hact] at h
      exact h
  | error e s =>
      rw [hact] at h
      exact h

/-- A change behind published records keeps a workspace in order. -/
theorem Sound.worked (h : w.Sound held 0) {s : Store t i} (hworked : Store.Worked w.store s) :
    w.Kept held { w with store := s } :=
  ⟨h.withStore (hworked.accounts h.accounts)
    ((hworked.keeps h.accounts).mono fun _ hid => List.mem_append_left _ hid),
    (hworked.keeps h.accounts).mono fun _ hid => List.mem_append_right _ hid,
    congrArg Budget.limit hworked.budget_eq⟩

/-- A list that is named and still held once more. -/
theorem Sound.hold (h : w.Sound held 0) {id : ListId} (hid : id ∈ w.refs ++ held) :
    ({ w with store := w.store.hold id }).Sound (id :: held) 0 ∧
      Store.Keeps held w.store (w.store.hold id) ∧
      (w.store.hold id).budget.limit = w.store.budget.limit := by
  have hleaves : ∀ refs, Store.Leaves refs w.store (w.store.hold id) :=
    fun refs => Store.Leaves.of_hold refs w.store id
  refine ⟨h.withStore ?_ (hleaves _).keeps, (hleaves _).keeps, by rw [Store.budget_hold]⟩
  apply (h.accounts.hold hid).congr
  intro other
  simp only [List.count_append, List.count_cons]
  omega

/-- A list that was held once more is let go. -/
theorem Sound.release {id : ListId} (h : w.Sound (id :: held) 0) :
    w.Kept held { w with store := w.store.release id } := by
  have hswap : w.store.Accounts (id :: (w.refs ++ held)) 0 := by
    apply h.accounts.congr
    intro other
    simp only [List.count_append, List.count_cons]
    omega
  have hleaves := Store.Leaves.of_release hswap
  exact ⟨h.withStore hswap.release
    (hleaves.mono fun _ hid => List.mem_append_left _ hid).keeps,
    (hleaves.mono fun _ hid => List.mem_append_right _ hid).keeps,
    Store.limit_release _ _⟩

/-- Bytes are charged for lists that are still to come. -/
theorem Sound.charged (h : w.Sound held 0) {b : Budget} {bytes : Nat}
    (hcharged : b = w.store.budget.charged bytes) (hbudget : b.Sound) :
    ({ w with store := { w.store with budget := b } }).Sound held bytes := by
  subst hcharged
  have hacc := h.accounts.charged hbudget
  rw [Nat.zero_add] at hacc
  exact h.withStore hacc (Store.Keeps.refl _ _)

/-! ## Lists and indexes are taken in -/

/-- A list whose bytes are charged is taken in under a name. -/
theorem leads_keepList {l : InvertedList t i} (h : w.Sound held l.reserved)
    (hwell : l.WellFormed) (hhosted : l.Hosted) (name : String) {fail : Workspace t i → Prop} :
    Leads (keepList name l) w (fun _ => w.Kept held) fail := by
  have hpending : w.store.Accounts (w.refs ++ held) (0 + l.reserved) := by
    rw [Nat.zero_add]
    exact h.accounts
  have hpushed := hpending.pushed hwell hhosted
  have hleaves := Store.Leaves.of_pushed hpending l
  have htaken : ({ w with store := w.store.pushed l }).Sound (w.store.nextId :: held) 0 := by
    refine h.withStore ?_ (hleaves.mono fun _ hid => List.mem_append_left _ hid).keeps
    apply hpushed.congr
    intro other
    simp only [List.count_append, List.count_cons]
    omega
  have hinsert : stored (Store.insert l) w =
      .ok w.store.nextId { w with store := w.store.pushed l } := rfl
  refine leads_bind_ok hinsert ?_
  exact (htaken.putList name).after
    (hleaves.mono fun _ hid => List.mem_append_right _ hid).keeps rfl

/-- An index whose bytes are charged is taken in under a name. -/
theorem leads_keepIndex {x : LoadedIndex t i} (h : w.Sound held x.reserved) (hx : x.Sound)
    (name : String) {fail : Workspace t i → Prop} :
    Leads (keepIndex name x) w (fun _ => w.Kept held) fail := by
  have hpending : w.store.Accounts (w.refs ++ held) (0 + (x.lists.map (·.reserved)).sum) := by
    rw [Nat.zero_add]
    exact h.accounts
  obtain ⟨index, s, hinstall, -, -, hacc, hleaves, hbudget, hindex, -⟩ :=
    LoadedIndex.install_ok hx hpending
  have htaken : ({ w with store := s }).Sound (index.slots.toList ++ held) 0 := by
    refine h.withStore ?_ (hleaves.mono fun _ hid => List.mem_append_left _ hid).keeps
    apply hacc.congr
    intro other
    simp only [List.count_append]
    omega
  have hrun : stored x.install w = .ok index { w with store := s } := by
    rw [stored, attempt, hinstall]
  refine leads_bind_ok hrun ?_
  exact (htaken.putIndex hindex name).after
    (hleaves.mono fun _ hid => List.mem_append_right _ hid).keeps (congrArg Budget.limit hbudget)

/-! ## Streams -/

/-- Blobs hold no lists. -/
theorem kept_putBlob (h : w.Sound held 0) (blob : Option String) (bytes : Bytes) :
    w.Kept held (w.putBlob blob bytes) := by
  cases blob with
  | none => exact Kept.refl h
  | some name =>
      exact ⟨⟨h.lists, h.indexes, h.accounts, h.index⟩, Store.Keeps.refl held w.store, rfl⟩

theorem writing_ok {act : Action (Saving t i) Unit} {room : Option Nat} {sv : Saving t i}
    (h : act { store := w.store, sink := .empty room } = .ok () sv) :
    writing room act w = .ok sv.sink.written { w with store := sv.store } := by
  rw [writing, attempt, bind_ok h]
  rfl

theorem writing_error {act : Action (Saving t i) Unit} {room : Option Nat} {e : Error}
    {sv : Saving t i} (h : act { store := w.store, sink := .empty room } = .error e sv) :
    writing room act w =
      .error (.leaving e (.written sv.sink.written)) { w with store := sv.store } := by
  rw [writing, attempt, bind_error h]

theorem reading_ok {act : Action (Transfer Source) α} {source : Source} {a : α}
    {tr : Transfer Source} (h : act { budget := w.store.budget, stream := source } = .ok a tr) :
    reading source act w = .ok (a, source.bytes.length - tr.stream.bytes.length)
      { w with store := { w.store with budget := tr.budget } } := by
  rw [reading, attempt, bind_ok h]
  rfl

theorem reading_error {act : Action (Transfer Source) α} {source : Source} {e : Error}
    {tr : Transfer Source} (h : act { budget := w.store.budget, stream := source } = .error e tr) :
    reading source act w =
      .error (.leaving e .nothing) { w with store := { w.store with budget := tr.budget } } := by
  rw [reading, attempt, bind_error h]

/-- A save that leaves the store as it was leaves the workspace as it was. -/
theorem looks_writing {act : Action (Saving t i) Unit} (room : Option Nat)
    (h : ∀ sv : Saving t i, sv.store = w.store → (final act sv).store = w.store) :
    Looks (writing room act) w (fun _ => True) := by
  have hstore := h { store := w.store, sink := .empty room } rfl
  cases hact : act { store := w.store, sink := .empty room } with
  | ok u sv =>
      rw [final_ok hact] at hstore
      exact leads_of_ok (writing_ok hact) ⟨by rw [hstore], trivial⟩
  | error e sv =>
      rw [final_error hact] at hstore
      exact leads_of_error (writing_error hact) (by rw [hstore])

/-- What is read is charged, and a reading that fails leaves the workspace as it was. -/
theorem leads_reading {act : Action (Transfer Source) α} {bytes : α → Nat} {good : α → Prop}
    (h : w.Sound held 0) (source : Source)
    (hact : ∀ tr : Transfer Source, tr.budget.Sound →
      (∃ e tr', act tr = .error e tr' ∧ tr'.budget = tr.budget) ∨
        ∃ a tr', act tr = .ok a tr' ∧ tr'.budget = tr.budget.charged (bytes a) ∧
          tr'.budget.Sound ∧ good a) :
    Leads (reading source act) w
      (fun (a, _) w' => w'.Sound held (bytes a) ∧ Store.Keeps held w.store w'.store ∧
        w'.store.budget.limit = w.store.budget.limit ∧ good a)
      (fun w' => w' = w) := by
  rcases hact { budget := w.store.budget, stream := source } h.accounts.budget with
    ⟨e, tr, hrun, hbudget⟩ | ⟨a, tr, hrun, hbudget, hsound, hgood⟩
  · exact leads_of_error (reading_error hrun) (by rw [hbudget])
  · have hlimit : tr.budget.limit = w.store.budget.limit := by
      rw [hbudget]
      rfl
    exact leads_of_ok (reading_ok hrun)
      ⟨h.charged hbudget hsound, Store.Keeps.refl _ _, hlimit, hgood⟩

/-! ## Steps with a list -/

/-- A step of a writer writes behind the published records. -/
theorem leads_performWriterStep (id : ListId) (step : WriterStep t i) (s : Store t i) :
    Leads (performWriterStep id step) s (fun _ => Store.Worked s) (Store.Worked s) := by
  have hlook : ∀ {β : Type} {f : Holding t i → Action (Store t i) β} {s' : Store t i},
      Store.Worked s s' → (∀ h, Looks (f h) s' (fun _ => True)) →
      Leads (Store.holding id >>= f) s' (fun _ => Store.Worked s) (Store.Worked s) := by
    intro β f s' hworked hf
    refine (Store.looks_holding id s').then hworked fun h _ => ?_
    exact (hf h).leads (fun _ _ => hworked) hworked
  cases step with
  | pack codes start =>
      refine (Store.leads_onList (fun l hl => InvertedList.evolves_pack hl codes start) id s).bind ?_
      exact fun _ s' hworked => hlook hworked fun h => looks_of_ok rfl trivial
  | writeIds ids start =>
      refine (Store.leads_onList
        (fun l hl => InvertedList.evolves_writeIds hl ids start) id s).bind ?_
      exact fun _ s' hworked => hlook hworked fun h => looks_of_ok rfl trivial
  | publish size =>
      refine (Store.leads_onList
        (fun l _ => InvertedList.evolves_publish l size) id s).bind ?_
      exact fun _ s' hworked => hlook hworked fun h => looks_of_ok rfl trivial
  | append codes ids =>
      refine (Store.leads_onList
        (fun l hl => InvertedList.evolves_append hl codes ids) id s).bind ?_
      exact fun _ s' hworked => leads_pure hworked
  | takeWriter =>
      refine (Store.leads_takeWriter id s).bind ?_
      exact fun _ s' hworked => leads_pure hworked
  | contents =>
      refine hlook (Store.Worked.refl s) fun h => looks_ofExcept.bind ?_
      exact fun _ _ => looks_of_ok rfl trivial

theorem worked_performWriterSteps (id : ListId) (steps : List (WriterStep t i)) (s : Store t i) :
    Store.Worked s (performWriterSteps id steps s).2 := by
  induction steps generalizing s with
  | nil => exact Store.Worked.refl s
  | cons step rest ih =>
      have hstep := (leads_performWriterStep id step s).final
      rw [performWriterSteps]
      cases hrun : performWriterStep id step s with
      | ok a s' =>
          rw [final_ok hrun] at hstep
          exact hstep.trans (ih s')
      | error e s' =>
          rw [final_error hrun] at hstep
          exact hstep.trans (ih s')

theorem leads_write (h : w.Sound held 0) (name : String) (steps : List (WriterStep t i)) :
    Leads (write name steps) w (fun _ => w.Kept held) (w.Kept held) := by
  refine (looks_listNamed name w).then (Kept.refl h) ?_
  rintro ⟨id, l⟩ -
  have htake : Leads (stored (Store.takeWriter id)) w
      (fun _ w' => ∃ s, w' = { w with store := s } ∧ Store.Worked w.store s) (w.Kept held) :=
    leads_stored ((Store.leads_takeWriter id w.store).mono
      (fun _ s hworked => ⟨s, rfl, hworked⟩) fun s hworked => h.worked hworked)
  refine htake.bind ?_
  rintro _ _ ⟨s, rfl, hworked⟩
  have hsteps := worked_performWriterSteps id steps s
  refine leads_bind_ok (t := { w with store := (performWriterSteps id steps s).2 }) rfl ?_
  refine leads_bind_ok rfl ?_
  have hput := Store.worked_putWriter id (performWriterSteps id steps s).2
  have hkept := h.worked ((hworked.trans hsteps).trans hput)
  refine (looks_listNamed name _).then hkept ?_
  intro found _
  refine looks_get.then hkept ?_
  exact fun _ _ => leads_pure hkept

/-- A change of a list as a whole, which leaves it in order and its buffers as long as they were. -/
structure Intact (l l' : InvertedList t i) : Prop where
  wellFormed : l.WellFormed → l'.WellFormed
  size_data : l'.data.size = l.data.size
  size_ids : l'.ids.size = l.ids.size
  reserved_eq : l'.reserved = l.reserved

theorem Intact.refl (l : InvertedList t i) : Intact l l :=
  ⟨fun h => h, rfl, rfl, rfl⟩

/-- The one holder of a list may do as he likes. -/
theorem Sound.intact (h : w.Sound held 0) {name : String} {id : ListId}
    (hname : w.lists.find? name = some id) {holding : Holding t i}
    (hfind : w.store.find? id = some holding) (hsole : holding.holders ≤ 1)
    {l' : InvertedList t i} (hintact : Intact holding.list l') :
    w.Kept held { w with store := w.store.update id (some { holding with list := l' }) } := by
  have hacc : w.store.Accounts (id :: ((w.lists.erase name).refs (fun id => [id]) ++
      w.indexes.refs (fun x => x.slots.toList) ++ held)) 0 :=
    h.accounts.congr (h.count_eraseList hname)
  have hleaves := Store.Leaves.of_update (s := w.store) (hacc.notMem_of_holders_le hfind hsole)
    (some { holding with list := l' })
  have hupdate : (w.store.update id (some { holding with list := l' })).Accounts
      (w.refs ++ held) 0 :=
    h.accounts.update hfind (hintact.wellFormed (h.accounts.wellFormed hfind))
      ((h.accounts.hosted hfind).congr hintact.size_data hintact.size_ids) rfl hintact.reserved_eq
  refine ⟨h.withLists h.lists ?_ ?_, ?_, rfl⟩
  · exact hupdate
  · exact (hleaves.mono fun _ hid =>
      List.mem_append_left _ (List.mem_append_right _ hid)).keeps
  · exact (hleaves.mono fun _ hid => List.mem_append_right _ hid).keeps

theorem leads_unshared (h : w.Sound held 0) (name : String) {act : Action (InvertedList t i) α}
    (hact : ∀ l, Intact l (final act l)) (answer : InvertedList t i → α → Answer t i) :
    Leads (unshared name act answer) w (fun _ => w.Kept held) (w.Kept held) := by
  refine (looks_listNamed name w).then (Kept.refl h) ?_
  rintro ⟨id, l⟩ ⟨hname, holding, hfind, rfl⟩
  have hrun : Leads (stored (Store.onUnshared id act)) w (fun _ => w.Kept held) (w.Kept held) := by
    apply leads_stored
    refine leads_bind_ok (Store.holding_ok hfind) ?_
    by_cases hsole : holding.holders ≤ 1
    · rw [if_pos hsole]
      have hintact := hact holding.list
      cases hlist : act holding.list with
      | ok a l' =>
          rw [final_ok hlist] at hintact
          refine leads_bind_ok (b := a)
            (t := w.store.update id (some { holding with list := l' })) ?_ ?_
          · simp only [Store.onList, hfind, hlist]
          · exact h.intact hname hfind hsole hintact
      | error e l' =>
          rw [final_error hlist] at hintact
          refine leads_bind_error (e := e)
            (t := w.store.update id (some { holding with list := l' })) ?_ ?_
          · simp only [Store.onList, hfind, hlist]
          · exact h.intact hname hfind hsole hintact
    · rw [if_neg hsole]
      exact Kept.refl h
  refine hrun.bind ?_
  intro result w' hkept
  cases result with
  | none => exact leads_pure hkept
  | some a =>
      refine (looks_listNamed name w').then hkept ?_
      exact fun _ _ => leads_pure hkept

theorem intact_setSize (size : Nat) (l : InvertedList t i) :
    Intact l (final (InvertedList.setSize size) l) := by
  by_cases hroom : size ≤ l.capacity
  · rw [final_ok (InvertedList.setSize_ok hroom)]
    exact ⟨fun hl => { hl with size_le := hroom }, rfl, rfl, rfl⟩
  · rw [final_error (InvertedList.setSize_error hroom)]
    exact Intact.refl l

theorem size_final_store {β : Type} (start : Nat) (xs a : Array β) :
    (final (Buffer.store start xs) a).size = a.size := by
  by_cases hin : start + xs.size ≤ a.size
  · rw [final_ok (Buffer.store_eq_ok hin), Buffer.size_overwrite]
  · rw [final_error (Buffer.store_eq_error (Nat.not_le.mp hin))]

theorem intact_data {l : InvertedList t i} {data : Array (Word t)}
    (hdata : data.size = l.data.size) : Intact l { l with data } where
  wellFormed := fun hl =>
    { capacity_eq := hl.capacity_eq
      size_data := hdata.trans hl.size_data
      size_ids := hl.size_ids
      size_le := hl.size_le
      reserved_eq := by
        rw [InvertedList.memoryBytes, hdata]
        exact hl.reserved_eq }
  size_data := hdata
  size_ids := rfl
  reserved_eq := rfl

theorem intact_ids {l : InvertedList t i} {ids : Array (Id i)} (hids : ids.size = l.ids.size) :
    Intact l { l with ids } where
  wellFormed := fun hl =>
    { capacity_eq := hl.capacity_eq
      size_data := hl.size_data
      size_ids := hids.trans hl.size_ids
      size_le := hl.size_le
      reserved_eq := by
        rw [InvertedList.memoryBytes, hids]
        exact hl.reserved_eq }
  size_data := rfl
  size_ids := hids
  reserved_eq := rfl

theorem Intact.trans {l l' l'' : InvertedList t i} (h : Intact l l') (h' : Intact l' l'') :
    Intact l l'' where
  wellFormed := fun hl => h'.wellFormed (h.wellFormed hl)
  size_data := h'.size_data.trans h.size_data
  size_ids := h'.size_ids.trans h.size_ids
  reserved_eq := h'.reserved_eq.trans h.reserved_eq

theorem intact_poke (start : Nat) (data : Array (Word t)) (ids : Array (Id i))
    (l : InvertedList t i) : Intact l (final (InvertedList.poke start data ids) l) := by
  have hdata : Leads (InvertedList.onData (Buffer.store start data)) l
      (fun _ => Intact l) (Intact l) := by
    have hsize := size_final_store start data l.data
    cases hrun : Buffer.store start data l.data with
    | ok u after =>
        rw [final_ok hrun] at hsize
        exact leads_of_ok (focus_ok hrun) (intact_data hsize)
    | error e after =>
        rw [final_error hrun] at hsize
        exact leads_of_error (focus_error hrun) (intact_data hsize)
  apply Leads.final
  refine hdata.bind ?_
  intro _ l' hintact
  have hsize := size_final_store start ids l'.ids
  cases hrun : Buffer.store start ids l'.ids with
  | ok u after =>
      rw [final_ok hrun] at hsize
      exact leads_of_ok (focus_ok hrun) (hintact.trans (intact_ids hsize))
  | error e after =>
      rw [final_error hrun] at hsize
      exact leads_of_error (focus_error hrun) (hintact.trans (intact_ids hsize))

theorem leads_resize (h : w.Sound held 0) (name : String) (request : SpecRequest)
    (records used : Nat) :
    Leads (resize name request records used) w (fun _ => w.Kept held) (w.Kept held) := by
  refine (looks_check request.spec w).then (Kept.refl h) ?_
  intro spec _
  refine (looks_listNamed name w).then (Kept.refl h) ?_
  rintro ⟨id, l⟩ ⟨hname, -⟩
  have hacc : w.store.Accounts (id :: ((w.lists.erase name).refs (fun id => [id]) ++
      w.indexes.refs (fun x => x.slots.toList) ++ held)) 0 :=
    h.accounts.congr (h.count_eraseList hname)
  rcases Store.resize_accounts hacc spec records used with
    ⟨e, hresize⟩ | ⟨new, s, hresize, hnew, hleaves, hlimit⟩
  · refine leads_bind_error (t := w) (e := .leaving e (remainsOfResize name id w)) ?_ (Kept.refl h)
    rw [attempt, hresize]
  · have hkept : w.Kept held { w with store := s, lists := w.lists.put name new } := by
      refine ⟨h.withLists (Names.nodup_put h.lists name new) ?_ ?_, ?_, hlimit⟩
      · rw [Names.refs_put]
        exact hnew
      · exact (hleaves.mono fun _ hid =>
          List.mem_append_left _ (List.mem_append_right _ hid)).keeps
      · exact (hleaves.mono fun _ hid => List.mem_append_right _ hid).keeps
    refine leads_bind_ok (b := new) (t := { w with store := s }) ?_ ?_
    · rw [attempt, hresize]
    · refine leads_bind_ok rfl ?_
      refine (looks_listNamed name _).then hkept ?_
      exact fun _ _ => leads_pure hkept

/-- Saving a list leaves the workspace as it was. -/
theorem looks_writeList (h : w.Sound held 0) {id : ListId} {holding : Holding t i}
    (hfind : w.store.find? id = some holding) (store : ListSpec) (length : Option UInt32)
    (room : Option Nat) :
    Looks (writing room (Saving.writeList id store length)) w (fun _ => True) := by
  apply looks_writing
  intro sv hstore
  rw [← hstore] at hfind ⊢
  exact Saving.store_writeList hfind (h.accounts.wellFormed (hstore ▸ hfind)) store length

theorem leads_save (h : w.Sound held 0) (name : String) (request : SpecRequest)
    (length : Option UInt32) (room : Option Nat) (blob : Option String) :
    Leads (save name request length room blob) w (fun _ => w.Kept held) (w.Kept held) := by
  refine (looks_check request.spec w).then (Kept.refl h) ?_
  intro store _
  refine (looks_listNamed name w).then (Kept.refl h) ?_
  rintro ⟨id, l⟩ ⟨-, holding, hfind, rfl⟩
  refine (looks_writeList h hfind store length room).then (Kept.refl h) ?_
  exact fun bytes _ => leads_bind_ok rfl (leads_pure (kept_putBlob h blob bytes))

theorem leads_load (h : w.Sound held 0) (name : String) (r : Reading)
    (store device : SpecRequest) :
    Leads (load name r store device) w (fun _ => w.Kept held) (w.Kept held) := by
  refine (looks_sourceOf r w).then (Kept.refl h) ?_
  intro source _
  refine (looks_check store.spec w).then (Kept.refl h) ?_
  intro store _
  refine (looks_check device.spec w).then (Kept.refl h) ?_
  intro device _
  have hread := leads_reading h source
    (fun tr htr => InvertedList.readRecord_cases (t := t) (i := i) store device htr)
  refine (hread.mono (fun _ _ h => h) fun w' hsame => hsame.symm ▸ Kept.refl h).bind ?_
  rintro ⟨l, read⟩ w' ⟨hsound, hkeeps, hlimit, hloaded⟩
  refine (leads_keepList hsound hloaded.wellFormed hloaded.hosted name).bind ?_
  exact fun _ w'' hkept => leads_pure (hkept.after hkeeps hlimit)

/-! ## Steps with an index -/

/-- An index is in order after an operation on it, and the holders of other references to lists of
the store still have them. -/
structure IndexKept (s : Store t i) (refs : List ListId) (y : OpenIndex t i) : Prop where
  sound : y.index.Sound y.store
  accounts : y.store.Accounts (y.index.slots.toList ++ refs) 0
  keeps : Store.Keeps refs s y.store
  limit_eq : y.store.budget.limit = s.budget.limit

/-- An operation on the index of a name, which is left in order however it ends. -/
theorem leads_onIndex (h : w.Sound held 0) (name : String) {act : Action (OpenIndex t i) Unit}
    (hact : ∀ (x : Index) (s : Store t i) (refs : List ListId), x.Sound s →
      s.Accounts (x.slots.toList ++ refs) 0 →
      Leads act { index := x, store := s } (fun _ => IndexKept s refs) (IndexKept s refs)) :
    Leads (onIndex name act) w (fun _ => w.Kept held) (w.Kept held) := by
  refine (looks_named Workspace.indexes name w).then (Kept.refl h) ?_
  intro x hname
  have hput : ∀ y : OpenIndex t i, IndexKept w.store (Sound.others w name held) y →
      w.Kept held { w with store := y.store, indexes := w.indexes.put name y.index } := by
    intro y hy
    exact ⟨h.withIndex name hy.sound hy.accounts hy.keeps,
      hy.keeps.mono fun _ hid => List.mem_append_right _ hid, hy.limit_eq⟩
  have hrun := hact x w.store _ (h.index name x hname) (h.accounts_index hname)
  cases hresult : act { index := x, store := w.store } with
  | ok u y =>
      rw [Leads, hresult] at hrun
      refine leads_bind_ok (b := u)
        (t := { w with store := y.store, indexes := w.indexes.put name y.index }) ?_ ?_
      · rw [attempt, hresult]
      · exact (looks_named _ name _).leads (fun _ _ => hput y hrun) (hput y hrun)
  | error e y =>
      rw [Leads, hresult] at hrun
      refine leads_bind_error (e := .leaving e (.sizes (y.index.sizes y.store)))
        (t := { w with store := y.store, indexes := w.indexes.put name y.index }) ?_ (hput y hrun)
      rw [attempt, hresult]

theorem leads_extend (h : w.Sound held 0) (name : String) (assigner : Assigner t)
    (vectors : Array (Word t)) (ids : Option (Array (Id i))) :
    Leads (onIndex name (Index.extend assigner vectors ids)) w (fun _ => w.Kept held)
      (w.Kept held) := by
  apply leads_onIndex h name
  intro x s refs hx hacc
  rcases Index.extend_cases hx hacc assigner vectors ids with
    ⟨e, s', hrun, hsame, -⟩ | ⟨_, _, x', s', hrun, -, hextended, hx', hacc', hkeeps⟩
  · exact leads_of_error hrun ⟨hx.keeps hacc (hsame.leaves _).keeps, hacc.same hsame,
      (hsame.leaves _).keeps, congrArg Budget.limit hsame.budget_eq⟩
  · exact leads_of_ok hrun ⟨hx', hacc', hkeeps, hextended.limit_eq⟩

theorem leads_reset (h : w.Sound held 0) (name : String) :
    Leads (onIndex name Index.reset) w (fun _ => w.Kept held) (w.Kept held) := by
  apply leads_onIndex h name
  intro x s refs hx hacc
  obtain ⟨x', s', hrun, hx', hreset⟩ := Index.reset_ok hx hacc
  exact leads_of_ok hrun ⟨hx', hreset.accounts, hreset.leaves.keeps, hreset.limit_eq⟩

theorem looks_saveIndex (h : w.Sound held 0) (name : String) (room : Option Nat) :
    Looks (saveIndex name room) w (fun _ => True) := by
  refine (looks_named Workspace.indexes name w).bind ?_
  intro x hname
  apply looks_writing
  intro sv hstore
  rw [← hstore]
  exact Index.store_save (hstore ▸ h.index name x hname) (hstore ▸ h.accounts)

theorem leads_loadIndex (h : w.Sound held 0) (name : String) (source : Source) :
    Leads (loadIndex name source) w (fun _ => w.Kept held) (w.Kept held) := by
  have hread := leads_reading h source
    (fun tr htr => LoadedIndex.read_cases (t := t) (i := i) htr)
  refine (hread.mono (fun _ _ h => h) fun w' hsame => hsame.symm ▸ Kept.refl h).bind ?_
  rintro ⟨x, read⟩ w' ⟨hsound, hkeeps, hlimit, hx⟩
  refine (leads_keepIndex hsound hx name).bind ?_
  exact fun _ w'' hkept => leads_pure (hkept.after hkeeps hlimit)

theorem looks_withoutRemains {act : Run t i α} {p : α → Prop} (h : Looks act w p) :
    Looks (withoutRemains act) w p := by
  unfold Looks Leads at h ⊢
  unfold withoutRemains
  cases hact : act w with
  | ok a w' =>
      rw [hact] at h
      exact h
  | error e w' =>
      rw [hact] at h
      cases e <;> exact h

theorem leads_throughFile (h : w.Sound held 0) (index : String) (place : FilePlace)
    (edits : Edits) (name : String) :
    Leads (throughFile index place edits name) w (fun _ => w.Kept held) (w.Kept held) := by
  refine (looks_check _ w).then (Kept.refl h) ?_
  intro _ _
  refine (looks_named Workspace.indexes index w).then (Kept.refl h) ?_
  intro _ _
  refine (looks_check _ w).then (Kept.refl h) ?_
  intro _ _
  refine (looks_withoutRemains (looks_saveIndex h index none)).then (Kept.refl h) ?_
  intro file _
  refine (leads_loadIndex h name _).bind ?_
  exact fun _ _ hkept => leads_pure hkept

theorem leads_snapshot (h : w.Sound held 0) (index : String) (label : Nat) (name : String) :
    Leads (snapshot index label name) w (fun _ => w.Kept held) (w.Kept held) := by
  refine (looks_named Workspace.indexes index w).then (Kept.refl h) ?_
  intro x hindex
  refine (looks_check _ w).then (Kept.refl h) ?_
  intro id _
  refine (looks_stored (Store.looks_holding id w.store)).then (Kept.refl h) ?_
  intro holding hfind
  obtain ⟨hsound, hkeeps, hlimit⟩ := h.hold (h.accounts.mem hfind)
  exact leads_bind_ok rfl (leads_pure ((hsound.putList name).after hkeeps hlimit))

/-! ## Every step -/

/-- A step leads to a workspace in order, whether it succeeds or fails. -/
theorem leads_performStep (h : w.Sound held 0) (step : Step t i) :
    Leads (performStep step) w (fun _ => w.Kept held) (w.Kept held) := by
  have hrefl := Kept.refl h
  cases step with
  | memory => exact looks_get.then hrefl fun _ _ => leads_pure hrefl
  | create name request records =>
      refine (looks_check request.spec w).then hrefl ?_
      intro spec _
      cases hcreate : InvertedList.create t i spec records w.store.budget with
      | error e b =>
          obtain ⟨-, rfl⟩ := InvertedList.create_error hcreate
          refine leads_bind_error (e := .leaving e .nothing) (t := w) ?_ hrefl
          rw [stored, attempt, Store.budgeted, focus_error hcreate]
      | ok l b =>
          obtain ⟨capacity, hcapacity, hgranted, rfl, rfl⟩ :=
            InvertedList.create_ok_iff.mp hcreate
          refine leads_bind_ok (b := InvertedList.blank t i spec capacity)
            (t := { w with
              store := w.store.charged (InvertedList.blank t i spec capacity).reserved }) ?_ ?_
          · rw [stored, attempt, Store.budgeted, focus_ok hcreate]
            rfl
          · have hcharged := h.charged rfl hgranted.sound
            refine (leads_keepList hcharged (InvertedList.wellFormed_blank hcapacity)
              (InvertedList.hosted_blank hgranted) name).bind ?_
            exact fun _ _ hkept => leads_pure (hkept.after (Store.Keeps.refl _ _) rfl)
  | createEmpty name request =>
      refine (looks_check request.spec w).then hrefl ?_
      intro spec _
      refine (leads_keepList (l := .empty t i spec) h (InvertedList.wellFormed_empty spec)
        (InvertedList.hosted_empty spec) name).bind ?_
      exact fun _ _ hkept => leads_pure hkept
  | share name other =>
      refine (looks_named Workspace.lists name w).then hrefl ?_
      intro id hname
      obtain ⟨hsound, hkeeps, hlimit⟩ := h.hold (Sound.mem_refs_of_list hname)
      exact leads_bind_ok rfl (leads_pure ((hsound.putList other).after hkeeps hlimit))
  | drop name =>
      refine looks_get.then hrefl ?_
      rintro _ rfl
      cases hname : w.lists.find? name with
      | none => exact leads_pure hrefl
      | some id => exact leads_bind_ok rfl (leads_pure (h.dropList hname))
  | same name other =>
      refine (looks_named Workspace.lists name w).then hrefl ?_
      intro _ _
      refine (looks_named Workspace.lists other w).then hrefl ?_
      exact fun _ _ => leads_pure hrefl
  | query name q =>
      refine (looks_listNamed name w).then hrefl ?_
      exact fun _ _ => (looks_check _ w).leads (fun _ _ => hrefl) hrefl
  | write name steps => exact leads_write h name steps
  | setSize name size =>
      exact leads_unshared h name (intact_setSize size) fun l _ => .info l.info
  | raw name =>
      have hget : ∀ l : InvertedList t i,
          Intact l (final (get : Action (InvertedList t i) (InvertedList t i)) l) := Intact.refl
      exact leads_unshared h name hget fun _ l => .raw l.data l.ids
  | poke name start data ids =>
      exact leads_unshared h name (intact_poke start data ids) fun _ _ => .flag true
  | resize name request records used => exact leads_resize h name request records used
  | save name request length room blob => exact leads_save h name request length room blob
  | load name source store device => exact leads_load h name source store device
  | createIndex name dim params =>
      refine (looks_check _ w).then hrefl ?_
      intro x hx
      obtain ⟨hgood, hzero⟩ := LoadedIndex.sound_new hx
      refine (leads_keepIndex (x := x) (hzero.symm ▸ h) hgood name).bind ?_
      exact fun _ _ hkept => leads_pure hkept
  | queryIndex name q =>
      refine (looks_named Workspace.indexes name w).then hrefl ?_
      intro x _
      refine looks_get.then hrefl ?_
      exact fun _ _ => (looks_check _ w).leads (fun _ _ => hrefl) hrefl
  | dropIndex name =>
      refine looks_get.then hrefl ?_
      rintro _ rfl
      cases hname : w.indexes.find? name with
      | none => exact leads_pure hrefl
      | some x => exact leads_bind_ok rfl (leads_pure (h.dropIndex hname))
  | extend name vectors ids assigner =>
      refine (leads_extend h name assigner vectors ids).bind ?_
      intro _ w' hkept
      exact looks_get.then hkept fun _ _ => leads_pure hkept
  | snapshot index label name => exact leads_snapshot h index label name
  | reset name =>
      refine (leads_reset h name).bind ?_
      intro _ w' hkept
      exact looks_get.then hkept fun _ _ => leads_pure hkept
  | saveIndex name room blob =>
      refine (looks_saveIndex h name room).then hrefl ?_
      exact fun bytes _ => leads_bind_ok rfl (leads_pure (kept_putBlob h blob bytes))
  | loadIndex name r =>
      refine (looks_sourceOf r w).then hrefl ?_
      intro source _
      refine (leads_loadIndex h name source).bind ?_
      exact fun _ _ hkept => leads_pure hkept
  | throughFile index place edits name => exact leads_throughFile h index place edits name

end Workspace

end InvertedFile
