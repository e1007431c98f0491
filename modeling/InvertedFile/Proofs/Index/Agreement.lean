import InvertedFile.Proofs.Index.Alike

/-!
# What two budgets agree on

A buffer is refused for what it is, because there is no such capacity, because
its bytes cannot be counted or because the host does not give as many; or it
is refused for what else is in use. Two budgets agree on the first kind of
refusal. On the second kind they need not, and what has come of it is excused.

What has to be excused depends on the budgets. A budget without a limit refuses
for what is in use only where the bytes in use with those of the buffer can no
longer be counted. So two indexes that look alike refuse the same batches, for
the same reasons, whatever their stores hold besides, as long as the bytes in
use can be counted in both, or, where there are limits, as long as these are
kept in both.

## Main results

* `create_agree` — what two budgets say of a list.
* `extend_agree`, `extend_joint` — what indexes that look alike say of a batch,
  and what they come to.
-/

namespace InvertedFile

open InvertedFile.Action

/-- The bytes in use could not be counted any more. -/
def Overflowed (o : Option Error) : Prop :=
  ∃ bytes, o = some (.allocation bytes .countOverflow)

/-- A buffer was refused for the bytes in use, which are too many with it to be counted or to keep
the limit. -/
def Error.IsBudgetRefusal (e : Error) : Prop :=
  ∃ bytes, e = .allocation bytes .countOverflow ∨
    ∃ inUse limit, e = .allocation bytes (.exhausted inUse limit)

/-- Some error that is an `IsBudgetRefusal`. -/
def BudgetRefused (o : Option Error) : Prop :=
  ∃ e, o = some e ∧ e.IsBudgetRefusal

/-- What a budget of this limit says for the bytes in use is excused, and success is not. -/
structure Excuses (excused : Option Error → Prop) (limit : Option Nat) : Prop where
  not_none : ¬ excused none
  of_refusal : ∀ (b : Budget) (bytes : Nat) (cause : Refusal), b.limit = limit →
    b.refusal? bytes = some cause → excused (some (.allocation bytes cause))

theorem excuses_overflowed : Excuses Overflowed none where
  not_none := by
    rintro ⟨bytes, h⟩
    cases h
  of_refusal := by
    intro b bytes cause hlimit hrefusal
    unfold Budget.refusal? at hrefusal
    by_cases hcount : byteLimit ≤ b.inUse + bytes
    · rw [if_pos hcount] at hrefusal
      cases hrefusal
      exact ⟨bytes, rfl⟩
    · rw [if_neg hcount, hlimit] at hrefusal
      cases hrefusal

theorem excuses_budgetRefused (limit : Option Nat) : Excuses BudgetRefused limit where
  not_none := by
    rintro ⟨e, h, -⟩
    cases h
  of_refusal := by
    intro b bytes cause hlimit hrefusal
    refine ⟨_, rfl, bytes, ?_⟩
    unfold Budget.refusal? at hrefusal
    by_cases hcount : byteLimit ≤ b.inUse + bytes
    · rw [if_pos hcount] at hrefusal
      cases hrefusal
      exact Or.inl rfl
    · rw [if_neg hcount] at hrefusal
      cases hlimit : b.limit with
      | none =>
          rw [hlimit] at hrefusal
          cases hrefusal
      | some limit =>
          simp only [hlimit] at hrefusal
          split at hrefusal
          · cases hrefusal
            exact Or.inr ⟨_, _, rfl⟩
          · cases hrefusal

/-- Two outcomes are the same, unless one of them is excused. -/
def Agree (excused : Option Error → Prop) (o o' : Option Error) : Prop :=
  o = o' ∨ excused o ∨ excused o'

variable {excused : Option Error → Prop}

theorem Agree.refl (o : Option Error) : Agree excused o o :=
  Or.inl rfl

/-- Sequences agree when their first parts agree and, where these succeed, their second parts. -/
theorem Agree.bind {σ σ' α α' β β' : Type} (hnone : ¬ excused none) {x : Action σ α}
    {x' : Action σ' α'} {f : α → Action σ β} {f' : α' → Action σ' β'} {s : σ} {s' : σ'}
    (hx : Agree excused (failure? x s) (failure? x' s'))
    (hf : ∀ a t a' t', x s = .ok a t → x' s' = .ok a' t' →
      Agree excused (failure? (f a) t) (failure? (f' a') t')) :
    Agree excused (failure? (x >>= f) s) (failure? (x' >>= f') s') := by
  cases hrun : x s with
  | ok a t =>
      cases hrun' : x' s' with
      | ok a' t' =>
          have hrest := hf a t a' t' hrun hrun'
          unfold failure? at hrest ⊢
          rwa [bind_ok hrun, bind_ok hrun']
      | error e' t' =>
          rw [failure?_of_ok hrun, failure?_of_error hrun'] at hx
          rw [failure?_of_error (bind_error hrun')]
          rcases hx with heq | hleft | hright
          · cases heq
          · exact absurd hleft hnone
          · exact Or.inr (Or.inr hright)
  | error e t =>
      rw [failure?_of_error hrun] at hx
      rw [failure?_of_error (bind_error hrun)]
      cases hrun' : x' s' with
      | ok a' t' =>
          rw [failure?_of_ok hrun'] at hx
          rcases hx with heq | hleft | hright
          · cases heq
          · exact Or.inr (Or.inl hleft)
          · exact absurd hright hnone
      | error e' t' =>
          rw [failure?_of_error hrun'] at hx
          rw [failure?_of_error (bind_error hrun')]
          exact hx

variable {t : ElementType} {i : IdType}

/-! ## Buffers and lists -/

namespace Budget

variable {b b' : Budget}

theorem charge_agree (hb : Excuses excused b.limit) (hb' : Excuses excused b'.limit)
    (bytes : Nat) : Agree excused (failure? (charge bytes) b) (failure? (charge bytes) b') := by
  have hfate : ∀ c : Budget, Excuses excused c.limit →
      failure? (charge bytes) c = none ∨ excused (failure? (charge bytes) c) := by
    intro c hc
    simp only [failure?, charge]
    cases hrefusal : c.refusal? bytes with
    | none => exact Or.inl rfl
    | some cause => exact Or.inr (hc.of_refusal c bytes cause rfl hrefusal)
  rcases hfate b hb with h | h
  · rcases hfate b' hb' with h' | h'
    · exact Or.inl (h.trans h'.symm)
    · exact Or.inr (Or.inr h')
  · exact Or.inr (Or.inl h)

theorem allocate_agree (hb : Excuses excused b.limit) (hb' : Excuses excused b'.limit)
    (count width : Nat) :
    Agree excused (failure? (allocate count width) b) (failure? (allocate count width) b') := by
  have hensure : ∀ {p : Prop} [Decidable p] {e : Error} {c c' : Budget},
      failure? (ensure p e : Action Budget Unit) c =
        failure? (ensure p e : Action Budget Unit) c' := by
    intro p _ e c c'
    by_cases hp : p
    · rw [failure?_of_ok (ensure_ok hp c), failure?_of_ok (ensure_ok hp c')]
    · rw [failure?_of_error (ensure_error hp _),
        failure?_of_error (ensure_error hp _)]
  unfold allocate
  refine Agree.bind hb.not_none (Or.inl hensure) ?_
  rintro _ c _ c' hc hc'
  obtain ⟨-, rfl⟩ := ensure_eq_ok.mp hc
  obtain ⟨-, rfl⟩ := ensure_eq_ok.mp hc'
  refine Agree.bind hb.not_none (charge_agree hb hb' _) ?_
  rintro _ d _ d' - -
  refine Agree.bind hb.not_none ?_ fun _ _ _ _ _ _ => Agree.refl _
  rw [failure?_undoing, failure?_undoing]
  exact Or.inl hensure

end Budget

/-- Two budgets agree on every list. -/
theorem InvertedList.create_agree {b b' : Budget} (hb : Excuses excused b.limit)
    (hb' : Excuses excused b'.limit) (spec : ListSpec) (records : Nat) :
    Agree excused (failure? (create t i spec records) b)
      (failure? (create t i spec records) b') := by
  unfold create
  cases spec.growth.capacity? records with
  | none => exact Agree.refl _
  | some capacity =>
      refine Agree.bind hb.not_none (Budget.allocate_agree hb hb' _ _) ?_
      rintro _ c _ c' hc hc'
      obtain ⟨-, -, rfl⟩ := Budget.allocate_ok_iff.mp hc
      obtain ⟨-, -, rfl⟩ := Budget.allocate_ok_iff.mp hc'
      refine Agree.bind hb.not_none ?_ fun _ _ _ _ _ _ => Agree.refl _
      rw [failure?_undoing, failure?_undoing]
      exact Budget.allocate_agree ((Budget.limit_charged b _).symm ▸ hb)
        ((Budget.limit_charged b' _).symm ▸ hb') _ _

namespace Store

/-- A copy in the layout of the original is refused where its list is. -/
theorem failure?_copyOf {source : InvertedList t i} (hsource : source.WellFormed)
    {records : Nat} (hrecords : source.size ≤ records) (b : Budget) :
    failure? (copyOf source source.spec records source.size) b =
      failure? (InvertedList.create t i source.spec records) b := by
  apply failure?_bind
  intro dest b' hcreate
  obtain ⟨capacity, hcapacity, -, rfl, rfl⟩ := InvertedList.create_ok_iff.mp hcreate
  have hroom : source.size ≤ capacity := Nat.le_trans hrecords (Growth.le_capacity hcapacity)
  obtain ⟨after, hcopy, -⟩ := InvertedList.copyRecords_ok hsource
    (InvertedList.wellFormed_blank (t := t) (i := i) hcapacity) rfl (Nat.le_refl _) hroom
    (Or.inr (Or.inl rfl))
  rw [failure?_undoing]
  exact failure?_of_ok hcopy

/-- Room in a list is refused where the list is full and a larger one is refused. -/
theorem failure?_resize {s : Store t i} {id : ListId} {h : Holding t i}
    (hfind : s.find? id = some h) (hwell : h.list.WellFormed) (more : Nat) :
    failure? (resize id h.list.spec (h.list.size + more) h.list.size) s =
      if h.list.size + more ≤ h.list.capacity then none
      else failure? (InvertedList.create t i h.list.spec (h.list.size + more)) s.budget := by
  have hkeep : min h.list.size (h.list.size + more) = h.list.size :=
    Nat.min_eq_left (Nat.le_add_right _ _)
  by_cases hroom : h.list.size + more ≤ h.list.capacity
  · rw [if_pos hroom]
    rcases resize_cases hfind hwell h.list.spec (h.list.size + more) h.list.size with
      ⟨e, -, hdim | hused | ⟨hfull | ⟨hcut, -⟩, -⟩⟩ | ⟨-, -, ⟨-, -, -, hstay⟩ |
        ⟨-, -, hcut, -⟩ | ⟨hfull | ⟨hcut, -⟩, -⟩⟩
    · exact absurd rfl hdim
    · exact absurd hused (Nat.lt_irrefl _)
    · exact absurd ⟨hroom, rfl⟩ hfull
    · exact absurd hkeep hcut
    · exact failure?_of_ok hstay
    · exact absurd hkeep hcut
    · exact absurd ⟨hroom, rfl⟩ hfull
    · exact absurd hkeep hcut
  · rw [if_neg hroom, failure?, resize_eq_replace hfind rfl (Nat.le_refl _)
      (Or.inl fun hfits => hroom hfits.1), hkeep]
    show failure? (replace id h.list h.list.spec (h.list.size + more) h.list.size) s = _
    rw [replace, failure?_bind fun _ _ _ => rfl, failure?, duplicate_eq hfind]
    show failure? (budgeted _) s = _
    rw [budgeted, failure?_focus]
    exact failure?_copyOf hwell (Nat.le_add_right _ _) s.budget

end Store

/-! ## Batches -/

namespace Index

/-- Room for a portion is refused where a larger list is. -/
theorem failure?_stage {x : Index} {s : Store t i} {refs : List ListId} {pending : Nat}
    (hx : x.Sound s) (hacc : s.Accounts refs pending) {p : Portion t i} {id : ListId}
    {l : InvertedList t i} (hid : x.slots[p.label]? = some id) (hl : s.list? id = some l) :
    failure? (stage x p) s =
      if l.size + p.ids.size ≤ l.capacity then none
      else failure? (InvertedList.create t i x.spec (l.size + p.ids.size)) s.budget := by
  obtain ⟨hspec, -⟩ := hx.spec_tight hid hl
  obtain ⟨h, hfind, rfl⟩ := Store.list?_eq_some_iff.mp hl
  have hwell := hacc.wellFormed hfind
  have hresize := Store.failure?_resize (Store.find?_hold_self hfind) hwell p.ids.size
  rw [Store.budget_hold, hspec] at hresize
  rw [failure?, stage_eq hid hfind]
  show failure? (Action.undoing (Store.release id) _) (s.hold id) = _
  rw [failure?_undoing, failure?_bind fun _ _ _ => rfl]
  exact hresize

/-- What is known of a portion that room has been found for. -/
theorem stagedOne_of_ok {x : Index} {s s' : Store t i} {refs : List ListId} {pending : Nat}
    (hx : x.Sound s) (hacc : s.Accounts refs pending) (hslots : ∀ id ∈ x.slots.toList, id ∈ refs)
    {p : Portion t i} {id : ListId} (hid : x.slots[p.label]? = some id) {st : Staged t i}
    (h : stage x p s = .ok st s') : StagedOne x s refs pending p st s' := by
  have hmem : id ∈ refs := hslots id (mem_of_slot hid)
  rcases stage_cases hx hacc hid hmem with ⟨e, s₁, hstage, -⟩ | ⟨st₁, s₁, hstage, hone⟩
  · rw [h] at hstage
    cases hstage
  · rw [h] at hstage
    cases hstage
    exact hone

end Index

namespace OpenIndex

open Index

variable {x x' : Index} {s s' : Store t i} {refs refs' : List ListId} {pending pending' : Nat}

/-- Indexes that look alike agree on the room for a batch. -/
theorem Alike.stageAll_agree (h : Alike { index := x, store := s } { index := x', store := s' })
    (hx : x.Sound s) (hx' : x'.Sound s') (hacc : s.Accounts refs pending)
    (hacc' : s'.Accounts refs' pending') (hslots : ∀ id ∈ x.slots.toList, id ∈ refs)
    (hslots' : ∀ id ∈ x'.slots.toList, id ∈ refs') (hlimit : Excuses excused s.budget.limit)
    (hlimit' : Excuses excused s'.budget.limit) {ps : List (Portion t i)}
    (hlabels : ∀ p ∈ ps, p.label < x.lists) :
    Agree excused (failure? (stageAll x ps) s) (failure? (stageAll x' ps) s') := by
  induction ps generalizing s s' refs refs' with
  | nil => exact Agree.refl _
  | cons p rest ih =>
      obtain ⟨id, l, id', l', hid, hl, hid', hl', halike⟩ :=
        h.list p.label (hlabels p (List.mem_cons_self ..))
      refine Agree.bind hlimit.not_none ?_ ?_
      · rw [failure?_stage hx hacc hid hl, failure?_stage hx' hacc' hid' hl', h.spec_eq,
          halike.size_eq, halike.capacity_eq]
        split
        · exact Agree.refl _
        · exact InvertedList.create_agree hlimit hlimit' _ _
      · intro st s₁ st' s₁' hstage hstage'
        refine Agree.bind hlimit.not_none ?_ fun _ _ _ _ _ _ => Agree.refl _
        rw [failure?_undoing, failure?_undoing]
        have hone := stagedOne_of_ok hx hacc hslots hid hstage
        have hone' := stagedOne_of_ok hx' hacc' hslots' hid' hstage'
        have hleaves := hone.leaves.mono hslots
        have hleaves' := hone'.leaves.mono hslots'
        exact ih (h.leaves hleaves hleaves') (hx.keeps hacc hleaves.keeps)
          (hx'.keeps hacc' hleaves'.keeps) hone.accounts hone'.accounts
          (fun id hid => List.mem_cons_of_mem _ (hslots id hid))
          (fun id hid => List.mem_cons_of_mem _ (hslots' id hid))
          (hone.limit_eq ▸ hlimit) (hone'.limit_eq ▸ hlimit')
          fun p' hp' => hlabels p' (List.mem_cons_of_mem p hp')

theorem failure?_stored {α : Type} (act : Action (Store t i) α) (y : OpenIndex t i) :
    failure? (stored act) y = failure? act y.store := by
  cases hrun : act y.store with
  | ok a s => rw [failure?_of_ok hrun, failure?_of_ok (stored_ok hrun)]
  | error e s => rw [failure?_of_error hrun, failure?_of_error (stored_error hrun)]

/-- Nothing but the search for room can refuse a batch that has a plan. -/
theorem failure?_extend {y : OpenIndex t i} (hy : y.Sound refs) {assigner : Assigner t}
    {vectors : Array (Word t)} {given : Option (Array (Id i))} {ps : List (Portion t i)}
    (hplan : plan y.index.dim (y.index.sizes y.store) y.index.slots.size assigner vectors given =
      .ok ps) :
    failure? (extend assigner vectors given) y = failure? (stageAll y.index ps) y.store := by
  obtain ⟨hvalid, hnodup⟩ := valid_of_plan hy.index hy.accounts hplan
  rw [failure?, extend_eq, bind_ok (ofExcept_ok hplan _), ← failure?_stored]
  apply failure?_bind
  intro staged z hstored
  rcases stageAll_cases hy.index hy.accounts (fun id hid => List.mem_append_left refs hid)
    (fun p hp => (hvalid p hp).label_lt) hnodup with
    ⟨e, s₁, hstage, -⟩ | ⟨staged₁, s₁, hstage, hstaged⟩
  · rw [stored_error hstage] at hstored
    cases hstored
  · rw [stored_ok hstage] at hstored
    cases hstored
    obtain ⟨x', s', hplace, -⟩ :=
      placeAll_of_stageAll hy.index hy.accounts hstaged hvalid hnodup
    exact failure?_of_ok hplace

/-- Indexes that look alike agree on every batch. -/
theorem Alike.extend_agree {y y' : OpenIndex t i} (h : y.Alike y') (hy : y.Sound refs)
    (hy' : y'.Sound refs') (hlimit : Excuses excused y.store.budget.limit)
    (hlimit' : Excuses excused y'.store.budget.limit) (assigner : Assigner t)
    (vectors : Array (Word t)) (given : Option (Array (Id i))) :
    Agree excused (failure? (extend assigner vectors given) y)
      (failure? (extend assigner vectors given) y') := by
  have hsame : plan y'.index.dim (y'.index.sizes y'.store) y'.index.slots.size assigner vectors
      given = plan y.index.dim (y.index.sizes y.store) y.index.slots.size assigner vectors
        given := by
    rw [h.dim_eq, h.sizes_eq hy hy', h.size_slots hy hy']
  cases hplan : plan y.index.dim (y.index.sizes y.store) y.index.slots.size assigner vectors
    given with
  | error e =>
      left
      have hfails : ∀ z : OpenIndex t i, plan z.index.dim (z.index.sizes z.store)
          z.index.slots.size assigner vectors given = .error e →
          failure? (extend assigner vectors given) z = some e := by
        intro z hz
        rw [failure?, extend_eq, bind_error (ofExcept_error hz _)]
      rw [hfails y hplan, hfails y' (hsame.trans hplan)]
  | ok ps =>
      rw [failure?_extend hy hplan, failure?_extend hy' (hsame.trans hplan)]
      have hvalid := (valid_of_plan hy.index hy.accounts hplan).1
      exact h.stageAll_agree hy.index hy'.index hy.accounts hy'.accounts
        (fun id hid => List.mem_append_left refs hid)
        (fun id hid => List.mem_append_left refs' hid) hlimit hlimit'
        fun p hp => hy.index.lt_size.mp (hvalid p hp).label_lt

/-- What two indexes that looked alike have come to: they look alike, whether the batch was taken or
refused, unless it was refused in one of them alone, and that is excused. -/
inductive Joint (excused : Option Error → Prop) :
    EStateM.Result Error (OpenIndex t i) Unit → EStateM.Result Error (OpenIndex t i) Unit →
      Prop where
  | taken {z z' : OpenIndex t i} (h : z.Alike z') : Joint excused (.ok () z) (.ok () z')
  | refused {e e' : Error} {z z' : OpenIndex t i} (h : z.Alike z')
      (hagree : Agree excused (some e) (some e')) : Joint excused (.error e z) (.error e' z')
  | left {e : Error} {z z' : OpenIndex t i} (h : excused (some e)) :
      Joint excused (.error e z) (.ok () z')
  | right {e : Error} {z z' : OpenIndex t i} (h : excused (some e)) :
      Joint excused (.ok () z) (.error e z')

/-- Indexes that look alike take a batch in the same way, or they refuse it and stay as they are. -/
theorem Alike.extend_joint {y y' : OpenIndex t i} (h : y.Alike y') (hy : y.Sound refs)
    (hy' : y'.Sound refs') (hlimit : Excuses excused y.store.budget.limit)
    (hlimit' : Excuses excused y'.store.budget.limit) (assigner : Assigner t)
    (vectors : Array (Word t)) (given : Option (Array (Id i))) :
    Joint excused (extend assigner vectors given y) (extend assigner vectors given y') := by
  have hagree := h.extend_agree hy hy' hlimit hlimit' assigner vectors given
  obtain ⟨x, s⟩ := y
  obtain ⟨x', s'⟩ := y'
  rcases Index.extend_cases hy.index hy.accounts assigner vectors given with
    ⟨e, s₁, hrun, hsame, -⟩ | ⟨batch, labels, x₁, s₁, hrun, haccepted, hextended, hx₁, hacc₁, -⟩
  · rcases Index.extend_cases hy'.index hy'.accounts assigner vectors given with
      ⟨e', s₁', hrun', hsame', -⟩ | ⟨_, _, x₁', s₁', hrun', -⟩
    · rw [failure?_of_error hrun, failure?_of_error hrun'] at hagree
      rw [hrun, hrun']
      exact .refused (h.leaves (hsame.leaves _) (hsame'.leaves _)) hagree
    · rw [failure?_of_error hrun, failure?_of_ok hrun'] at hagree
      rw [hrun, hrun']
      rcases hagree with heq | hexcused | hexcused
      · cases heq
      · exact .left hexcused
      · exact absurd hexcused hlimit.not_none
  · rcases Index.extend_cases hy'.index hy'.accounts assigner vectors given with
      ⟨e', s₁', hrun', -⟩ | ⟨batch', labels', x₁', s₁', hrun', haccepted', hextended', hx₁',
        hacc₁', -⟩
    · rw [failure?_of_ok hrun, failure?_of_error hrun'] at hagree
      rw [hrun, hrun']
      rcases hagree with heq | hexcused | hexcused
      · cases heq
      · exact absurd hexcused hlimit.not_none
      · exact .right hexcused
    · rw [h.dim_eq, h.sizes_eq hy hy', h.size_slots hy hy'] at haccepted'
      obtain ⟨rfl, rfl⟩ := haccepted.unique x.spec.layout.dim_pos haccepted'
      rw [hrun, hrun']
      exact .taken (h.extended ⟨hx₁, hacc₁⟩ ⟨hx₁', hacc₁'⟩ hextended hextended')

end OpenIndex

end InvertedFile
