import InvertedFile.Proofs.Index.Creation
import InvertedFile.Proofs.Index.Numbering
import InvertedFile.Proofs.Workspace.Extension
import InvertedFile.Proofs.Workspace.IndexSteps

/-!
# Chronicles of an index

An index is made, and from then on it is extended and reset, saved here and
loaded there, under one name and another, while other things happen around it.
A chronicle of an index follows it through all of this, and writes down the
rows that were added since it was made or last reset.

Its lists may have other holders, and one of these may write behind the
published records. Then the rows of the index are no longer known, until the
next reset.

## Main results

* `Chronicle.follows` — what is true of an index that has a chronicle.
* `default_ids_number_records` — where no row came with an id, the ids of the
  lists number the rows of the chronicle.
-/

namespace InvertedFile

namespace Workspace

open InvertedFile.Action

variable {t : ElementType} {i : IdType} {params : IndexParams} {dim : UInt32}

/-- What has become of an index that was made of these parameters and for this width, and which rows
it was given since it was empty, if they are known. -/
inductive Chronicle (params : IndexParams) (dim : UInt32) :
    Workspace t i → String → Option (List (Row t i)) → Prop where
  | made {limit : Option Nat} {w w' : Workspace t i} {name : String} {a : Answer t i}
      (hw : Reached limit w) (hstep : performStep (.createIndex name dim params) w = .ok a w') :
      Chronicle params dim w' name (some [])
  | extended {w w' : Workspace t i} {name : String} {rows : Option (List (Row t i))}
      {a : Answer t i} (h : Chronicle params dim w name rows) (b : Batch t i)
      (hstep : performStep (.extend name b.vectors b.ids b.assigner) w = .ok a w') :
      Chronicle params dim w' name (rows.map (· ++ b.rows dim.toNat))
  | refused {w w' : Workspace t i} {name : String} {rows : Option (List (Row t i))} {f : Failure}
      (h : Chronicle params dim w name rows) (b : Batch t i)
      (hstep : performStep (.extend name b.vectors b.ids b.assigner) w = .error f w') :
      Chronicle params dim w' name rows
  | reset {w : Workspace t i} {name : String} {rows : Option (List (Row t i))}
      (h : Chronicle params dim w name rows) :
      Chronicle params dim (final (performStep (.reset name)) w) name (some [])
  /-- The index is loaded from what was written of it, with anything behind that, in any workspace
  and under any name. -/
  | loaded {limit : Option Nat} {w w₁ v v' : Workspace t i} {name other : String}
      {rows : Option (List (Row t i))} {room : Option Nat} {blob : Option String}
      {bytes tail : Bytes} {r : Reading} {ending : Ending} {a : Answer t i}
      (h : Chronicle params dim w name rows)
      (hsave : performStep (.saveIndex name room blob) w = .ok (.bytes bytes) w₁)
      (hv : Reached limit v)
      (hsource : sourceOf r v = .ok { bytes := bytes ++ tail, ending } v)
      (hload : performStep (.loadIndex other r) v = .ok a v') :
      Chronicle params dim v' other rows
  /-- The index is saved to a file and loaded from it. -/
  | filed {w w' : Workspace t i} {name other : String} {rows : Option (List (Row t i))}
      {place : FilePlace} {edits : Edits} {tail : Bytes} {a : Answer t i}
      (h : Chronicle params dim w name rows) (hedits : ∀ bytes, edits.apply bytes = bytes ++ tail)
      (hstep : performStep (.throughFile name place edits other) w = .ok a w') :
      Chronicle params dim w' other rows
  /-- Something else happens, and the lists of the index look as they did. -/
  | meanwhile {w : Workspace t i} {name : String} {rows : Option (List (Row t i))} {x : Index}
      (h : Chronicle params dim w name rows) (c : Command t i)
      (hname : w.indexes.find? name = some x)
      (hname' : (final (perform c) w).indexes.find? name = some x)
      (halike : OpenIndex.Alike { index := x, store := w.store }
        { index := x, store := (final (perform c) w).store }) :
      Chronicle params dim (final (perform c) w) name rows
  /-- Something else happens, and other holders of the lists of the index may have written them. -/
  | written {w : Workspace t i} {name : String} {rows : Option (List (Row t i))} {x : Index}
      (h : Chronicle params dim w name rows) (c : Command t i)
      (hname : w.indexes.find? name = some x)
      (hname' : (final (perform c) w).indexes.find? name = some x) :
      Chronicle params dim (final (perform c) w) name none

/-! ## What is true of an index that has a chronicle -/

/-- A name stands for an index of these parameters, with the layout it was made with for this width,
that holds the rows that are known of it. -/
structure Follows (params : IndexParams) (dim : UInt32) (w : Workspace t i) (name : String)
    (rows : Option (List (Row t i))) (x : Index) : Prop where
  reached : ∃ limit, Reached limit w
  find?_eq : w.indexes.find? name = some x
  params_eq : x.params = params
  spec_eq : ∃ made : LoadedIndex t i, LoadedIndex.new t i params dim = .ok made ∧
    x.spec = made.spec
  holds : ∀ known, rows = some known →
    OpenIndex.Holds { index := x, store := w.store } known

variable {w w' v v' : Workspace t i} {name other : String} {rows : Option (List (Row t i))}
  {x : Index}

/-- An index that was made anew has empty lists. -/
theorem Takes.vacant {made : LoadedIndex t i} (htakes : Takes made w name x)
    (hnew : LoadedIndex.new t i params dim = .ok made) :
    OpenIndex.Vacant { index := x, store := w.store } := by
  obtain ⟨-, hparams, -, hempty⟩ := LoadedIndex.creatable_new hnew
  intro label hlt
  have hlists : x.lists = params.lists.toNat := by
    rw [Index.lists, htakes.params_eq, hparams]
  change label < x.lists at hlt
  rw [hlists] at hlt
  change x.slots[label]?.bind w.store.list? = some (.empty t i x.spec)
  rw [htakes.list, hempty, List.getElem?_replicate, if_pos hlt, htakes.spec_eq]

/-- A workspace is reached by a step. -/
theorem Reached.step {limit : Option Nat} (h : Reached limit w) (s : Step t i) :
    Reached limit (final (performStep s) w) := by
  have hreached := Reached.perform h (.step s)
  rwa [Workspace.perform] at hreached

/-- An index looks like the one whose image it was read from. -/
theorem Takes.alike_of_write {made : LoadedIndex t i} {z : Index} (htakes : Takes made v other z)
    {refs : List ListId} (hx : OpenIndex.Sound { index := x, store := w.store } refs)
    {room : Option Nat} {budget : Budget} {file : Transfer Sink} {b : Budget}
    {out : Transfer Source} {tail : Bytes} {ending : Ending}
    (hwrite : x.write w.store { budget, stream := .empty room } = .ok () file)
    (hread : LoadedIndex.read t i
        { budget := b, stream := { bytes := file.stream.written ++ tail, ending } } =
      .ok made out) :
    OpenIndex.Alike { index := x, store := w.store } { index := z, store := v.store } := by
  obtain ⟨fields, himage, hwritten⟩ := Index.image_of_write hx.index hx.accounts hwrite
  have hbytes : file.stream.written = fields.flatten := hwritten
  rw [hbytes] at hread
  rcases LoadedIndex.read_of_image hx.index hx.accounts himage b tail ending with
    ⟨-, e, tr, hrun, -⟩ | ⟨y, hrun, hparams, hspec, halikes⟩
  · rw [hread] at hrun
    cases hrun
  · rw [hread] at hrun
    cases hrun
    exact LoadedIndex.alike_of_lists hx.index halikes (htakes.params_eq.trans hparams)
      (htakes.spec_eq.trans hspec) htakes.list

namespace Follows

theorem dim_eq (h : Follows params dim w name rows x) : x.dim = dim.toNat := by
  obtain ⟨made, hnew, hspec⟩ := h.spec_eq
  rw [Index.dim, hspec]
  exact (LoadedIndex.creatable_new hnew).2.2.1

/-- The index is in order, beside some references to lists. -/
theorem sound (h : Follows params dim w name rows x) :
    ∃ refs, OpenIndex.Sound { index := x, store := w.store } refs := by
  obtain ⟨limit, hw⟩ := h.reached
  obtain ⟨held, hsound⟩ := hw.sound
  exact ⟨_, hsound.opened h.find?_eq⟩

/-- What is true of an index is true of one that looks like it. -/
theorem alike (h : Follows params dim w name rows x) (hv : ∃ limit, Reached limit v) {z : Index}
    (hname : v.indexes.find? other = some z)
    (halike : OpenIndex.Alike { index := x, store := w.store } { index := z, store := v.store }) :
    Follows params dim v other rows z where
  reached := hv
  find?_eq := hname
  params_eq := halike.params_eq.trans h.params_eq
  spec_eq := by
    obtain ⟨made, hnew, hspec⟩ := h.spec_eq
    exact ⟨made, hnew, halike.spec_eq.trans hspec⟩
  holds := by
    intro known hrows
    obtain ⟨refs, hx⟩ := h.sound
    obtain ⟨limit, hv⟩ := hv
    obtain ⟨held, hsound⟩ := hv.sound
    exact (h.holds known hrows).alike halike hx (hsound.opened hname)

/-- An index that is made has no rows. -/
theorem made {limit : Option Nat} (hw : Reached limit w) {a : Answer t i}
    (hstep : performStep (.createIndex name dim params) w = .ok a w') :
    ∃ x, Follows params dim w' name (some []) x := by
  have hw' := hw.step (.createIndex name dim params)
  rw [final_ok hstep] at hw'
  obtain ⟨held, hsound⟩ := hw.sound
  obtain ⟨held', hsound'⟩ := hw'.sound
  obtain ⟨made, x, hnew, htakes⟩ := createIndex_cases hsound hstep
  obtain ⟨-, hparams, -⟩ := LoadedIndex.creatable_new hnew
  refine ⟨x, ⟨limit, hw'⟩, htakes.find?_eq, htakes.params_eq.trans hparams,
    ⟨made, hnew, htakes.spec_eq⟩, ?_⟩
  rintro known ⟨⟩
  exact OpenIndex.holds_nil (hsound'.opened htakes.find?_eq) (htakes.vacant hnew)

/-- An extension that succeeds adds the rows of its batch. -/
theorem extended (h : Follows params dim w name rows x) (b : Batch t i) {a : Answer t i}
    (hstep : performStep (.extend name b.vectors b.ids b.assigner) w = .ok a w') :
    ∃ y, Follows params dim w' name (rows.map (· ++ b.rows dim.toNat)) y := by
  obtain ⟨limit, hw⟩ := h.reached
  have hw' := hw.step (.extend name b.vectors b.ids b.assigner)
  rw [final_ok hstep] at hw'
  obtain ⟨refs, hx⟩ := h.sound
  cases hadd : b.add { index := x, store := w.store } with
  | error e y =>
      rw [extend_error h.find?_eq hadd] at hstep
      cases hstep
  | ok u y =>
      rw [extend_ok h.find?_eq hadd] at hstep
      cases hstep
      obtain ⟨-, -, hgrown⟩ := OpenIndex.grown_add hx hadd
      refine ⟨y.index, ⟨limit, hw'⟩, find?_withOpen w name y, hgrown.params_eq.trans h.params_eq,
        ?_, ?_⟩
      · obtain ⟨made, hnew, hspec⟩ := h.spec_eq
        exact ⟨made, hnew, hgrown.spec_eq.trans hspec⟩
      · intro known hknown
        obtain ⟨before, hbefore, rfl⟩ := Option.map_eq_some_iff.mp hknown
        rw [← h.dim_eq]
        exact (h.holds before hbefore).add hx hadd

/-- An extension that fails leaves the index as it was. -/
theorem refused (h : Follows params dim w name rows x) (b : Batch t i) {f : Failure}
    (hstep : performStep (.extend name b.vectors b.ids b.assigner) w = .error f w') :
    Follows params dim w' name rows x := by
  obtain ⟨limit, hw⟩ := h.reached
  have hw' := hw.step (.extend name b.vectors b.ids b.assigner)
  rw [final_error hstep] at hw'
  obtain ⟨refs, hx⟩ := h.sound
  rcases Index.extend_cases hx.index hx.accounts b.assigner b.vectors b.ids with
    ⟨e, s, hrun, hsame, -⟩ | ⟨_, _, _, _, hrun, -⟩
  · rw [extend_error h.find?_eq hrun] at hstep
    cases hstep
    exact h.alike ⟨limit, hw'⟩ (find?_withOpen w name _)
      (hx.alike_self.leaves (Store.Leaves.refl _ _) (hsame.leaves _))
  · rw [extend_ok h.find?_eq hrun] at hstep
    cases hstep

/-- A reset leaves an index without rows. -/
theorem reset (h : Follows params dim w name rows x) :
    ∃ y, Follows params dim (final (performStep (.reset name)) w) name (some []) y := by
  obtain ⟨limit, hw⟩ := h.reached
  have hw' := hw.step (.reset name)
  obtain ⟨refs, hx⟩ := h.sound
  obtain ⟨x', s, hrun, hx', hreset⟩ := Index.reset_ok hx.index hx.accounts
  rw [final_ok (reset_ok h.find?_eq hrun)] at hw' ⊢
  refine ⟨x', ⟨limit, hw'⟩, find?_withOpen w name _, hreset.params_eq.trans h.params_eq, ?_, ?_⟩
  · obtain ⟨made, hnew, hspec⟩ := h.spec_eq
    exact ⟨made, hnew, hreset.spec_eq.trans hspec⟩
  · rintro known ⟨⟩
    exact OpenIndex.holds_nil ⟨hx', hreset.accounts⟩
      (OpenIndex.vacant_of_reset hx.index hreset)

/-- An index that is loaded from what was written of it has the same rows. -/
theorem loaded (h : Follows params dim w name rows x) {room : Option Nat}
    {blob : Option String} {bytes tail : Bytes} {w₁ : Workspace t i}
    (hsave : performStep (.saveIndex name room blob) w = .ok (.bytes bytes) w₁)
    {limit : Option Nat} (hv : Reached limit v) {r : Reading} {ending : Ending} {a : Answer t i}
    (hsource : sourceOf r v = .ok { bytes := bytes ++ tail, ending } v)
    (hload : performStep (.loadIndex other r) v = .ok a v') :
    ∃ z, Follows params dim v' other rows z := by
  have hv' := hv.step (.loadIndex other r)
  rw [final_ok hload] at hv'
  obtain ⟨limit', hw⟩ := h.reached
  obtain ⟨held, hsound⟩ := hw.sound
  obtain ⟨held', hsound'⟩ := hv.sound
  obtain ⟨old, file, hname, hwrite, hbytes⟩ := saveIndex_cases hsound hsave
  obtain rfl := Option.some.inj (hname.symm.trans h.find?_eq)
  obtain rfl := Answer.bytes.inj hbytes
  obtain ⟨source, made, out, z, hsource', hread, htakes⟩ := loadIndex_cases hsound' hload
  rw [hsource] at hsource'
  cases hsource'
  obtain ⟨refs, hx⟩ := h.sound
  exact ⟨z, h.alike ⟨limit, hv'⟩ htakes.find?_eq (htakes.alike_of_write hx hwrite hread)⟩

/-- An index that goes through a file has the same rows. -/
theorem filed (h : Follows params dim w name rows x) {place : FilePlace} {edits : Edits}
    {tail : Bytes} {a : Answer t i} (hedits : ∀ bytes, edits.apply bytes = bytes ++ tail)
    (hstep : performStep (.throughFile name place edits other) w = .ok a w') :
    ∃ z, Follows params dim w' other rows z := by
  obtain ⟨limit, hw⟩ := h.reached
  have hw' := hw.step (.throughFile name place edits other)
  rw [final_ok hstep] at hw'
  obtain ⟨held, hsound⟩ := hw.sound
  obtain ⟨old, file, made, out, z, hname, hwrite, hread, htakes⟩ := throughFile_cases hsound hstep
  obtain rfl := Option.some.inj (hname.symm.trans h.find?_eq)
  rw [hedits] at hread
  obtain ⟨refs, hx⟩ := h.sound
  exact ⟨z, h.alike ⟨limit, hw'⟩ htakes.find?_eq (htakes.alike_of_write hx hwrite hread)⟩

end Follows

/-- An index that has a chronicle is as the chronicle says. -/
theorem Chronicle.follows (h : Chronicle params dim w name rows) :
    ∃ x, Follows params dim w name rows x := by
  induction h with
  | made hw hstep => exact Follows.made hw hstep
  | extended _ b hstep ih =>
      obtain ⟨x, hx⟩ := ih
      exact hx.extended b hstep
  | refused _ b hstep ih =>
      obtain ⟨x, hx⟩ := ih
      exact ⟨x, hx.refused b hstep⟩
  | reset _ ih =>
      obtain ⟨x, hx⟩ := ih
      exact hx.reset
  | loaded _ hsave hv hsource hload ih =>
      obtain ⟨x, hx⟩ := ih
      exact hx.loaded hsave hv hsource hload
  | filed _ hedits hstep ih =>
      obtain ⟨x, hx⟩ := ih
      exact hx.filed hedits hstep
  | meanwhile _ c hname hname' halike ih =>
      obtain ⟨x, hx⟩ := ih
      obtain rfl := Option.some.inj (hname.symm.trans hx.find?_eq)
      obtain ⟨limit, hw⟩ := hx.reached
      exact ⟨_, hx.alike ⟨limit, hw.perform c⟩ hname' halike⟩
  | written _ c hname hname' ih =>
      obtain ⟨x, hx⟩ := ih
      obtain rfl := Option.some.inj (hname.symm.trans hx.find?_eq)
      obtain ⟨limit, hw⟩ := hx.reached
      refine ⟨_, ⟨limit, hw.perform c⟩, hname', hx.params_eq, hx.spec_eq, ?_⟩
      rintro known ⟨⟩

/-! ## Default ids -/

/-- **Default ids number the records.** Where no row that was added since an index was made or last
reset came with an id, the ids of all lists together are the numbers below the size of the index,
each of them once. In each list they increase. The record of a number is the row of that number, in
the list of its label, and no record has the id that stands for none. -/
theorem default_ids_number_records {rows : List (Row t i)}
    (h : Chronicle params dim w name (some rows)) (hdefault : ∀ r ∈ rows, r.id = none) :
    ∃ x, w.indexes.find? name = some x ∧ x.size w.store = rows.length ∧
      ((List.range x.lists).flatMap (OpenIndex.ids { index := x, store := w.store })).Perm
        ((List.range (x.size w.store)).map fun k : Nat => (k : Int)) ∧
      ∀ label < x.lists, ∃ id l, x.slots[label]? = some id ∧ w.store.list? id = some l ∧
        OpenIndex.ids { index := x, store := w.store } label =
          l.published.map (fun record => record.1.value) ∧
        (l.published.map fun record => record.1.value).Pairwise (· < ·) ∧
        ∀ record ∈ l.published, record.1 ≠ Id.invalid i ∧ ∃ (k : Nat) (r : Row t i),
          rows[k]? = some r ∧ record.1.value = k ∧ record.2 = r.columns ∧
            r.label.map UInt32.toNat = some label := by
  obtain ⟨x, hx⟩ := h.follows
  have hholds := hx.holds rows rfl
  obtain ⟨refs, hsound⟩ := hx.sound
  obtain ⟨hperm, hlists⟩ := hholds.numbered hdefault
  refine ⟨x, hx.find?_eq, hholds.size_eq, hperm, fun label hlt => ?_⟩
  obtain ⟨hpairwise, hrecords⟩ := hlists label hlt
  have hid := Array.getElem?_eq_getElem (hsound.index.lt_size.mpr hlt)
  obtain ⟨l, hl, -⟩ := hsound.index.list label _ hid
  have heq := OpenIndex.records_eq (y := { index := x, store := w.store }) hid hl
  have hids : OpenIndex.ids { index := x, store := w.store } label =
      l.published.map fun record => record.1.value := by
    rw [OpenIndex.ids, heq]
  exact ⟨_, l, hid, hl, hids, hids ▸ hpairwise, heq ▸ hrecords⟩

/-- Rows of one column for the lists of these labels, without ids. -/
def forLabels (labels : Array UInt32) (columns : Array (Word .u8)) : Batch .u8 .i32 where
  assigner := Assigner.precomputed labels
  vectors := columns
  ids := none

/-- Adds a batch to the index of a name. -/
def adding (name : String) (b : Batch t i) : Step t i :=
  .extend name b.vectors b.ids b.assigner

/-- A file is left as it is. -/
def leaveIt : Edits where
  keep := none
  patches := []
  tail := []

/-- An index of two lists. -/
def madeOfTwo : Workspace .u8 .i32 :=
  final (performStep (.createIndex "x" 1 (.new 2))) (new .u8 .i32 none)

/-- It has taken three rows. -/
def takenThree : Workspace .u8 .i32 :=
  final (performStep (adding "x" (forLabels #[1, 0, 1] #[7, 8, 9]))) madeOfTwo

theorem chronicle_takenThree : Chronicle (.new 2) 1 takenThree "x"
    (some ((forLabels #[1, 0, 1] #[7, 8, 9]).rows 1)) := by
  have hmade : (failure? (performStep (.createIndex "x" 1 (.new 2)))
      (new .u8 .i32 none)).isNone := by
    decide +kernel
  obtain ⟨_, hmade⟩ := exists_ok_of_failure? (Option.isNone_iff_eq_none.mp hmade)
  have hthree : (failure? (performStep (adding "x" (forLabels #[1, 0, 1] #[7, 8, 9])))
      madeOfTwo).isNone := by
    decide +kernel
  obtain ⟨_, hthree⟩ := exists_ok_of_failure? (Option.isNone_iff_eq_none.mp hthree)
  exact (Chronicle.made Reached.new hmade).extended _ hthree

/-- It has refused a row for a list there is not, and has gone through a file. -/
def throughRefusal : Workspace .u8 .i32 :=
  final (performStep (.throughFile "x" .regular leaveIt "y"))
    (final (performStep (adding "x" (forLabels #[2] #[5]))) takenThree)

/-- It has taken one row more. -/
def takenFour : Workspace .u8 .i32 :=
  final (performStep (adding "y" (forLabels #[0] #[4]))) throughRefusal

/-- Its two lists hold the ids from zero to three. -/
theorem default_ids_takenFour : ∃ x, takenFour.indexes.find? "y" = some x ∧
    x.size takenFour.store = 4 ∧
    ((List.range x.lists).flatMap (OpenIndex.ids { index := x, store := takenFour.store })).Perm
      [0, 1, 2, 3] := by
  have hrefused : (failure? (performStep (adding "x" (forLabels #[2] #[5])))
      takenThree).isSome := by
    decide +kernel
  obtain ⟨f, hrefused⟩ := Option.isSome_iff_exists.mp hrefused
  have hfiled : (failure? (performStep (.throughFile "x" .regular leaveIt "y"))
      (final (performStep (adding "x" (forLabels #[2] #[5]))) takenThree)).isNone := by
    decide +kernel
  obtain ⟨_, hfiled⟩ := exists_ok_of_failure? (Option.isNone_iff_eq_none.mp hfiled)
  have hfour : (failure? (performStep (adding "y" (forLabels #[0] #[4])))
      throughRefusal).isNone := by
    decide +kernel
  obtain ⟨_, hfour⟩ := exists_ok_of_failure? (Option.isNone_iff_eq_none.mp hfour)
  have hheld := chronicle_takenThree.refused _ (eq_error_of_failure? hrefused)
  have hback := hheld.filed (fun bytes => show leaveIt.apply bytes = bytes ++ [] from rfl) hfiled
  have hchronicle : Chronicle (.new 2) 1 takenFour "y"
      (some ((forLabels #[1, 0, 1] #[7, 8, 9]).rows 1 ++ (forLabels #[0] #[4]).rows 1)) :=
    hback.extended _ hfour
  obtain ⟨x, hname, hsize, hperm, -⟩ :=
    default_ids_number_records hchronicle (by decide +kernel)
  have hcount : x.size takenFour.store = 4 := hsize.trans (by decide +kernel)
  rw [hcount] at hperm
  exact ⟨x, hname, hcount, hperm⟩

end Workspace

end InvertedFile
