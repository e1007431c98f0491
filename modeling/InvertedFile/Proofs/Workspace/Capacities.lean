import InvertedFile.Proofs.Workspace.Extension
import InvertedFile.Proofs.Workspace.Session

/-!
# The capacities of the lists of an index

How much room a list was given depends on how it grew: a list is asked for
room now and then, for a few records or for many, and keeps it until it is
full. That nothing of this can be seen is due to the policy. All numbers of
records between one and its capacity have the same capacity, so a list that
was not given a new buffer has the one it would be given now.

A failed extension leaves every list as it was, a reset leaves lists without
slots, and a list that is read gets the slots its size asks for. So there is
one law for all indexes, made or loaded, at any time.

## Main results

* `capacities_exact` — the capacity of each list is that of its size, and what
  is left over is bounded by the policy.
-/

namespace InvertedFile.Session

variable {t : ElementType} {i : IdType}

/-- **Capacities are a function of sizes.** After any events, an index has a list for each of the
labels it was made for, of its width and its chunk width. A list without records has no slots, and
a list with records has the capacity of a list made for that number. Below the threshold fewer
slots are left over than there are records or than a group has, and fewer than the threshold from
there on. -/
theorem capacities_exact (limit : Option Nat) (events : List (Event t i)) {name : String}
    {x : Index}
    (hname : ((new t i limit).run events).workspace.indexes.find? name = some x) :
    x.slots.size = x.params.lists.toNat ∧
    ∀ label < x.params.lists.toNat, ∃ id l,
      x.slots[label]? = some id ∧ ((new t i limit).run events).store.list? id = some l ∧
      l.spec.dim = x.dim ∧ l.spec.veclen = x.veclen ∧
      (l.size = 0 → l.capacity = 0) ∧
      (l.size ≠ 0 → x.spec.growth.capacity? l.size = some l.capacity) ∧
      (l.size < x.spec.growth.threshold → l.capacity - l.size < max l.size Growth.leastSlots) ∧
      (x.spec.growth.threshold ≤ l.size → l.capacity - l.size < x.spec.growth.threshold) := by
  have hkept := run_kept (sound_new (t := t) (i := i) limit) events
  have hx : x.Sound ((new t i limit).run events).store := hkept.sound.index name x hname
  refine ⟨hx.size_slots, ?_⟩
  intro label hlt
  have hid := Array.getElem?_eq_getElem (hx.lt_size.mpr hlt)
  obtain ⟨l, hl, hspec, htight⟩ := hx.list label _ hid
  rw [InvertedList.Tight, hspec] at htight
  refine ⟨_, l, hid, hl, congrArg ListSpec.dim hspec, congrArg ListSpec.veclen hspec, ?_, ?_,
    Growth.unused_lt_of_lt_threshold htight, Growth.unused_lt_of_threshold_le htight⟩
  · intro hzero
    rw [hzero, Growth.room?_zero, Option.some.injEq] at htight
    exact htight.symm
  · intro hsome
    rwa [Growth.room?_of_pos (Nat.pos_of_ne_zero hsome)] at htight

/-- A batch is taken for the second list of a new index, and one is refused for a list there is not.
-/
def takenAndRefused : List (Event .u8 .i32) :=
  [ .command (.step (.createIndex "x" 1 (.new 2))),
    .command (.step (.extend "x" #[7] none (Assigner.precomputed #[1]))),
    .command (.step (.extend "x" #[8] none (Assigner.precomputed #[2]))) ]

/-- The second list of the index has thirty-two slots for its one record. -/
theorem capacities_takenAndRefused : ∃ x id l,
    ((new .u8 .i32 none).run takenAndRefused).workspace.indexes.find? "x" = some x ∧
      x.slots[1]? = some id ∧
      ((new .u8 .i32 none).run takenAndRefused).store.list? id = some l ∧
      l.size = 1 ∧ l.capacity = 32 := by
  have hname : ((new .u8 .i32 none).run takenAndRefused).workspace.indexes.find? "x" =
      some (Workspace.twoLists 0 2) := by
    decide +kernel
  obtain ⟨-, hlists⟩ := capacities_exact none takenAndRefused hname
  obtain ⟨id, l, hid, hl, -, -, -, hcapacity, -⟩ := hlists 1 (by decide)
  have hsize : (((new .u8 .i32 none).run takenAndRefused).store.list? ⟨2⟩).map (·.size) =
      some 1 := by
    decide +kernel
  cases hid
  have hheld : ((new .u8 .i32 none).run takenAndRefused).store.list? ⟨2⟩ = some l := hl
  rw [hheld, Option.map_some, Option.some.injEq] at hsize
  have hthirtytwo : Growth.doubling.capacity? 1 = some l.capacity := hsize ▸ hcapacity (by omega)
  refine ⟨_, _, l, hname, rfl, hl, hsize, ?_⟩
  exact (Option.some.inj hthirtytwo).symm

end InvertedFile.Session
