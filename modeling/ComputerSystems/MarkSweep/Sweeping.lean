import Mathlib.Data.List.Nodup
import ComputerSystems.MarkSweep.Core

/-!
# What sweep leaves

The loop of `sweep` has passed the marked objects in front of the one it looks at, whose
marks are gone, and has freed the others. What it leaves is a list of the objects that
were marked, in the same order and with the same fields.
-/

namespace ComputerSystems.MarkSweep

open ComputerSystems.Links
open ComputerSystems.Loop

/-- An object on the list, with its pointer. -/
abbrev Cell := Pointer × Object

/-- What `sweep` keeps of an object. -/
def Cell.fields (cell : Cell) : Pointer × Pointer × Pointer :=
  (cell.1, cell.2.field1, cell.2.field2)

/-- The list of a heap: it ends, visits no object twice and every object that is
allocated, and the size of the heap counts its objects. -/
structure Listed (cells : List Cell) (objects : Objects) (heap : Heap) : Prop where
  chain : Chain Object.next objects heap.head cells 0
  distinct : (cells.map Prod.fst).Nodup
  notNull : 0 ∉ cells.map Prod.fst
  all : ∀ obj, (objects obj).isSome → obj ∈ cells.map Prod.fst
  size : heap.size = sizeofObject * cells.length

/-- The slot behind the objects that are kept. -/
def slotBehind (kept : List Cell) : Slot :=
  match kept.getLast? with
  | none => .head
  | some cell => .next cell.1

@[simp]
theorem slotBehind_nil : slotBehind [] = .head :=
  rfl

@[simp]
theorem slotBehind_snoc (kept : List Cell) (cell : Cell) :
    slotBehind (kept ++ [cell]) = .next cell.1 := by
  simp [slotBehind]

/-- The loop of `sweep` with the objects it has kept and those still ahead. -/
structure Sweeping (kept rest : List Cell) (sweep : Sweep) : Prop where
  listed : Listed (kept ++ rest) sweep.objects sweep.heap
  slot : sweep.obj = slotBehind kept
  clean : ∀ cell ∈ kept, cell.2.marked = 0

section Step

variable {kept rest : List Cell} {sweep : Sweep} {obj : Pointer} {object : Object}

/-- The slot holds the pointer to the first object ahead. -/
theorem Sweeping.deref {cursor : Pointer} (sweeping : Sweeping kept rest sweep)
    (front : Chain Object.next sweep.objects sweep.heap.head kept cursor) :
    sweep.deref = some cursor := by
  unfold Sweep.deref
  rw [sweeping.slot]
  rcases List.eq_nil_or_concat' kept with rfl | ⟨before, ⟨address, cell⟩, rfl⟩
  · exact congrArg some front
  · rcases chain_snoc.mp front with ⟨_, stored, leads⟩
    simp only [slotBehind_snoc, stored, Option.map_some, leads]

/-- With nothing ahead the loop ends. -/
theorem Sweeping.exits (sweeping : Sweeping kept [] sweep) : sweepBody sweep = .exit := by
  have chain := sweeping.listed.chain
  rw [List.append_nil] at chain
  simp only [sweepBody, sweeping.deref chain, if_true]

/-- The keys of a list with one object in the middle. -/
theorem Listed.middle {objects : Objects} {heap : Heap}
    (listed : Listed (kept ++ (obj, object) :: rest) objects heap) :
    obj ≠ 0 ∧ objects obj = some object ∧ obj ∉ kept.map Prod.fst ∧ obj ∉ rest.map Prod.fst := by
  have distinct := listed.distinct
  have notNull := listed.notNull
  simp only [List.map_append, List.map_cons] at distinct notNull
  rcases List.nodup_append.mp distinct with ⟨_, tail, separate⟩
  refine ⟨?_, listed.chain.stored (List.mem_append_right kept List.mem_cons_self), ?_,
    (List.nodup_cons.mp tail).1⟩
  · rintro rfl
    exact notNull (List.mem_append_right _ List.mem_cons_self)
  · intro member
    exact separate obj member obj List.mem_cons_self rfl

/-- A list with one object of it replaced by another with the same link. -/
theorem Listed.replace {objects : Objects} {heap : Heap} {other : Object}
    (listed : Listed (kept ++ (obj, object) :: rest) objects heap)
    (link : other.next = object.next) :
    Listed (kept ++ (obj, other) :: rest) (Function.update objects obj (some other)) heap := by
  rcases listed.middle with ⟨_, _, before, behind⟩
  have keys : (kept ++ (obj, other) :: rest).map Prod.fst =
      (kept ++ (obj, object) :: rest).map Prod.fst := by simp
  constructor
  · rcases chain_append.mp listed.chain with ⟨cursor, front, rfl, _, back⟩
    refine chain_append.mpr ⟨cursor, front.update before _, rfl, Function.update_self _ _ _, ?_⟩
    rw [link]
    exact back.update behind _
  · rw [keys]
    exact listed.distinct
  · rw [keys]
    exact listed.notNull
  · rw [keys]
    intro address isSome
    by_cases here : address = obj
    · simp [here]
    · rw [Function.update_of_ne here] at isSome
      exact listed.all address isSome
  · rw [listed.size]
    simp

/-- A list with one object unlinked and freed. -/
theorem Listed.unlink {unlinked : Sweep} {kept' : List Cell}
    (listed : Listed (kept ++ (obj, object) :: rest) sweep.objects sweep.heap)
    (keys : kept'.map Prod.fst = kept.map Prod.fst)
    (chain : Chain Object.next (Function.update unlinked.objects obj none) unlinked.heap.head
      (kept' ++ rest) 0)
    (same : ∀ address, (unlinked.objects address).isSome = (sweep.objects address).isSome)
    (size : unlinked.heap.size = sweep.heap.size) :
    Listed (kept' ++ rest) (unlinked.free obj).objects (unlinked.free obj).heap := by
  have distinct := listed.distinct
  have notNull := listed.notNull
  have middle : (kept ++ (obj, object) :: rest).map Prod.fst =
      kept'.map Prod.fst ++ obj :: rest.map Prod.fst := by
    rw [keys]
    simp
  rw [middle] at distinct notNull
  have length : kept'.length = kept.length := by simpa using congrArg List.length keys
  constructor
  · exact chain
  · rw [List.map_append]
    exact (List.nodup_middle.mp distinct).of_cons
  · rw [List.map_append]
    intro member
    rcases List.mem_append.mp member with early | late
    · exact notNull (List.mem_append_left _ early)
    · exact notNull (List.mem_append_right _ (List.mem_cons_of_mem _ late))
  · intro address isSome
    simp only [Sweep.free] at isSome
    by_cases here : address = obj
    · simp [here] at isSome
    · rw [Function.update_of_ne here, same] at isSome
      have member := listed.all address isSome
      rw [middle] at member
      rw [List.map_append]
      simpa [here] using member
  · simp only [Sweep.free, size, listed.size, List.length_append, List.length_cons, length]
    unfold sizeofObject
    omega

/-- An object without a mark is unlinked and freed. -/
theorem Sweeping.frees (sweeping : Sweeping kept ((obj, object) :: rest) sweep)
    (unmarked : object.marked = 0) :
    ∃ kept' swept, sweepBody sweep = .next swept ∧ Sweeping kept' rest swept ∧
      kept'.map Cell.fields = kept.map Cell.fields := by
  rcases sweeping.listed.middle with ⟨notNull, stored, before, behind⟩
  rcases chain_append.mp sweeping.listed.chain with ⟨cursor, front, rfl, _, back⟩
  have deref := sweeping.deref front
  have body : ∀ unlinked, sweep.assign object.next = some unlinked →
      sweepBody sweep = .next (unlinked.free cursor) := by
    intro unlinked assigned
    simp only [sweepBody, deref, notNull, if_false, stored, unmarked, if_true, assigned]
  rcases List.eq_nil_or_concat' kept with rfl | ⟨passed, ⟨last, cell⟩, rfl⟩
  · refine ⟨[], _, body { sweep with heap := { sweep.heap with head := object.next } } ?_,
      ⟨?_, ?_, ?_⟩, rfl⟩
    · simp only [Sweep.assign, sweeping.slot, slotBehind_nil]
    · refine sweeping.listed.unlink rfl ?_ (fun _ => rfl) rfl
      exact back.update behind none
    · exact sweeping.slot
    · exact sweeping.clean
  · rcases chain_snoc.mp front with ⟨path, lastStored, leads⟩
    have other : last ≠ cursor := by
      rintro rfl
      exact before (by simp)
    have lastBefore : last ∉ passed.map Prod.fst ∧ last ∉ rest.map Prod.fst := by
      have keys := sweeping.listed.distinct
      rw [List.append_assoc] at keys
      simp only [List.map_append, List.map_cons, List.singleton_append] at keys
      rcases List.nodup_append.mp keys with ⟨_, tail, separate⟩
      refine ⟨fun member => separate last member last List.mem_cons_self rfl, fun member => ?_⟩
      exact (List.nodup_cons.mp tail).1 (List.mem_cons_of_mem _ member)
    have passedBefore : cursor ∉ passed.map Prod.fst := fun member =>
      before (by rw [List.map_append]; exact List.mem_append_left _ member)
    refine ⟨passed ++ [(last, { cell with next := object.next })], _,
      body { sweep with
        objects := Function.update sweep.objects last
          (some { cell with next := object.next }) } ?_, ⟨?_, ?_, ?_⟩, ?_⟩
    · simp only [Sweep.assign, sweeping.slot, slotBehind_snoc, lastStored, Option.map_some]
    · refine sweeping.listed.unlink (by simp) ?_ ?_ rfl
      · rw [List.append_assoc]
        refine chain_append.mpr ⟨last, ?_, rfl, ?_, ?_⟩
        · exact (path.update lastBefore.1 _).update passedBefore none
        · rw [Function.update_of_ne other]
          exact Function.update_self _ _ _
        · exact (back.update lastBefore.2 _).update behind none
      · intro address
        dsimp only
        by_cases here : address = last
        · simp [here, lastStored]
        · rw [Function.update_of_ne here]
    · simp only [Sweep.free, sweeping.slot, slotBehind_snoc]
    · intro visited member
      rcases List.mem_append.mp member with early | late
      · exact sweeping.clean visited (List.mem_append_left _ early)
      · rw [List.mem_singleton.mp late]
        exact sweeping.clean (last, cell) (List.mem_append_right _ (List.mem_singleton.mpr rfl))
    · simp [Cell.fields]

/-- An object with a mark loses it and is kept. -/
theorem Sweeping.keeps (sweeping : Sweeping kept ((obj, object) :: rest) sweep)
    (marked : object.marked ≠ 0) :
    ∃ swept, sweepBody sweep = .next swept ∧
      Sweeping (kept ++ [(obj, { object with marked := 0 })]) rest swept := by
  rcases sweeping.listed.middle with ⟨notNull, stored, before, behind⟩
  rcases chain_append.mp sweeping.listed.chain with ⟨cursor, front, rfl, _, back⟩
  have deref := sweeping.deref front
  refine ⟨{ sweep with
      objects := Function.update sweep.objects cursor (some { object with marked := 0 })
      obj := .next cursor }, ?_, ⟨?_, ?_, ?_⟩⟩
  · simp only [sweepBody, deref, notNull, if_false, stored, marked]
  · rw [List.append_assoc]
    exact sweeping.listed.replace rfl
  · rw [slotBehind_snoc]
  · intro visited member
    rcases List.mem_append.mp member with early | late
    · exact sweeping.clean visited early
    · rw [List.mem_singleton.mp late]

end Step

/-! ## The whole loop -/

/-- The objects with a mark. -/
def survivors (cells : List Cell) : List Cell :=
  cells.filter fun cell => cell.2.marked ≠ 0

theorem Sweeping.completes {kept rest : List Cell} {sweep : Sweep}
    (sweeping : Sweeping kept rest sweep) :
    ∃ cells swept, Completes (fun fuel => loop sweepBody fuel sweep) swept ∧
      Sweeping cells [] swept ∧
      cells.map Cell.fields = (kept ++ survivors rest).map Cell.fields := by
  induction rest generalizing kept sweep with
  | nil => exact ⟨kept, sweep, loop_exit sweeping.exits, sweeping, by simp [survivors]⟩
  | cons cell rest ih =>
      rcases cell with ⟨obj, object⟩
      by_cases marked : object.marked = 0
      · rcases sweeping.frees marked with ⟨kept', swept, body, following, same⟩
        rcases ih following with ⟨cells, final, completes, done, fields⟩
        refine ⟨cells, final, loop_next body completes, done, ?_⟩
        rw [fields, List.map_append, List.map_append, same]
        simp [survivors, marked]
      · rcases sweeping.keeps marked with ⟨swept, body, following⟩
        rcases ih following with ⟨cells, final, completes, done, fields⟩
        refine ⟨cells, final, loop_next body completes, done, ?_⟩
        rw [fields]
        simp [survivors, marked, Cell.fields]

/-- `sweep` returns, and the list it leaves is that of the marked objects. -/
theorem sweep_returns {state : State} {cells : List Cell}
    (listed : Listed cells state.objects state.heap) :
    ∃ left after, Completes (sweep state) after ∧ Listed left after.objects after.heap ∧
      (∀ cell ∈ left, cell.2.marked = 0) ∧
      left.map Cell.fields = (survivors cells).map Cell.fields ∧
      after.root1 = state.root1 ∧ after.root2 = state.root2 := by
  have start : Sweeping [] cells ⟨state.objects, state.heap, .head⟩ :=
    ⟨listed, rfl, fun _ member => absurd member List.not_mem_nil⟩
  rcases start.completes with ⟨left, swept, completes, done, fields⟩
  have whole := done.listed
  rw [List.append_nil] at whole
  exact ⟨left, _, completes.map _, whole, done.clean, fields, rfl, rfl⟩

end ComputerSystems.MarkSweep
