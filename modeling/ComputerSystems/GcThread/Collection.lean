import Mathlib.Data.Set.Insert
import ComputerSystems.GcThread.Core

/-!
# What the thread collects

The first loop marks every object on the list and the second frees those without a mark, so
`gc_thread` frees no object: on a list that ends it leaves the heap as it was, with the marks
taken off, and on a list that does not end it marks forever. The lists that `main` makes do
not end.
-/

namespace ComputerSystems.GcThread

open ComputerSystems.Links
open ComputerSystems.Loop

/-- The links of the objects. -/
def links (objects : Objects) (obj : Pointer) : Option Pointer := (objects obj).map Object.next

/-- The list of a heap visits some objects and ends. -/
def Lists (state : State) (cells : List (Pointer × Pointer)) : Prop :=
  Chain id (links state.objects) state.heap.head cells 0

/-- NULL is no object, and the list goes from objects to objects or NULL. -/
structure Sound (state : State) : Prop where
  null : state.objects 0 = none
  head : state.heap.head = 0 ∨ (state.objects state.heap.head).isSome
  next : ∀ obj object, state.objects obj = some object →
    object.next = 0 ∨ (state.objects object.next).isSome

/-- Set the marks of some objects. -/
def setMarked (value : Int) (objs : List Pointer) (objects : Objects) : Objects := fun obj =>
  if obj ∈ objs then (objects obj).map fun object => { object with marked := value }
  else objects obj

section Marks

variable {objects : Objects} {obj : Pointer} {object : Object} {objs : List Pointer}

theorem setMarked_nil (value : Int) (objects : Objects) : setMarked value [] objects = objects := by
  funext other
  exact if_neg List.not_mem_nil

theorem setMarked_cons (stored : objects obj = some object) (value : Int) (objs : List Pointer) :
    setMarked value objs (Function.update objects obj (some { object with marked := value })) =
      setMarked value (obj :: objs) objects := by
  funext other
  by_cases here : other = obj
  · subst here
    simp [setMarked, stored]
  · simp [setMarked, here]

theorem setMarked_setMarked (first second : Int) (objs : List Pointer) (objects : Objects) :
    setMarked second objs (setMarked first objs objects) = setMarked second objs objects := by
  funext other
  by_cases member : other ∈ objs
  · simp [setMarked, member, Function.comp_def]
  · simp [setMarked, member]

/-- Marks do not change the list. -/
theorem links_update (stored : objects obj = some object) (value : Int) :
    links (Function.update objects obj (some { object with marked := value })) = links objects := by
  funext other
  by_cases here : other = obj
  · simp [links, here, stored]
  · simp [links, here]

theorem links_setMarked (value : Int) (objs : List Pointer) (objects : Objects) :
    links (setMarked value objs objects) = links objects := by
  funext other
  by_cases member : other ∈ objs
  · simp [links, setMarked, member, Function.comp_def]
  · simp [links, setMarked, member]

theorem stored_of_links {following : Pointer} (link : links objects obj = some following) :
    ∃ object, objects obj = some object ∧ object.next = following :=
  Option.map_eq_some_iff.mp link

end Marks

/-! ## A list that ends -/

section Ends

variable {objects : Objects} {obj : Pointer} {cells : List (Pointer × Pointer)}

theorem ne_null {object : Object} (null : objects 0 = none) (stored : objects obj = some object) :
    obj ≠ 0 := by
  rintro rfl
  exact absurd (stored.symm.trans null) (Option.some_ne_none _)

theorem markLoop_completes (null : objects 0 = none)
    (chain : Chain id (links objects) obj cells 0) :
    Completes (fun fuel => loop markBody fuel (objects, obj))
      (setMarked 1 (cells.map Prod.fst) objects, 0) := by
  induction cells generalizing objects obj with
  | nil =>
      subst chain
      rw [List.map_nil, setMarked_nil]
      exact loop_exit rfl
  | cons cell cells ih =>
      rcases cell with ⟨visited, following⟩
      rcases chain with ⟨rfl, link, tail⟩
      rcases stored_of_links link with ⟨object, stored, rfl⟩
      have notNull := ne_null null stored
      have body : markBody (objects, obj) = .next
          (Function.update objects obj (some { object with marked := 1 }), object.next) := by
        simp only [markBody, if_neg notNull, stored]
      rw [List.map_cons, ← setMarked_cons stored]
      apply loop_next body
      apply ih
      · rw [Function.update_of_ne notNull.symm, null]
      · rw [links_update stored]
        exact tail

/-- When all objects ahead have a mark the second loop only takes the marks off. -/
theorem sweepLoop_completes (null : objects 0 = none) (heap : Heap) (prev : Pointer)
    (chain : Chain id (links objects) obj cells 0) (distinct : (cells.map Prod.fst).Nodup)
    (marked : ∀ visited ∈ cells.map Prod.fst, ∀ object, objects visited = some object →
      object.marked ≠ 0) :
    ∃ last, Completes (fun fuel => loop sweepBody fuel ⟨objects, heap, obj, prev⟩)
      ⟨setMarked 0 (cells.map Prod.fst) objects, heap, 0, last⟩ := by
  induction cells generalizing objects obj prev with
  | nil =>
      subst chain
      rw [List.map_nil, setMarked_nil]
      exact ⟨prev, loop_exit rfl⟩
  | cons cell cells ih =>
      rcases cell with ⟨visited, following⟩
      rcases chain with ⟨rfl, link, tail⟩
      rcases stored_of_links link with ⟨object, stored, rfl⟩
      have notNull := ne_null null stored
      rw [List.map_cons] at distinct marked ⊢
      rcases List.nodup_cons.mp distinct with ⟨once, others⟩
      have kept := marked obj List.mem_cons_self object stored
      have body : sweepBody ⟨objects, heap, obj, prev⟩ =
          .next ⟨Function.update objects obj (some { object with marked := 0 }), heap, object.next,
            obj⟩ := by
        simp only [sweepBody, if_neg notNull, stored, if_neg kept, Sweep.keep, Sweep.advance,
          Function.update_self]
      rw [← setMarked_cons stored]
      have rest := @ih (Function.update objects obj (some { object with marked := 0 })) object.next
        ?_ obj ?_ others ?_
      · rcases rest with ⟨last, completes⟩
        exact ⟨last, loop_next body completes⟩
      · rw [Function.update_of_ne notNull.symm, null]
      · rw [links_update stored]
        exact tail
      · intro later member other found
        rw [Function.update_of_ne (ne_of_mem_of_not_mem member once)] at found
        exact marked later (List.mem_cons_of_mem _ member) other found

theorem gcThread_completes {state : State} (null : state.objects 0 = none)
    (lists : Lists state cells) :
    Completes (gcThread state) ⟨setMarked 0 (cells.map Prod.fst) state.objects, state.heap⟩ := by
  have ends : links state.objects 0 = none := congrArg (Option.map Object.next) null
  have marks := markLoop_completes null lists
  have unmarks : ∃ last, Completes
      (fun fuel => loop sweepBody fuel
        ⟨setMarked 1 (cells.map Prod.fst) state.objects, state.heap, state.heap.head, 0⟩)
      ⟨setMarked 0 (cells.map Prod.fst) (setMarked 1 (cells.map Prod.fst) state.objects),
        state.heap, 0, last⟩ := by
    apply sweepLoop_completes
    · by_cases member : 0 ∈ cells.map Prod.fst
      · simp [setMarked, null]
      · simp [setMarked, null]
    · rw [links_setMarked]
      exact lists
    · exact lists.nodup ends
    · intro visited member object found
      simp only [setMarked, if_pos member, Option.map_eq_some_iff] at found
      rcases found with ⟨_, _, rfl⟩
      exact Int.one_ne_zero
  rcases unmarks with ⟨last, unmarks⟩
  rw [setMarked_setMarked] at unmarks
  exact marks.bind (unmarks.map _) (loop_stable _ _) ((loop_stable _ _).map _)

end Ends

/-! ## A list that does not end -/

/-- From some pointers the list goes to one of them again, and none is NULL. -/
def Endless (objects : Objects) (pointers : Set Pointer) : Prop :=
  ∀ obj ∈ pointers, obj ≠ 0 ∧ ∃ following ∈ pointers, links objects obj = some following

/-- The pointers from which the list does not end. -/
def unending (objects : Objects) : Set Pointer := fun obj =>
  (obj = 0 ∨ (objects obj).isSome) ∧ ¬ ∃ cells, Chain id (links objects) obj cells 0

section Endless

variable {objects : Objects} {pointers : Set Pointer} {obj : Pointer}

theorem unending_endless (sound : ∀ obj object, objects obj = some object →
      object.next = 0 ∨ (objects object.next).isSome) : Endless objects (unending objects) := by
  rintro obj ⟨pointer, goesOn⟩
  have notNull : obj ≠ 0 := by
    rintro rfl
    exact goesOn ⟨[], rfl⟩
  rcases Option.isSome_iff_exists.mp (pointer.resolve_left notNull) with ⟨object, stored⟩
  have link : links objects obj = some object.next := by rw [links, stored, Option.map_some]
  refine ⟨notNull, object.next, ⟨sound obj object stored, ?_⟩, link⟩
  rintro ⟨cells, chain⟩
  exact goesOn ⟨(obj, object.next) :: cells, rfl, link, chain⟩

theorem markLoop_running (endless : Endless objects pointers) (inside : obj ∈ pointers)
    (fuel : Nat) : loop markBody fuel (objects, obj) = .running := by
  induction fuel generalizing objects obj with
  | zero => rfl
  | succ fuel ih =>
      rcases endless obj inside with ⟨notNull, following, again, link⟩
      rcases stored_of_links link with ⟨object, stored, rfl⟩
      simp only [loop, markBody, if_neg notNull, stored]
      apply ih _ again
      intro other member
      rw [links_update stored]
      exact endless other member

theorem gcThread_running {state : State} (endless : Endless state.objects pointers)
    (inside : state.heap.head ∈ pointers) : ¬ Halts (gcThread state) := by
  rintro ⟨fuel, halts⟩
  apply halts
  rw [gcThread, markLoop_running endless inside]
  rfl

/-- Freeing the list gets to an object that was freed. -/
theorem freeLoop_crashes {cells : List (Pointer × Pointer)} {freed : Pointer}
    (null : ∀ cell ∈ cells, cell.1 ≠ 0) (chain : Chain id (links objects) obj cells freed)
    (distinct : (cells.map Prod.fst).Nodup) (notNull : freed ≠ 0)
    (gone : freed ∈ cells.map Prod.fst ∨ objects freed = none) :
    Crashes fun fuel => loop freeBody fuel (objects, obj) := by
  induction cells generalizing objects obj with
  | nil =>
      subst chain
      have absent := gone.resolve_left List.not_mem_nil
      exact loop_crash (by simp only [freeBody, if_neg notNull, absent])
  | cons cell cells ih =>
      rcases cell with ⟨visited, following⟩
      rcases chain with ⟨rfl, link, tail⟩
      rcases stored_of_links link with ⟨object, stored, rfl⟩
      have body : freeBody (objects, obj) =
          .next (Function.update objects obj none, object.next) := by
        simp only [freeBody, if_neg (null _ List.mem_cons_self), stored]
      rcases List.nodup_cons.mp distinct with ⟨once, others⟩
      apply loop_next_crash body
      apply ih (fun cell member => null cell (List.mem_cons_of_mem _ member)) _ others
      · by_cases here : freed = obj
        · exact Or.inr (by rw [here, Function.update_self])
        · rw [Function.update_of_ne here]
          exact gone.imp_left fun member => (List.mem_cons.mp member).resolve_left here
      · apply tail.congr
        intro address member
        rw [links, Function.update_of_ne (ne_of_mem_of_not_mem member once), links]

end Endless

/-- `gc_thread` frees no object, whatever is in the heap. When the list of the heap ends the
thread returns and has taken the marks off the objects on it; when it does not end the
thread never returns. -/
theorem gcThread_frees_nothing (state : State) (sound : Sound state) :
    (∀ cells, Lists state cells →
        Completes (gcThread state) ⟨setMarked 0 (cells.map Prod.fst) state.objects, state.heap⟩) ∧
      ((¬ ∃ cells, Lists state cells) → ¬ Halts (gcThread state)) := by
  constructor
  · intro cells lists
    exact gcThread_completes sound.null lists
  · intro never
    have inside : state.heap.head ∈ unending state.objects := ⟨sound.head, never⟩
    exact gcThread_running (unending_endless sound.next) inside

/-- Two objects on a list that ends. -/
def twoObjects : State := newObject (newObject initHeap 1) 2

theorem gcThread_frees_nothing_twoObjects :
    Completes (gcThread twoObjects) ⟨setMarked 0 [2, 1] twoObjects.objects, twoObjects.heap⟩ := by
  have sound : Sound twoObjects := by
    refine ⟨by decide, Or.inr (by decide), ?_⟩
    intro obj object stored
    by_cases second : obj = 2
    · subst second
      obtain rfl : (⟨1, 0⟩ : Object) = object := Option.some.inj stored
      exact Or.inr (by decide)
    · by_cases first : obj = 1
      · subst first
        obtain rfl : (⟨0, 0⟩ : Object) = object := Option.some.inj stored
        exact Or.inl rfl
      · simp [twoObjects, newObject, initHeap, second, first] at stored
  exact (gcThread_frees_nothing twoObjects sound).1 [(2, 1), (1, 0)]
    ⟨rfl, by decide, rfl, by decide, rfl⟩

/-! ## The lists of main -/

/-- The two objects that are linked point to each other. -/
theorem linkTwo_spec (state : State) {obj1 obj2 : Pointer} (other : obj1 ≠ obj2) :
    ∃ linked, linkTwo state obj1 obj2 = some linked ∧ linked.heap.head = obj2 ∧
      links linked.objects obj2 = some obj1 ∧ links linked.objects obj1 = some obj2 := by
  have stored : (newObject (newObject state obj1) obj2).objects obj1 =
      some ⟨state.heap.head, 0⟩ := by
    simp [newObject, other]
  refine ⟨_, by rw [linkTwo, assignNext, stored]; rfl, rfl, ?_, ?_⟩
  · simp [links, newObject, other.symm]
  · simp [links]

/-- After the two objects that `main` makes and links, whatever the heap was before, the list
of the heap is a circle of the two: a collection never ends, and the loop that frees the
heap reads an object that it has freed. -/
theorem linkTwo_circles (state : State) {obj1 obj2 : Pointer} (notNull1 : obj1 ≠ 0)
    (notNull2 : obj2 ≠ 0) (other : obj1 ≠ obj2) :
    ∃ linked, linkTwo state obj1 obj2 = some linked ∧ linked.heap.head = obj2 ∧
      links linked.objects obj2 = some obj1 ∧ links linked.objects obj1 = some obj2 ∧
      ¬ Halts (gcThread linked) ∧ Crashes (freeHeap linked) := by
  rcases linkTwo_spec state other with ⟨linked, made, head, second, first⟩
  refine ⟨linked, made, head, second, first, ?_, ?_⟩
  · apply @gcThread_running {obj1, obj2} linked
    · rintro obj (rfl | rfl)
      · exact ⟨notNull1, obj2, Set.mem_insert_of_mem _ rfl, first⟩
      · exact ⟨notNull2, obj1, Set.mem_insert _ _, second⟩
    · rw [head]
      exact Set.mem_insert_of_mem _ rfl
  · have circle : Chain id (links linked.objects) linked.heap.head
        [(obj2, obj1), (obj1, obj2)] obj2 := ⟨head, second, rfl, first, rfl⟩
    refine freeLoop_crashes ?_ circle ?_ notNull2 (Or.inl List.mem_cons_self)
    · simp [notNull1, notNull2]
    · simp [other.symm]

theorem linkTwo_circles_fresh :
    ∃ linked, linkTwo initHeap 1 2 = some linked ∧ linked.heap.head = 2 ∧
      links linked.objects 2 = some 1 ∧ links linked.objects 1 = some 2 ∧
      ¬ Halts (gcThread linked) ∧ Crashes (freeHeap linked) :=
  linkTwo_circles initHeap (by decide) (by decide) (by decide)

end ComputerSystems.GcThread
