import Mathlib.Algebra.Group.Int.Defs
import Mathlib.Logic.Function.Basic
import ComputerSystems.Loop.While
import ComputerSystems.Memory.Chain

/-!
# The mark and sweep collector

The collector of `Practicum/myA8.c`: `new_object`, `mark`, `sweep` and
`garbage_collect` on a list of objects. A pointer is a number, NULL is zero, and the
objects that are allocated at present are a partial function on pointers: a read or a
write of any other object crashes. Of the other fields of an object there are the two
that `mark` follows. Nothing in the source sets them, nor the roots, before they are
followed: what they hold at first is a parameter. The size of the heap is unbounded.
-/

namespace ComputerSystems.MarkSweep

open ComputerSystems.Loop

/-- `Object *`. -/
abbrev Pointer := Nat

/-- `Object`. -/
structure Object where
  marked : Int
  next : Pointer
  field1 : Pointer
  field2 : Pointer
  deriving DecidableEq

/-- `sizeof(Object)`. -/
def sizeofObject : Int := 32

/-- The objects that are allocated. -/
abbrev Objects := Pointer → Option Object

/-- `Heap`. -/
structure Heap where
  head : Pointer
  size : Int

/-- A heap with the objects that are allocated and the roots of `garbage_collect`. -/
structure State where
  objects : Objects
  heap : Heap
  root1 : Pointer
  root2 : Pointer

/-- The heap as `main` sets it up, with what the roots hold then. -/
def initHeap (root1 root2 : Pointer) : State where
  objects := fun _ => none
  heap := ⟨0, 0⟩
  root1 := root1
  root2 := root2

/-- `new_object`, where `malloc` returns `obj`. The two fields hold what is in memory there,
or what the other initialization code, which the source leaves open, sets them to. -/
def newObject (state : State) (obj field1 field2 : Pointer) : State :=
  { state with
    objects := Function.update state.objects obj (some ⟨0, state.heap.head, field1, field2⟩)
    heap := ⟨obj, state.heap.size + sizeofObject⟩ }

/-! ## Marking -/

/-- Read an object. -/
def load (objects : Objects) (obj : Pointer) : Outcome Object :=
  match objects obj with
  | some object => .done object
  | none => .crash

/-- `mark`. -/
def mark : Nat → Objects → Pointer → Outcome Objects
  | 0, _, _ => .running
  | fuel + 1, objects, obj =>
      if obj = 0 then .done objects
      else (load objects obj).bind fun object =>
        if object.marked ≠ 0 then .done objects
        else
          let objects := Function.update objects obj (some { object with marked := 1 })
          (mark fuel objects object.field1).bind fun objects =>
            (load objects obj).bind fun object => mark fuel objects object.field2

/-! ## Sweeping -/

/-- What the pointer to a pointer `obj` of `sweep` points to. -/
inductive Slot
  | head
  | next (obj : Pointer)
  deriving DecidableEq

/-- The loop of `sweep`: the objects, the heap and the variable `obj`. -/
structure Sweep where
  objects : Objects
  heap : Heap
  obj : Slot

/-- Read `*obj`. -/
def Sweep.deref (sweep : Sweep) : Option Pointer :=
  match sweep.obj with
  | .head => some sweep.heap.head
  | .next obj => (sweep.objects obj).map Object.next

/-- Assign to `*obj`. -/
def Sweep.assign (sweep : Sweep) (value : Pointer) : Option Sweep :=
  match sweep.obj with
  | .head => some { sweep with heap := { sweep.heap with head := value } }
  | .next obj => (sweep.objects obj).map fun object =>
      { sweep with
        objects := Function.update sweep.objects obj (some { object with next := value }) }

/-- Take the size of an object off the heap and free it. -/
def Sweep.free (sweep : Sweep) (unreached : Pointer) : Sweep :=
  { sweep with
    objects := Function.update sweep.objects unreached none
    heap := { sweep.heap with size := sweep.heap.size - sizeofObject } }

/-- One iteration of the loop of `sweep`. -/
def sweepBody (sweep : Sweep) : Iteration Sweep :=
  match sweep.deref with
  | none => .crash
  | some obj =>
      if obj = 0 then .exit
      else
        match sweep.objects obj with
        | none => .crash
        | some object =>
            if object.marked = 0 then
              match sweep.assign object.next with
              | none => .crash
              | some unlinked => .next (unlinked.free obj)
            else
              .next { sweep with
                objects := Function.update sweep.objects obj (some { object with marked := 0 })
                obj := .next obj }

/-- `sweep`. -/
def sweep (state : State) (fuel : Nat) : Outcome State :=
  (loop sweepBody fuel ⟨state.objects, state.heap, .head⟩).map fun swept =>
    { state with objects := swept.objects, heap := swept.heap }

/-- `garbage_collect`. -/
def garbageCollect (state : State) (fuel : Nat) : Outcome State :=
  (mark fuel state.objects state.root1).bind fun objects =>
    (mark fuel objects state.root2).bind fun objects =>
      sweep { state with objects } fuel

/-! ## Runs -/

/-- A pointer that may be followed: NULL or an object that is allocated. -/
def Sound (objects : Objects) (obj : Pointer) : Prop :=
  obj = 0 ∨ (objects obj).isSome

/-- What a program does with the heap: it makes objects, changes fields and roots, and
collects garbage. The conditions are that it initialises both fields of a new object, that
it stores only pointers that may be followed, and that the size fits into its `int`. -/
inductive Step : State → State → Prop
  | newObject {state : State} {obj field1 field2 : Pointer} (notNull : obj ≠ 0)
      (fresh : state.objects obj = none) (initialised1 : Sound state.objects field1)
      (initialised2 : Sound state.objects field2)
      (fits : state.heap.size + sizeofObject < 2 ^ 31) :
      Step state (newObject state obj field1 field2)
  | setField1 {state : State} {obj value : Pointer} {object : Object}
      (allocated : state.objects obj = some object) (sound : Sound state.objects value) :
      Step state
        { state with
          objects := Function.update state.objects obj (some { object with field1 := value }) }
  | setField2 {state : State} {obj value : Pointer} {object : Object}
      (allocated : state.objects obj = some object) (sound : Sound state.objects value) :
      Step state
        { state with
          objects := Function.update state.objects obj (some { object with field2 := value }) }
  | setRoot1 {state : State} {value : Pointer} (sound : Sound state.objects value) :
      Step state { state with root1 := value }
  | setRoot2 {state : State} {value : Pointer} (sound : Sound state.objects value) :
      Step state { state with root2 := value }
  | garbageCollect {state after : State} (returns : Completes (garbageCollect state) after) :
      Step state after

/-- The states a program gets to that initialises its roots, too. -/
def Run (state : State) : Prop :=
  ∃ root1 root2, Sound (initHeap root1 root2).objects root1 ∧
    Sound (initHeap root1 root2).objects root2 ∧
    Relation.ReflTransGen Step (initHeap root1 root2) state

end ComputerSystems.MarkSweep
