import Mathlib.Logic.Function.Basic
import ComputerSystems.Loop.While
import ComputerSystems.Memory.Chain

/-!
# The garbage collection thread

The last program of `Practicum/myA8.c`: `gc_thread` and what `main` does to the list of
objects. The thread gives the lock back before it looks at the heap, so it is run here on
its own, without the lock. A pointer is a number, NULL is zero; a read or a write of an
object that is not allocated crashes.
-/

namespace ComputerSystems.GcThread

open ComputerSystems.Loop

/-- `Object *`. -/
abbrev Pointer := Nat

/-- `Object`. -/
structure Object where
  next : Pointer
  marked : Int
  deriving DecidableEq

/-- The objects that are allocated. -/
abbrev Objects := Pointer → Option Object

/-- `Heap`, but for its lock. -/
structure Heap where
  head : Pointer
  size : Int

/-- The heap and the objects that are allocated. -/
structure State where
  objects : Objects
  heap : Heap

/-- The heap as `main` sets it up. -/
def initHeap : State where
  objects := fun _ => none
  heap := ⟨0, 0⟩

/-- `new_object`, where `malloc` returns `obj`. -/
def newObject (state : State) (obj : Pointer) : State where
  objects := Function.update state.objects obj (some ⟨state.heap.head, 0⟩)
  heap := ⟨obj, state.heap.size + 1⟩

/-- `obj->next = value`. -/
def assignNext (objects : Objects) (obj value : Pointer) : Option Objects :=
  (objects obj).map fun object =>
    Function.update objects obj (some { object with next := value })

/-- What `main` does twice: it makes two objects and links the first to the second. -/
def linkTwo (state : State) (obj1 obj2 : Pointer) : Option State :=
  let state := newObject (newObject state obj1) obj2
  (assignNext state.objects obj1 obj2).map fun objects => { state with objects }

/-! ## The thread -/

/-- An iteration of the first loop of `gc_thread`: the objects and the variable `obj`. -/
def markBody : Objects × Pointer → Iteration (Objects × Pointer)
  | (objects, obj) =>
      if obj = 0 then .exit
      else
        match objects obj with
        | none => .crash
        | some object =>
            .next (Function.update objects obj (some { object with marked := 1 }), object.next)

/-- The variables of the second loop of `gc_thread`. -/
structure Sweep where
  objects : Objects
  heap : Heap
  obj : Pointer
  prev : Pointer

/-- `heap.head = value` or `prev->next = value`. -/
def Sweep.unlink (sweep : Sweep) (value : Pointer) : Option Sweep :=
  if sweep.prev = 0 then
    some { sweep with heap := { sweep.heap with head := value } }
  else
    (assignNext sweep.objects sweep.prev value).map fun objects => { sweep with objects }

/-- `free(obj); heap.size--;`. -/
def Sweep.free (sweep : Sweep) : Sweep :=
  { sweep with
    objects := Function.update sweep.objects sweep.obj none
    heap := { sweep.heap with size := sweep.heap.size - 1 } }

/-- `obj->marked = 0; prev = obj;`. -/
def Sweep.keep (sweep : Sweep) (object : Object) : Sweep :=
  { sweep with
    objects := Function.update sweep.objects sweep.obj (some { object with marked := 0 })
    prev := sweep.obj }

/-- `obj = obj->next`, which ends an iteration. -/
def Sweep.advance (sweep : Sweep) : Iteration Sweep :=
  match sweep.objects sweep.obj with
  | none => .crash
  | some object => .next { sweep with obj := object.next }

/-- An iteration of the second loop of `gc_thread`. -/
def sweepBody (sweep : Sweep) : Iteration Sweep :=
  if sweep.obj = 0 then .exit
  else
    match sweep.objects sweep.obj with
    | none => .crash
    | some object =>
        if object.marked = 0 then
          match sweep.unlink object.next with
          | none => .crash
          | some unlinked => unlinked.free.advance
        else (sweep.keep object).advance

/-- `gc_thread`. -/
def gcThread (state : State) (fuel : Nat) : Outcome State :=
  (loop markBody fuel (state.objects, state.heap.head)).bind fun (objects, _) =>
    (loop sweepBody fuel ⟨objects, state.heap, state.heap.head, 0⟩).map fun swept =>
      ⟨swept.objects, swept.heap⟩

/-! ## The end of `main` -/

/-- An iteration of the loop of `main` that frees the heap: the objects and the variable
`obj`. -/
def freeBody : Objects × Pointer → Iteration (Objects × Pointer)
  | (objects, obj) =>
      if obj = 0 then .exit
      else
        match objects obj with
        | none => .crash
        | some object => .next (Function.update objects obj none, object.next)

/-- The loop of `main` that frees the heap. -/
def freeHeap (state : State) (fuel : Nat) : Outcome (Objects × Pointer) :=
  loop freeBody fuel (state.objects, state.heap.head)

end ComputerSystems.GcThread
