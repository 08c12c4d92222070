import ComputerSystems.Concurrency.Preambles
import ComputerSystems.ThreadSafeHeap.Tiling

/-!
# The heap between threads

`thread_safe_malloc` and `thread_safe_free` as programs over the variables of the heap and
one mutex. `thread_safe_malloc` looks at `head` and runs `init_heap` before it takes the
mutex, and `thread_safe_free` looks at its argument. A step is a lock or unlock call, a look
at `head`, one of the stores of `init_heap`, one iteration of the search loop, or a part of
the critical section.
-/

namespace ComputerSystems.ThreadSafeHeap.Threads

open ComputerSystems.Concurrency
open ComputerSystems.Heap (setSize setFree setNext)
open ComputerSystems.Loop

/-- The variables that the threads share. `mapped` counts the regions that `init_heap` has
mapped. -/
structure Shared where
  head : BitVec 64
  mapped : Nat
  heap : State

/-- The parts of `init_heap`, in order. -/
inductive Part
  | mapHead
  | clearPageTab
  | setNext
  | setFree
  | setSize
  deriving DecidableEq

/-- Where a thread is, with the local variables it still needs. -/
inductive Point
  | idle
  | checkHead (bytes : BitVec 64)
  | initHeap (part : Part) (bytes : BitVec 64)
  | lockMalloc (bytes : BitVec 64)
  | readHead (bytes : BitVec 64)
  | search (bytes curr : BitVec 64)
  | allocate (bytes curr : BitVec 64)
  | enterPage (bytes result : BitVec 64)
  | unlockMalloc (result : BitVec 64)
  | checkPtr (ptr : BitVec 64)
  | lockFree (ptr : BitVec 64)
  | saveDirty (ptr : BitVec 64)
  | removePage (ptr : BitVec 64)
  | markFree (ptr : BitVec 64)
  | unlockFree
  deriving DecidableEq

/-- A call of one of the two functions. -/
inductive Request
  | malloc (bytes : BitVec 64)
  | free (ptr : BitVec 64)

section Program

variable (place : Placement) (again : Nat → BitVec 64)

/-- The region that `init_heap` maps when it has mapped some already. -/
def region (mapped : Nat) : BitVec 64 :=
  if mapped = 0 then place.head else again mapped

/-- A part of `init_heap`. The header is reached through `head`. -/
def initPart (shared : Shared) : Part → Shared
  | .mapHead =>
      let head := region place again shared.mapped
      let memory : Memory := fun i =>
        if head.toNat ≤ i ∧ i < head.toNat + pageSize.toNat then 0#8 else shared.heap.memory i
      ⟨head, shared.mapped + 1, { shared.heap with memory }⟩
  | .clearPageTab =>
      let pageTab := fun page =>
        if 0 ≤ page ∧ page < numPages then -1#32 else shared.heap.pageTab page
      { shared with heap := { shared.heap with pageTab } }
  | .setNext =>
      let memory := setNext shared.heap.memory shared.head 0#64
      { shared with heap := { shared.heap with memory } }
  | .setFree =>
      let memory := setFree shared.heap.memory shared.head 1#32
      { shared with heap := { shared.heap with memory } }
  | .setSize =>
      let memory := setSize shared.heap.memory shared.head (pageSize - sizeofBlock)
      { shared with heap := { shared.heap with memory } }

/-- What follows a part of `init_heap`. -/
def afterPart (bytes : BitVec 64) : Part → Point
  | .mapHead => .initHeap .clearPageTab bytes
  | .clearPageTab => .initHeap .setNext bytes
  | .setNext => .initHeap .setFree bytes
  | .setFree => .initHeap .setSize bytes
  | .setSize => .lockMalloc bytes

/-- One iteration of the search loop, or its end. -/
def searchStep (bytes curr : BitVec 64) (shared : Shared) : Option (Shared × Point) :=
  match searchBody shared.heap.memory bytes curr with
  | .next following => some (shared, .search bytes following)
  | .exit => some (shared, .allocate bytes curr)
  | .crash => none

/-- What `thread_safe_malloc` does with the block at which the search loop stops. -/
def allocateStep (bytes curr : BitVec 64) (shared : Shared) : Option (Shared × Point) :=
  if curr = 0#64 then some (shared, .unlockMalloc 0#64)
  else
    let (memory, result) := allocateAt shared.heap.memory bytes curr
    let shared := { shared with heap := { shared.heap with memory } }
    if result = 0#64 then some (shared, .unlockMalloc 0#64)
    else some (shared, .enterPage bytes result)

/-- Remove the page of a block from the page table. -/
def removePage (heap : State) (block : BitVec 64) : State :=
  { heap with
    pageTable := heap.pageTable.eraseP fun entry =>
      entry.virtualAddress = data heap.memory block }

/-- `thread_safe_malloc` and `thread_safe_free`. -/
def code : Point → Option (Instruction Shared Point)
  | .idle => none
  | .checkHead bytes => some (.other fun shared =>
      some (shared, if shared.head = 0#64 then .initHeap .mapHead bytes else .lockMalloc bytes))
  | .initHeap part bytes => some (.other fun shared =>
      some (initPart place again shared part, afterPart bytes part))
  | .lockMalloc bytes => some (.acquire (.readHead bytes))
  | .readHead bytes => some (.access fun shared => some (shared, .search bytes shared.head))
  | .search bytes curr => some (.access (searchStep bytes curr))
  | .allocate bytes curr => some (.access (allocateStep bytes curr))
  | .enterPage bytes result => some (.access fun shared =>
      some ({ shared with heap := ThreadSafeHeap.enterPage place shared.heap result bytes },
        .unlockMalloc result))
  | .unlockMalloc _ => some (.release .idle)
  | .checkPtr ptr => some (.other fun shared =>
      some (shared, if ptr = 0#64 then .idle else .lockFree ptr))
  | .lockFree ptr => some (.acquire (.saveDirty ptr))
  | .saveDirty ptr => some (.access fun shared =>
      (ThreadSafeHeap.saveDirty shared.heap (ptr - sizeofBlock)).map fun heap =>
        ({ shared with heap }, .removePage ptr))
  | .removePage ptr => some (.access fun shared =>
      some ({ shared with heap := removePage shared.heap (ptr - sizeofBlock) }, .markFree ptr))
  | .markFree ptr => some (.access fun shared =>
      let memory := setFree shared.heap.memory (ptr - sizeofBlock) 1#32
      some ({ shared with heap := { shared.heap with memory } }, .unlockFree))
  | .unlockFree => some (.release .idle)

/-- The two functions as a program. -/
def program : Program Shared Point Request where
  code := code place again
  entry
    | .malloc bytes => .checkHead bytes
    | .free ptr => .checkPtr ptr

end Program

/-- All threads outside, the mutex free and `head` still NULL. -/
def start {τ : Type*} (heap : State) : ThreadState τ Shared Point :=
  Program.init .idle ⟨0#64, 0, heap⟩

/-! ## Points -/

/-- The points between the lock call and the unlock call. -/
def Point.guarded : Point → Bool
  | .readHead _ | .search _ _ | .allocate _ _ | .enterPage _ _ | .unlockMalloc _ => true
  | .saveDirty _ | .removePage _ | .markFree _ | .unlockFree => true
  | .idle | .checkHead _ | .initHeap _ _ | .lockMalloc _ | .checkPtr _ | .lockFree _ => false

/-- The points of `init_heap`. -/
def Point.initialising : Point → Bool
  | .initHeap _ _ => true
  | _ => false

/-- The points at which it matters whether `init_heap` has run. -/
def Point.looks : Point → Bool
  | .checkHead _ | .lockFree _ => true
  | _ => false

/-- The point at which a thread goes to free a block. -/
def Point.frees : Point → Bool
  | .lockFree _ => true
  | _ => false

/-- The points that a thread can be at while `head` is NULL and it has not seen that. -/
def Point.early : Point → Bool
  | .idle | .checkHead _ | .checkPtr _ | .lockFree _ => true
  | _ => false

variable {place : Placement} {again : Nat → BitVec 64}

/-- The search loop stays in the critical section and leaves `head` alone. -/
theorem searchStep_kept {bytes curr : BitVec 64} {shared : Shared} {result : Shared × Point}
    (ran : searchStep bytes curr shared = some result) :
    result.2.guarded = true ∧ result.1.head = shared.head := by
  rw [searchStep] at ran
  split at ran
  · cases ran
    exact ⟨rfl, rfl⟩
  · cases ran
    exact ⟨rfl, rfl⟩
  · cases ran

theorem allocateStep_kept {bytes curr : BitVec 64} {shared : Shared} {result : Shared × Point}
    (ran : allocateStep bytes curr shared = some result) :
    result.2.guarded = true ∧ result.1.head = shared.head := by
  rw [allocateStep] at ran
  split at ran
  · cases ran
    exact ⟨rfl, rfl⟩
  · dsimp only at ran
    split at ran
    · cases ran
      exact ⟨rfl, rfl⟩
    · cases ran
      exact ⟨rfl, rfl⟩

/-- An access stays in the critical section and leaves `head` alone. -/
theorem access_guarded {point : Point} {effect : Shared → Option (Shared × Point)}
    {shared : Shared} {result : Shared × Point}
    (access : code place again point = some (.access effect)) (ran : effect shared = some result) :
    result.2.guarded = true ∧ result.1.head = shared.head := by
  cases point with
  | readHead bytes =>
      cases access
      cases ran
      exact ⟨rfl, rfl⟩
  | search bytes curr =>
      cases access
      exact searchStep_kept ran
  | allocate bytes curr =>
      cases access
      exact allocateStep_kept ran
  | enterPage bytes result =>
      cases access
      cases ran
      exact ⟨rfl, rfl⟩
  | saveDirty ptr =>
      cases access
      rcases Option.map_eq_some_iff.mp ran with ⟨heap, _, rfl⟩
      exact ⟨rfl, rfl⟩
  | removePage ptr =>
      cases access
      cases ran
      exact ⟨rfl, rfl⟩
  | markFree ptr =>
      cases access
      cases ran
      exact ⟨rfl, rfl⟩
  | _ => cases access

/-- The points of accesses are those between a lock call and an unlock call. -/
theorem guarded_of_access {point : Point} {effect : Shared → Option (Shared × Point)}
    (access : code place again point = some (.access effect)) : point.guarded = true := by
  cases point with
  | readHead _ | search _ _ | allocate _ _ | enterPage _ _ => rfl
  | saveDirty _ | removePage _ | markFree _ => rfl
  | _ => cases access

/-- The mutex is taken and given back between unguarded and guarded points, and stays as it
is everywhere else. -/
theorem guards (place : Placement) (again : Nat → BitVec 64) :
    (program place again).Guards Point.guarded := by
  constructor
  · intro point outside
    cases point with
    | idle => rfl
    | _ => cases outside
  · intro request
    cases request <;> rfl
  · intro point following code
    cases point with
    | lockMalloc _ | lockFree _ =>
        cases code
        rfl
    | _ => cases code
  · intro point following code
    cases point with
    | unlockMalloc _ | unlockFree =>
        cases code
        rfl
    | _ => cases code
  · intro point effect shared result code ran
    rw [guarded_of_access code, (access_guarded code ran).1]
  · intro point effect shared result code ran
    cases point with
    | checkHead bytes =>
        cases code
        cases ran
        dsimp only
        split <;> rfl
    | initHeap part bytes =>
        cases code
        cases ran
        cases part <;> rfl
    | checkPtr ptr =>
        cases code
        cases ran
        dsimp only
        split <;> rfl
    | _ => cases code

end ComputerSystems.ThreadSafeHeap.Threads
