import ComputerSystems.Concurrency.Mutex
import ComputerSystems.Heap.Core

/-!
# The thread-safe heaps

`pm_malloc_lock` and `pm_free_lock` of `A8/malloc.c` and of `PracticumI/malloc.c`
as programs over byte memory and one mutex. A step is a lock or unlock call, one
iteration of a loop over the block list, or one call of `init` or `frag`. Output
to the console is left out, and so is the loop over `pageing`, which touches no
block and nothing these functions read.

The search loop only moves on to blocks that are not NULL, so the branch of
`PracticumI/malloc.c` for `!current` is not a point of the program.
-/

namespace ComputerSystems.LockedHeap

open ComputerSystems.Concurrency
open ComputerSystems.Heap (size free next setSize setFree setNext sizeofBlock)

/-- `PAGE_SIZE`: the number of bytes of the array. -/
def pageSize : BitVec 64 := 4096#64

/-- The first block as `init` writes it; `freeList` is the address of the array. -/
def initBlock (freeList : BitVec 64) (memory : Memory) : Memory :=
  let memory := setSize memory freeList (pageSize - sizeofBlock)
  let memory := setFree memory freeList 1#32
  setNext memory freeList 0#64

/-- The parts in which the two programs differ: `init`, which may end the program,
`frag`, whether an exactly fitting block is filled after the unlock, and whether
`pm_free_lock` unlocks once more before it returns. -/
structure Version where
  init : BitVec 64 → Memory → Option Memory
  frag : Memory → BitVec 64 → BitVec 64 → Memory
  fills : Bool
  unlocksAgain : Bool

/-! ## `A8/malloc.c` -/

namespace A8

/-- `init`. -/
def init (freeList : BitVec 64) (memory : Memory) : Option Memory :=
  some (initBlock freeList memory)

/-- `frag`, which has the text of the one in `A7/malloc.c`. -/
def frag (memory : Memory) (slot bytes : BitVec 64) : Memory := Heap.frag memory slot bytes

def version : Version := ⟨init, frag, false, false⟩

end A8

/-! ## `PracticumI/malloc.c` -/

namespace PracticumI

/-- What `init` meets: whether the swap file can be opened and resized, and the
address that its uninitialised pointer `p.pages` happens to hold. -/
structure Surroundings where
  opened : Bool
  pages : BitVec 64

/-- `init`: the program ends when the swap file cannot be opened or resized. -/
def init (surroundings : Surroundings) (freeList : BitVec 64) (memory : Memory) :
    Option Memory :=
  if surroundings.opened then
    some ((initBlock freeList memory).copy surroundings.pages.toNat (List.replicate 16 0#8))
  else
    none

/-- `frag`. A rest too small for a header takes in the block behind it when that
one is free. -/
def frag (memory : Memory) (slot bytes : BitVec 64) : Memory :=
  let new := slot + bytes + sizeofBlock
  let memory := Heap.frag memory slot bytes
  if size memory new < sizeofBlock ∧ next memory new ≠ 0#64 ∧
      free memory (next memory new) ≠ 0#32 then
    Heap.join memory new
  else memory

def version (surroundings : Surroundings) : Version :=
  ⟨init surroundings, frag, true, true⟩

end PracticumI

/-! ## The program -/

/-- Where a thread is, with the local variables it still needs. `unlocked` says
that the call has given the mutex back after `init`. -/
inductive Point
  | idle
  | lockMalloc (noOfBytes : BitVec 64)
  | checkSize (noOfBytes : BitVec 64)
  | callInit (noOfBytes : BitVec 64)
  | unlockFirst (noOfBytes : BitVec 64)
  | search (noOfBytes current : BitVec 64) (unlocked : Bool)
  | allocate (noOfBytes current : BitVec 64) (unlocked : Bool)
  | unlockMalloc (res : BitVec 64) (filled : Option (BitVec 64)) (unlocked : Bool)
  | fill (res noOfBytes : BitVec 64)
  | lockFree (ptr : BitVec 64)
  | markFree (ptr : BitVec 64)
  | merge (curr : BitVec 64)
  | unlockFree
  | unlockAgain
  deriving DecidableEq

/-- A call of one of the two functions. -/
inductive Request
  | malloc (noOfBytes : BitVec 64)
  | free (ptr : BitVec 64)

section Program

variable (version : Version) (freeList : BitVec 64)

/-- One iteration of the search loop, or its end. -/
def searchStep (noOfBytes current : BitVec 64) (unlocked : Bool) (memory : Memory) :
    Option (Memory × Point) :=
  if (size memory current < noOfBytes ∨ free memory current = 0#32) ∧
      next memory current ≠ 0#64 then
    some (memory, .search noOfBytes (next memory current) unlocked)
  else
    some (memory, .allocate noOfBytes current unlocked)

/-- What `pm_malloc_lock` does with the block at which the search loop stops. -/
def allocateStep (noOfBytes current : BitVec 64) (unlocked : Bool) (memory : Memory) :
    Option (Memory × Point) :=
  if size memory current = noOfBytes then
    some (setFree memory current 0#32,
      .unlockMalloc (current + sizeofBlock) (if version.fills then some noOfBytes else none)
        unlocked)
  else if noOfBytes + sizeofBlock < size memory current then
    some (version.frag memory current noOfBytes,
      .unlockMalloc (current + sizeofBlock) none unlocked)
  else
    some (memory, .unlockMalloc 0#64 none unlocked)

/-- The range check of `pm_free_lock` and the assignment to `curr->free`. -/
def markFreeStep (ptr : BitVec 64) (memory : Memory) : Option (Memory × Point) :=
  if freeList ≤ ptr ∧ ptr ≤ freeList + pageSize then
    some (setFree memory (ptr - sizeofBlock) 1#32, .merge freeList)
  else
    some (memory, .unlockFree)

/-- One iteration of the loop of `mergefrag`, or its end; following the `next`
field of NULL ends the program. -/
def mergeStep (curr : BitVec 64) (memory : Memory) : Option (Memory × Point) :=
  match Heap.mergeBody (memory, curr) with
  | .crash => none
  | .exit => some (memory, .unlockFree)
  | .next (merged, following) => some (merged, .merge following)

/-- `pm_malloc_lock` and `pm_free_lock`. -/
def code : Point → Option (Instruction Memory Point)
  | .idle => none
  | .lockMalloc noOfBytes => some (.acquire (.checkSize noOfBytes))
  | .checkSize noOfBytes => some (.access fun memory =>
      some (memory,
        if size memory freeList = 0#64 then .callInit noOfBytes
        else .search noOfBytes freeList false))
  | .callInit noOfBytes => some (.access fun memory =>
      (version.init freeList memory).map fun memory => (memory, .unlockFirst noOfBytes))
  | .unlockFirst noOfBytes => some (.release (.search noOfBytes freeList true))
  | .search noOfBytes current unlocked => some (.access (searchStep noOfBytes current unlocked))
  | .allocate noOfBytes current unlocked =>
      some (.access (allocateStep version noOfBytes current unlocked))
  | .unlockMalloc res filled _ => some (.release
      (match filled with
      | some noOfBytes => .fill res noOfBytes
      | none => .idle))
  | .fill res noOfBytes => some (.other fun memory =>
      some (memory.copy res.toNat (List.replicate noOfBytes.toNat 0x41#8), .idle))
  | .lockFree ptr => some (.acquire (.markFree ptr))
  | .markFree ptr => some (.access (markFreeStep freeList ptr))
  | .merge curr => some (.access (mergeStep curr))
  | .unlockFree => some (.release (if version.unlocksAgain then .unlockAgain else .idle))
  | .unlockAgain => some (.release .idle)

/-- The two functions as a program. -/
def program : Program Memory Point Request where
  code := code version freeList
  entry
    | .malloc noOfBytes => .lockMalloc noOfBytes
    | .free ptr => .lockFree ptr

/-- All threads outside, the mutex free. -/
def start {τ : Type*} (memory : Memory) : ThreadState τ Memory Point :=
  Program.init .idle memory

end Program

/-! ## Points -/

/-- The call has given the mutex back after `init` and goes on. -/
def Point.unlocked : Point → Bool
  | .search _ _ unlocked | .allocate _ _ unlocked | .unlockMalloc _ _ unlocked => unlocked
  | .idle | .lockMalloc _ | .checkSize _ | .callInit _ | .unlockFirst _ | .fill _ _ => false
  | .lockFree _ | .markFree _ | .merge _ | .unlockFree | .unlockAgain => false

/-- The points between the lock call and the next unlock call. -/
def Point.guarded : Point → Bool
  | .checkSize _ | .callInit _ | .unlockFirst _ | .markFree _ | .merge _ | .unlockFree => true
  | .search _ _ unlocked | .allocate _ _ unlocked | .unlockMalloc _ _ unlocked => !unlocked
  | .idle | .lockMalloc _ | .fill _ _ | .lockFree _ | .unlockAgain => false

/-- The points of the list-manipulating code: the search loop, the choice of the
block with `frag`, the marking of a block as free, and `mergefrag`. -/
def Point.inside : Point → Bool
  | .search _ _ _ | .allocate _ _ _ | .markFree _ | .merge _ => true
  | .idle | .lockMalloc _ | .checkSize _ | .callInit _ | .unlockFirst _ => false
  | .unlockMalloc _ _ _ | .fill _ _ | .lockFree _ | .unlockFree | .unlockAgain => false

/-- Where an access to the block list leads. -/
inductive Follows (freeList : BitVec 64) (memory : Memory) : Point → Point → Prop
  | empty (noOfBytes : BitVec 64) (zero : size memory freeList = 0#64) :
      Follows freeList memory (.checkSize noOfBytes) (.callInit noOfBytes)
  | ready (noOfBytes : BitVec 64) (nonzero : size memory freeList ≠ 0#64) :
      Follows freeList memory (.checkSize noOfBytes) (.search noOfBytes freeList false)
  | initialized (noOfBytes : BitVec 64) :
      Follows freeList memory (.callInit noOfBytes) (.unlockFirst noOfBytes)
  | passed (noOfBytes current following : BitVec 64) (unlocked : Bool) :
      Follows freeList memory (.search noOfBytes current unlocked)
        (.search noOfBytes following unlocked)
  | stopped (noOfBytes current : BitVec 64) (unlocked : Bool) :
      Follows freeList memory (.search noOfBytes current unlocked)
        (.allocate noOfBytes current unlocked)
  | allocated (noOfBytes current res : BitVec 64) (filled : Option (BitVec 64))
      (unlocked : Bool) :
      Follows freeList memory (.allocate noOfBytes current unlocked)
        (.unlockMalloc res filled unlocked)
  | marked (ptr : BitVec 64) : Follows freeList memory (.markFree ptr) (.merge freeList)
  | rejected (ptr : BitVec 64) : Follows freeList memory (.markFree ptr) .unlockFree
  | merged (curr following : BitVec 64) :
      Follows freeList memory (.merge curr) (.merge following)
  | finished (curr : BitVec 64) : Follows freeList memory (.merge curr) .unlockFree

section Steps

variable {version : Version} {freeList ptr curr noOfBytes current : BitVec 64} {unlocked : Bool}
  {memory : Memory} {result : Memory × Point}

theorem searchStep_follows (ran : searchStep noOfBytes current unlocked memory = some result) :
    Follows freeList memory (.search noOfBytes current unlocked) result.2 := by
  rw [searchStep] at ran
  split at ran
  · exact Option.some.inj ran ▸ .passed _ _ _ _
  · exact Option.some.inj ran ▸ .stopped _ _ _

theorem allocateStep_follows
    (ran : allocateStep version noOfBytes current unlocked memory = some result) :
    Follows freeList memory (.allocate noOfBytes current unlocked) result.2 := by
  rw [allocateStep] at ran
  split at ran
  · exact Option.some.inj ran ▸ .allocated _ _ _ _ _
  · split at ran
    · exact Option.some.inj ran ▸ .allocated _ _ _ _ _
    · exact Option.some.inj ran ▸ .allocated _ _ _ _ _

theorem markFreeStep_follows (ran : markFreeStep freeList ptr memory = some result) :
    Follows freeList memory (.markFree ptr) result.2 := by
  rw [markFreeStep] at ran
  split at ran
  · exact Option.some.inj ran ▸ .marked _
  · exact Option.some.inj ran ▸ .rejected _

theorem mergeStep_follows (ran : mergeStep curr memory = some result) :
    Follows freeList memory (.merge curr) result.2 := by
  rw [mergeStep] at ran
  split at ran
  · cases ran
  · exact Option.some.inj ran ▸ .finished _
  · exact Option.some.inj ran ▸ .merged _ _

end Steps

/-- Where the access of a point leads. -/
theorem access_follows {version : Version} {freeList : BitVec 64} {point : Point}
    {effect : Memory → Option (Memory × Point)} {memory : Memory} {result : Memory × Point}
    (access : code version freeList point = some (.access effect))
    (ran : effect memory = some result) : Follows freeList memory point result.2 := by
  cases point with
  | checkSize noOfBytes =>
      simp only [code, Option.some.injEq, Instruction.access.injEq] at access
      subst access
      rw [← Option.some.inj ran]
      dsimp only
      split
      · rename_i zero
        exact .empty noOfBytes zero
      · rename_i nonzero
        exact .ready noOfBytes nonzero
  | callInit noOfBytes =>
      simp only [code, Option.some.injEq, Instruction.access.injEq] at access
      subst access
      rcases Option.map_eq_some_iff.mp ran with ⟨_, _, rfl⟩
      exact .initialized noOfBytes
  | search noOfBytes current unlocked =>
      simp only [code, Option.some.injEq, Instruction.access.injEq] at access
      subst access
      exact searchStep_follows ran
  | allocate noOfBytes current unlocked =>
      simp only [code, Option.some.injEq, Instruction.access.injEq] at access
      subst access
      exact allocateStep_follows ran
  | markFree ptr =>
      simp only [code, Option.some.injEq, Instruction.access.injEq] at access
      subst access
      exact markFreeStep_follows ran
  | merge curr =>
      simp only [code, Option.some.injEq, Instruction.access.injEq] at access
      subst access
      exact mergeStep_follows ran
  | _ => simp [code] at access

/-- An access stays at guarded points or at unguarded ones. -/
theorem Follows.guarded {freeList : BitVec 64} {memory : Memory} {point following : Point}
    (follows : Follows freeList memory point following) :
    following.guarded = point.guarded := by
  cases follows <;> rfl

/-- The mutex is taken and given back between unguarded and guarded points, and
stays as it is everywhere else. -/
theorem guards (version : Version) (freeList : BitVec 64) :
    (program version freeList).Guards Point.guarded := by
  constructor
  · intro point outside
    cases point with
    | idle => rfl
    | _ => cases outside
  · intro request
    cases request <;> rfl
  · intro point following code
    cases point with
    | lockMalloc noOfBytes | lockFree ptr =>
        cases code
        rfl
    | _ => cases code
  · intro point following code
    cases point with
    | unlockFirst noOfBytes | unlockAgain =>
        cases code
        rfl
    | unlockMalloc res filled unlocked =>
        cases code
        cases filled <;> rfl
    | unlockFree =>
        cases code
        cases version.unlocksAgain <;> rfl
    | _ => cases code
  · intro point effect memory result code ran
    exact (access_follows code ran).guarded
  · intro point effect memory result code ran
    cases point with
    | fill res noOfBytes =>
        cases code
        rw [← Option.some.inj ran]
        rfl
    | _ => cases code

/-- The only points that need the mutex without being guarded are those after the
first unlock of `pm_malloc_lock` and the last unlock of `pm_free_lock`. -/
theorem needs_unguarded (version : Version) (freeList : BitVec 64) (point : Point) :
    ((program version freeList).needs point && !point.guarded) =
      (point.unlocked || point == .unlockAgain) := by
  cases point with
  | search noOfBytes current unlocked => cases unlocked <;> rfl
  | allocate noOfBytes current unlocked => cases unlocked <;> rfl
  | unlockMalloc res filled unlocked => cases unlocked <;> rfl
  | _ => rfl

end ComputerSystems.LockedHeap
