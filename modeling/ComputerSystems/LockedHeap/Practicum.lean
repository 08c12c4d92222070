import ComputerSystems.Allocation.Regions
import ComputerSystems.Heap.Operations
import ComputerSystems.LockedHeap.Core

/-!
# The functions of the practicum's heap

`pm_malloc_lock` and `mergefrag` of `PracticumI/malloc.c` as functions, for calls with no
other thread in between. The loop over `pageing` is left out, as it touches no block.

Here the branch for `!current` is a part of `pm_malloc_lock`, with `mmap` as a parameter:
it makes a header at the start of the array, whatever region `mmap` has returned.
-/

namespace ComputerSystems.LockedHeap.PracticumI

open ComputerSystems.Allocation
open ComputerSystems.Heap
open ComputerSystems.Loop

/-- The part of `pm_malloc_lock` before the search. There is no result when `init` ends the
program. -/
def prepare (surroundings : Surroundings) (freeList : BitVec 64) (memory : Memory) :
    Option Memory :=
  if size memory freeList = 0#64 then init surroundings freeList memory else some memory

/-- One iteration of the search loop of `pm_malloc_lock`, on `prev` and `current`. -/
def searchBody (memory : Memory) (noOfBytes : BitVec 64) :
    BitVec 64 × BitVec 64 → Iteration (BitVec 64 × BitVec 64)
  | (_, current) =>
      if (size memory current < noOfBytes ∨ free memory current = 0#32) ∧
          next memory current ≠ 0#64 then
        .next (current, next memory current)
      else .exit

/-- The branch for `!current`: the memory and `current` behind it, none where `mmap` has
failed. -/
def grow (mmap : BitVec 64 → Option (BitVec 64)) (freeList : BitVec 64) (memory : Memory)
    (noOfBytes prev : BitVec 64) : Option (Memory × BitVec 64) :=
  let bytes := if pageSize < noOfBytes then noOfBytes else pageSize
  (mmap bytes).map fun _ =>
    let newBlock := freeList
    let memory := setSize memory newBlock (bytes - sizeofBlock)
    let memory := setFree memory newBlock 1#32
    let memory := setNext memory newBlock 0#64
    (setNext memory prev newBlock, newBlock)

/-- What `pm_malloc_lock` does with the block at which the search loop stops. A block that
is taken whole is filled with `'A'`. -/
def place (memory : Memory) (noOfBytes current : BitVec 64) : Memory × BitVec 64 :=
  if size memory current = noOfBytes then
    let memory := setFree memory current 0#32
    let res := current + sizeofBlock
    (memory.copy res.toNat (List.replicate noOfBytes.toNat 0x41#8), res)
  else if noOfBytes + sizeofBlock < size memory current then
    (frag memory current noOfBytes, current + sizeofBlock)
  else (memory, 0#64)

/-- The part of `pm_malloc_lock` behind the search. -/
def serve (mmap : BitVec 64 → Option (BitVec 64)) (freeList : BitVec 64) (memory : Memory)
    (noOfBytes : BitVec 64) : BitVec 64 × BitVec 64 → Memory × BitVec 64
  | (prev, current) =>
      if current = 0#64 then
        match grow mmap freeList memory noOfBytes prev with
        | none => (memory, 0#64)
        | some (memory, current) => place memory noOfBytes current
      else place memory noOfBytes current

/-- `pm_malloc_lock`: the memory it leaves and the pointer it returns. -/
def pmMallocLock (surroundings : Surroundings) (mmap : BitVec 64 → Option (BitVec 64))
    (freeList : BitVec 64) (memory : Memory) (noOfBytes : BitVec 64) (fuel : Nat) :
    Outcome (Memory × BitVec 64) :=
  match prepare surroundings freeList memory with
  | none => .crash
  | some memory =>
      (loop (searchBody memory noOfBytes) fuel (freeList, freeList)).map
        (serve mmap freeList memory noOfBytes)

/-- `mergefrag`, which has the text of the one in `A7/malloc.c`. -/
def mergefrag (freeList : BitVec 64) (memory : Memory) (fuel : Nat) : Outcome Memory :=
  (loop mergeBody fuel (memory, freeList)).map Prod.fst

/-- A list of blocks in memory, from the first header on. -/
structure BlockList (freeList : BitVec 64) (memory : Memory) (blocks : List Block) : Prop where
  holds : Holds memory freeList.toNat blocks
  inhabited : blocks ≠ []
  notNull : freeList ≠ 0#64
  bound : freeList.toNat + span 24 blocks < 2 ^ 64

variable {surroundings : Surroundings} {freeList noOfBytes current : BitVec 64}
  {memory ready : Memory}

/-! ## The list before the search -/

/-- `init` makes one free block of the array. -/
theorem initBlock_list (memory : Memory) (notNull : freeList ≠ 0#64)
    (fits : freeList.toNat + 4096 < 2 ^ 64) :
    BlockList freeList (initBlock freeList memory) [⟨4072, true⟩] where
  holds := ⟨writeHeader_header memory freeList (pageSize - sizeofBlock) 0#64 (by decide), trivial⟩
  inhabited := List.cons_ne_nil _ _
  notNull := notNull
  bound := fits

/-- The memory of a program whose array has been initialised at address 4096. -/
def sampleMemory : Memory := initBlock 4096#64 fun _ => 0#8

theorem sampleMemory_list : BlockList 4096#64 sampleMemory [⟨4072, true⟩] :=
  initBlock_list _ (by decide) (by decide)

/-- The size in the header of a block of a list. -/
theorem BlockList.size_at {before rest : List Block} {block : Block}
    (list : BlockList freeList memory (before ++ block :: rest))
    (address : current.toNat = freeList.toNat + span 24 before) :
    (size memory current).toNat = block.size := by
  have header := list.holds.drop.1
  rw [← address] at header
  exact size_toNat.trans header.size

/-- A list whose first block is not empty is not made anew. -/
theorem BlockList.prepare {block : Block} {rest : List Block}
    (list : BlockList freeList memory (block :: rest)) (filled : block.size ≠ 0)
    (surroundings : Surroundings) :
    prepare surroundings freeList memory = some memory := by
  have sizes := size_toNat.trans list.holds.1.size
  refine if_neg ?_
  intro empty
  rw [empty] at sizes
  exact filled sizes.symm

/-! ## The step of a thread -/

/-- The step of a thread that has found a block does what the function does before it fills
the block. -/
theorem allocateStep_eq (surroundings : Surroundings) (memory : Memory)
    (noOfBytes current : BitVec 64) (unlocked : Bool) :
    ∃ written filled,
      allocateStep (version surroundings) noOfBytes current unlocked memory =
        some (written, .unlockMalloc (place memory noOfBytes current).2 filled unlocked) ∧
      (place memory noOfBytes current).1 =
        written.copy (place memory noOfBytes current).2.toNat
          (List.replicate (filled.getD 0#64).toNat 0x41#8) := by
  unfold allocateStep place
  by_cases whole : size memory current = noOfBytes
  · rw [if_pos whole, if_pos whole]
    exact ⟨_, some noOfBytes, rfl, rfl⟩
  · rw [if_neg whole, if_neg whole]
    by_cases larger : noOfBytes + sizeofBlock < size memory current
    · rw [if_pos larger, if_pos larger]
      exact ⟨_, none, rfl, rfl⟩
    · rw [if_neg larger, if_neg larger]
      exact ⟨_, none, rfl, rfl⟩

/-! ## The search -/

/-- Besides `prev` the search is that of `A7/malloc.c`. -/
theorem search_completes_pair (prev : BitVec 64) {final : BitVec 64}
    (completes : Completes (fun fuel => loop (Heap.searchBody memory noOfBytes) fuel current)
      final) :
    ∃ last, Completes (fun fuel => loop (searchBody memory noOfBytes) fuel (prev, current))
      (last, final) := by
  rcases completes with ⟨fuel, done⟩
  induction fuel generalizing prev current with
  | zero => cases done
  | succ fuel ih =>
      by_cases more : (size memory current < noOfBytes ∨ free memory current = 0#32) ∧
          next memory current ≠ 0#64
      · have step : Heap.searchBody memory noOfBytes current = .next (next memory current) :=
          if_pos more
        simp only [loop, step] at done
        rcases ih current done with ⟨last, completes⟩
        have pairStep : searchBody memory noOfBytes (prev, current) =
            .next (current, next memory current) := if_pos more
        exact ⟨last, loop_next pairStep completes⟩
      · have step : Heap.searchBody memory noOfBytes current = .exit := if_neg more
        simp only [loop, step, Outcome.done.injEq] at done
        have pairStep : searchBody memory noOfBytes (prev, current) = .exit := if_neg more
        rw [← done]
        exact ⟨prev, loop_exit pairStep⟩

theorem pmMallocLock_stable (surroundings : Surroundings) (mmap : BitVec 64 → Option (BitVec 64))
    (freeList : BitVec 64) (memory : Memory) (noOfBytes : BitVec 64) :
    Stable (pmMallocLock surroundings mmap freeList memory noOfBytes) := by
  unfold pmMallocLock
  cases prepare surroundings freeList memory with
  | none => exact stable_const _
  | some memory => exact (loop_stable _ _).map _

/-- In a list of blocks the search stops at one of them, so the branch for `!current` is
not taken. -/
theorem pmMallocLock_completes (mmap : BitVec 64 → Option (BitVec 64))
    {before rest : List Block} {block : Block}
    (prepared : prepare surroundings freeList memory = some ready)
    (list : BlockList freeList ready (before ++ block :: rest))
    (stops : StopsAt noOfBytes.toNat before block rest) :
    (∃ prev, Completes (fun fuel => loop (searchBody ready noOfBytes) fuel (freeList, freeList))
        (prev, BitVec.ofNat 64 (freeList.toNat + span 24 before))) ∧
      Completes (pmMallocLock surroundings mmap freeList memory noOfBytes)
        (place ready noOfBytes (BitVec.ofNat 64 (freeList.toNat + span 24 before))) := by
  have found := search_completes list.holds list.bound stops
  rcases search_completes_pair freeList found with ⟨prev, completes⟩
  have notNull : BitVec.ofNat 64 (freeList.toNat + span 24 before) ≠ 0#64 := by
    have positive : freeList.toNat ≠ 0 := fun zero => list.notNull (BitVec.eq_of_toNat_eq zero)
    intro null
    have address := congrArg BitVec.toNat null
    rw [address_toNat list.bound] at address
    exact positive (Nat.eq_zero_of_add_eq_zero_right address)
  refine ⟨⟨prev, completes⟩, ?_⟩
  have served := completes.map (serve mmap freeList ready noOfBytes)
  rw [serve, if_neg notNull] at served
  unfold pmMallocLock
  rw [prepared]
  exact served

end ComputerSystems.LockedHeap.PracticumI
