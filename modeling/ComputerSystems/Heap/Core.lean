import ComputerSystems.Loop.While
import ComputerSystems.Memory.Bytes

/-!
# The heap allocator

The functions of `A7/malloc.c` on byte memory. `size_t` and pointers are 64-bit
words, a block header is the 24 bytes of `struct block`: `size` at offset 0,
`free` at offset 8, `next` at offset 16. Output to the console is left out.

A loop runs with fuel. Following the `next` field of NULL is a crash.
-/

namespace ComputerSystems.Heap

open ComputerSystems.Loop

/-- `HER`: the number of bytes of `mem`. -/
def her : BitVec 64 := 10000000#64

/-- `sizeof(struct block)`. -/
def sizeofBlock : BitVec 64 := 24#64

@[simp]
theorem her_toNat : her.toNat = 10000000 :=
  rfl

@[simp]
theorem sizeofBlock_toNat : sizeofBlock.toNat = 24 :=
  rfl

/-- The address of the array `mem`: not NULL, and the array does not wrap
around the address space. `freeList` is this address. -/
structure Placement where
  mem : BitVec 64
  notNull : mem ≠ 0#64
  fits : mem.toNat + her.toNat < 2 ^ 64

/-! ## Header fields -/

/-- `block->size`. -/
def size (memory : Memory) (block : BitVec 64) : BitVec 64 :=
  BitVec.ofNat 64 (memory.load block.toNat 8)

/-- `block->free`. -/
def free (memory : Memory) (block : BitVec 64) : BitVec 32 :=
  BitVec.ofNat 32 (memory.load (block.toNat + 8) 4)

/-- `block->next`. -/
def next (memory : Memory) (block : BitVec 64) : BitVec 64 :=
  BitVec.ofNat 64 (memory.load (block.toNat + 16) 8)

/-- Assign to `block->size`. -/
def setSize (memory : Memory) (block value : BitVec 64) : Memory :=
  memory.store block.toNat 8 value.toNat

/-- Assign to `block->free`. -/
def setFree (memory : Memory) (block : BitVec 64) (value : BitVec 32) : Memory :=
  memory.store (block.toNat + 8) 4 value.toNat

/-- Assign to `block->next`. -/
def setNext (memory : Memory) (block value : BitVec 64) : Memory :=
  memory.store (block.toNat + 16) 8 value.toNat

/-! ## Allocation -/

/-- `init`. -/
def init (place : Placement) (memory : Memory) : Memory :=
  let memory := setSize memory place.mem (her - sizeofBlock)
  let memory := setFree memory place.mem 1#32
  setNext memory place.mem 0#64

/-- `frag`: split a block behind its first `bytes` bytes. -/
def frag (memory : Memory) (slot bytes : BitVec 64) : Memory :=
  let new := slot + bytes + sizeofBlock
  let memory := setSize memory new (size memory slot - bytes - sizeofBlock)
  let memory := setFree memory new 1#32
  let memory := setNext memory new (next memory slot)
  let memory := setSize memory slot bytes
  let memory := setFree memory slot 0#32
  setNext memory slot new

/-- One iteration of the search loop of `pm_malloc`. -/
def searchBody (memory : Memory) (noOfBytes current : BitVec 64) : Iteration (BitVec 64) :=
  if (size memory current < noOfBytes ∨ free memory current = 0#32) ∧
      next memory current ≠ 0#64 then
    .next (next memory current)
  else .exit

/-- What `pm_malloc` does with the block at which the search loop stops. -/
def allocateAt (memory : Memory) (noOfBytes current : BitVec 64) : Memory × BitVec 64 :=
  if size memory current = noOfBytes then
    (setFree memory current 0#32, current + sizeofBlock)
  else if noOfBytes + sizeofBlock < size memory current then
    (frag memory current noOfBytes, current + sizeofBlock)
  else (memory, 0#64)

/-- `pm_malloc`: the memory it leaves and the pointer it returns. -/
def pmMalloc (place : Placement) (memory : Memory) (noOfBytes : BitVec 64) (fuel : Nat) :
    Outcome (Memory × BitVec 64) :=
  let memory := if size memory place.mem = 0#64 then init place memory else memory
  (loop (searchBody memory noOfBytes) fuel place.mem).map (allocateAt memory noOfBytes)

/-! ## Deallocation -/

/-- Join a block with its successor. -/
def join (memory : Memory) (curr : BitVec 64) : Memory :=
  let memory := setSize memory curr
    (size memory curr + (size memory (next memory curr) + sizeofBlock))
  setNext memory curr (next memory (next memory curr))

/-- One iteration of the loop of `mergefrag`. -/
def mergeBody : Memory × BitVec 64 → Iteration (Memory × BitVec 64)
  | (memory, curr) =>
      if curr = 0#64 then .crash
      else if next memory curr = 0#64 then .exit
      else
        let memory :=
          if free memory curr ≠ 0#32 ∧ free memory (next memory curr) ≠ 0#32 then join memory curr
          else memory
        .next (memory, next memory curr)

/-- `mergefrag`. -/
def mergefrag (place : Placement) (memory : Memory) (fuel : Nat) : Outcome Memory :=
  (loop mergeBody fuel (memory, place.mem)).map Prod.fst

/-- `pm_free`. -/
def pmFree (place : Placement) (memory : Memory) (ptr : BitVec 64) (fuel : Nat) : Outcome Memory :=
  if place.mem ≤ ptr ∧ ptr ≤ place.mem + her then
    mergefrag place (setFree memory (ptr - sizeofBlock) 1#32) fuel
  else .done memory

/-! ## Runs -/

/-- A call of the allocator. -/
inductive Call
  | malloc (noOfBytes : BitVec 64)
  | free (ptr : BitVec 64)

/-- An allocation that has not been freed: the pointer returned and the number
of bytes asked for. -/
structure Allocation where
  ptr : BitVec 64
  noOfBytes : BitVec 64
  deriving DecidableEq

/-- The live allocations after `pm_malloc` has returned: NULL is none. -/
def allocated (live : List Allocation) (noOfBytes ptr : BitVec 64) : List Allocation :=
  if ptr = 0#64 then live else ⟨ptr, noOfBytes⟩ :: live

/-- The live allocations after a pointer has been freed. -/
def released (live : List Allocation) (ptr : BitVec 64) : List Allocation :=
  live.eraseP fun allocation => allocation.ptr = ptr

/-- The bytes of `mem` are zero. -/
def Zeroed (place : Placement) (memory : Memory) : Prop :=
  ∀ i, place.mem.toNat ≤ i → i < place.mem.toNat + her.toNat → memory i = 0#8

/-- Runs of completed calls from the zeroed array, each call proper for the
state in which it is made. -/
inductive Run (place : Placement) (proper : Memory → List Allocation → Call → Prop) :
    List Call → List Allocation → Memory → Prop
  | start {memory : Memory} (zeroed : Zeroed place memory) : Run place proper [] [] memory
  | malloc {calls : List Call} {live : List Allocation} {memory after : Memory}
      {noOfBytes ptr : BitVec 64} (run : Run place proper calls live memory)
      (allowed : proper memory live (.malloc noOfBytes))
      (returns : Completes (pmMalloc place memory noOfBytes) (after, ptr)) :
      Run place proper (calls ++ [.malloc noOfBytes]) (allocated live noOfBytes ptr) after
  | free {calls : List Call} {live : List Allocation} {memory after : Memory}
      {ptr : BitVec 64} (run : Run place proper calls live memory)
      (allowed : proper memory live (.free ptr))
      (returns : Completes (pmFree place memory ptr) after) :
      Run place proper (calls ++ [.free ptr]) (released live ptr) after

end ComputerSystems.Heap
