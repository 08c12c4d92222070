import ComputerSystems.Heap.Core
import ComputerSystems.Memory.File

/-!
# The thread-safe heap

The functions of `PracticumV2/mymalloc.c` that allocate, free, store and retrieve,
on byte memory. A block header is the 32 bytes of `struct block`: `size`, `free`
and `next` lie at the offsets 0, 8 and 16 as in `A7/malloc.c`, `pageNum` at offset
12 and `data` at offset 24. An `int` is a 32-bit word, read as a signed number
where it is an index or an offset.

A function that changes the list holds the mutex from its first access to its
last, so its call is one step. Output to the console is left out. A system call
that fails ends the program, so only calls that succeed are followed.
-/

namespace ComputerSystems.ThreadSafeHeap

open ComputerSystems.Heap (size free next setSize setFree setNext)
open ComputerSystems.Loop

/-- `PAGE_SIZE`, where its factors are not torn apart. -/
def pageSize : BitVec 64 := 16777216#64

/-- `sizeof(struct block)`. -/
def sizeofBlock : BitVec 64 := 32#64

/-- `NUM_PAGES`. -/
def numPages : Int := 256

@[simp]
theorem sizeofBlock_toNat : sizeofBlock.toNat = 32 :=
  rfl

/-- Where the system places the region of `head`, the array `phys_mem` and the
pages that are mapped later, by the value of `pageNumber`. A mapping is not NULL,
does not wrap around the address space and does not overlap another one. -/
structure Placement where
  head : BitVec 64
  physMem : BitVec 64
  page : BitVec 32 → BitVec 64
  notNull : head ≠ 0#64
  fits : head.toNat + pageSize.toNat < 2 ^ 64
  apart : ∀ number, (page number).toNat + pageSize.toNat ≤ head.toNat ∨
    head.toNat + pageSize.toNat ≤ (page number).toNat

/-- `struct page_table_entry`; `next` is the order of the list. -/
structure PageTableEntry where
  virtualAddress : BitVec 64
  physicalAddress : BitVec 64
  dirty : BitVec 32
  referenced : BitVec 32

/-- The variables of the heap. An array is a cell for every index: those out of its
bounds are the memory around it, of which no other variable is a part. -/
structure State where
  memory : Memory
  pageTab : Int → BitVec 32
  dirty : Int → BitVec 32
  pageNumber : BitVec 32
  pageTable : List PageTableEntry
  pagefile : Option File

/-! ## Header fields -/

/-- `block->pageNum`. -/
def pageNum (memory : Memory) (block : BitVec 64) : BitVec 32 :=
  BitVec.ofNat 32 (memory.load (block.toNat + 12) 4)

/-- `block->data`. -/
def data (memory : Memory) (block : BitVec 64) : BitVec 64 :=
  BitVec.ofNat 64 (memory.load (block.toNat + 24) 8)

/-- Assign to `block->data`. -/
def setData (memory : Memory) (block value : BitVec 64) : Memory :=
  memory.store (block.toNat + 24) 8 value.toNat

/-! ## Allocation -/

/-- `init_heap`: the region is a new mapping, which is zeroed. -/
def initHeap (place : Placement) (state : State) : State :=
  let memory : Memory := fun i =>
    if place.head.toNat ≤ i ∧ i < place.head.toNat + pageSize.toNat then 0#8 else state.memory i
  let memory := setNext memory place.head 0#64
  let memory := setFree memory place.head 1#32
  let memory := setSize memory place.head (pageSize - sizeofBlock)
  { state with
    memory
    pageTab := fun page => if 0 ≤ page ∧ page < numPages then -1#32 else state.pageTab page }

/-- One iteration of the search loop of `thread_safe_malloc`. -/
def searchBody (memory : Memory) (bytes curr : BitVec 64) : Iteration (BitVec 64) :=
  if curr = 0#64 then .exit
  else if free memory curr ≠ 0#32 ∧ bytes ≤ size memory curr then .exit
  else .next (next memory curr)

/-- Split a block behind its first `bytes` bytes. -/
def split (memory : Memory) (curr bytes : BitVec 64) : Memory :=
  let new := curr + sizeofBlock + bytes
  let memory := setNext memory new (next memory curr)
  let memory := setFree memory new 1#32
  let memory := setSize memory new (size memory curr - sizeofBlock - bytes)
  let memory := setNext memory curr new
  setSize memory curr bytes

/-- Take a block whole. -/
def take (memory : Memory) (curr : BitVec 64) : Memory :=
  setData (setFree memory curr 0#32) curr (curr + sizeofBlock)

/-- What `thread_safe_malloc` does with the block at which the search stops: the
memory it leaves and the pointer it reads from the header. -/
def allocateAt (memory : Memory) (bytes curr : BitVec 64) : Memory × BitVec 64 :=
  let memory :=
    if bytes + sizeofBlock < size memory curr then split memory curr bytes else take memory curr
  (memory, data memory curr)

/-- `page_num` of an address. `PAGE_SIZE` has no parentheses: only its first factor
divides. -/
def pageIndex (place : Placement) (result : BitVec 64) : BitVec 32 :=
  ((result - place.physMem) / 1024#64 * 1024#64 * 16#64).setWidth 32

/-- Mark the first page table entry of an address as referenced. -/
def reference (address : BitVec 64) : List PageTableEntry → List PageTableEntry
  | [] => []
  | entry :: rest =>
      if entry.virtualAddress = address then { entry with referenced := 1#32 } :: rest
      else entry :: reference address rest

/-- What `thread_safe_malloc` does with the page of its result. The second check of
the bounds of `page_num` cannot fail. -/
def enterPage (place : Placement) (state : State) (result bytes : BitVec 64) : State :=
  let pageNum := (pageIndex place result).toInt
  if 0 ≤ pageNum ∧ pageNum < 1024 * 1024 * 16 ∧ state.pageTab pageNum ≠ -1#32 then
    { state with pageTable := reference result state.pageTable }
  else if 0 ≤ pageNum ∧ pageNum < numPages then
    let page := place.page state.pageNumber
    { state with
      memory := state.memory.copy page.toNat (state.memory.bytes result.toNat bytes.toNat)
      pageTab := Function.update state.pageTab pageNum state.pageNumber
      dirty := Function.update state.dirty pageNum 0#32
      pageNumber := state.pageNumber + 1#32
      pageTable := ⟨result, page, 0#32, 1#32⟩ :: state.pageTable }
  else state

/-- What follows the search loop of `thread_safe_malloc`. -/
def finish (place : Placement) (state : State) (bytes curr : BitVec 64) : State × BitVec 64 :=
  if curr = 0#64 then (state, 0#64)
  else
    let (memory, result) := allocateAt state.memory bytes curr
    let state := { state with memory }
    if result = 0#64 then (state, 0#64) else (enterPage place state result bytes, result)

/-- `thread_safe_malloc` on the heap that `init_heap` has set up: the state it
leaves and the pointer it returns. -/
def threadSafeMalloc (place : Placement) (state : State) (bytes : BitVec 64) (fuel : Nat) :
    Outcome (State × BitVec 64) :=
  (loop (searchBody state.memory bytes) fuel place.head).map (finish place state bytes)

/-! ## Deallocation -/

/-- `pageNum * PAGE_SIZE`, the position in the page file at which a block is saved.
A file has no negative positions. -/
def position (memory : Memory) (block : BitVec 64) : Option Nat :=
  let offset := (pageNum memory block * 1024#32 * 1024#32 * 16#32).toInt
  if 0 ≤ offset then some offset.toNat else none

/-- Save a block in the page file when its page is dirty; undefined where the
program exits. -/
def saveDirty (state : State) (block : BitVec 64) : Option State :=
  let page := (pageNum state.memory block).toInt
  if state.dirty page ≠ 0#32 then
    (position state.memory block).map fun offset =>
      let saved := state.memory.bytes (data state.memory block).toNat pageSize.toNat
      { state with
        pagefile := some ((state.pagefile.getD ⟨fun _ => 0#8, 0⟩).write offset saved)
        dirty := Function.update state.dirty page 0#32 }
  else some state

/-- `thread_safe_free`, undefined where the program exits. -/
def threadSafeFree (state : State) (ptr : BitVec 64) : Option State :=
  if ptr = 0#64 then some state
  else
    let block := ptr - sizeofBlock
    (saveDirty state block).map fun state =>
      { state with
        pageTable := state.pageTable.eraseP fun entry =>
          entry.virtualAddress = data state.memory block
        memory := setFree state.memory block 1#32 }

/-! ## Storing and retrieving

The buffers of the caller lie outside the heap: what they hold is passed as a list
of bytes. -/

/-- `pm_put`. -/
def pmPut (state : State) (ptr : BitVec 64) (bytes : List (BitVec 8)) (noOfBytes : BitVec 64) :
    State :=
  let block := ptr - sizeofBlock
  if size state.memory block ≠ noOfBytes then state
  else
    { state with
      memory := state.memory.copy (data state.memory block).toNat (bytes.take noOfBytes.toNat) }

/-- Load a block that is marked free from the page file; undefined where the program
exits. -/
def loadFree (state : State) (block : BitVec 64) : Option State :=
  if free state.memory block ≠ 0#32 then
    state.pagefile.bind fun file => (position state.memory block).map fun offset =>
      { state with
        memory := state.memory.copy (data state.memory block).toNat
          (file.read offset pageSize.toNat) }
  else some state

/-- `pm_get`: the state it leaves and what it copies out, if anything; undefined
where the program exits. -/
def pmGet (state : State) (ptr noOfBytes : BitVec 64) : Option (State × Option (List (BitVec 8))) :=
  let block := ptr - sizeofBlock
  if size state.memory block ≠ noOfBytes then some (state, none)
  else
    (loadFree state block).map fun state =>
      (state, some (state.memory.bytes (data state.memory block).toNat noOfBytes.toNat))

/-! ## Runs -/

/-- What a client does: it calls the heap, or assigns to a byte. -/
inductive Call
  | malloc (bytes : BitVec 64)
  | free (ptr : BitVec 64)
  | put (ptr : BitVec 64) (bytes : List (BitVec 8)) (noOfBytes : BitVec 64)
  | get (ptr noOfBytes : BitVec 64)
  | assign (address : Nat) (byte : BitVec 8)

/-- An allocation that has not been freed, with the bytes of the latest `pm_put` of
as many bytes as were asked for, unless its payload was assigned to since. -/
structure Allocation extends Heap.Allocation where
  latest : Option (List (BitVec 8))

/-- The live allocations after `thread_safe_malloc` has returned: NULL is none. -/
def allocated (live : List Allocation) (bytes ptr : BitVec 64) : List Allocation :=
  if ptr = 0#64 then live else ⟨⟨ptr, bytes⟩, none⟩ :: live

/-- The live allocations after a pointer has been freed. -/
def released (live : List Allocation) (ptr : BitVec 64) : List Allocation :=
  live.filter fun allocation => allocation.ptr ≠ ptr

/-- The live allocations after a call of `pm_put`. -/
def stored (live : List Allocation) (ptr : BitVec 64) (bytes : List (BitVec 8))
    (noOfBytes : BitVec 64) : List Allocation :=
  live.map fun allocation =>
    if allocation.ptr = ptr ∧ allocation.noOfBytes = noOfBytes then
      { allocation with latest := some bytes }
    else allocation

/-- The live allocations after an assignment to a byte. -/
def assigned (live : List Allocation) (address : Nat) : List Allocation :=
  live.map fun allocation =>
    if allocation.ptr.toNat ≤ address ∧
        address < allocation.ptr.toNat + allocation.noOfBytes.toNat then
      { allocation with latest := none }
    else allocation

/-- The variables before `init_heap` has run. -/
structure Fresh (state : State) : Prop where
  dirty : ∀ page, 0 ≤ page → page < numPages → state.dirty page = 0#32
  pageNumber : state.pageNumber = 0#32
  pageTable : state.pageTable = []

/-- Runs of completed calls from `init_heap` on, each call proper for the state in
which it is made. -/
inductive Run (place : Placement) (proper : State → List Allocation → Call → Prop) :
    List Allocation → State → Prop
  | start {state : State} (fresh : Fresh state) : Run place proper [] (initHeap place state)
  | malloc {live : List Allocation} {state after : State} {bytes ptr : BitVec 64}
      (run : Run place proper live state) (allowed : proper state live (.malloc bytes))
      (returns : Completes (threadSafeMalloc place state bytes) (after, ptr)) :
      Run place proper (allocated live bytes ptr) after
  | free {live : List Allocation} {state after : State} {ptr : BitVec 64}
      (run : Run place proper live state) (allowed : proper state live (.free ptr))
      (returns : threadSafeFree state ptr = some after) :
      Run place proper (released live ptr) after
  | put {live : List Allocation} {state : State} {ptr noOfBytes : BitVec 64}
      {bytes : List (BitVec 8)} (run : Run place proper live state)
      (allowed : proper state live (.put ptr bytes noOfBytes)) :
      Run place proper (stored live ptr bytes noOfBytes) (pmPut state ptr bytes noOfBytes)
  | get {live : List Allocation} {state after : State} {ptr noOfBytes : BitVec 64}
      {out : Option (List (BitVec 8))} (run : Run place proper live state)
      (allowed : proper state live (.get ptr noOfBytes))
      (returns : pmGet state ptr noOfBytes = some (after, out)) : Run place proper live after
  | assign {live : List Allocation} {state : State} {address : Nat} {byte : BitVec 8}
      (run : Run place proper live state) (allowed : proper state live (.assign address byte)) :
      Run place proper (assigned live address)
        { state with memory := Function.update state.memory address byte }

end ComputerSystems.ThreadSafeHeap
