import ComputerSystems.Loop.Scan
import ComputerSystems.Transition.Run

/-!
# The address translation simulator

The globals and functions of `PracticumV2/main.c` that translate one virtual
address after another through a TLB, a page table and simulated physical
memory, together with the table constructor and the masking functions of
`PracticumV2/mymalloc.c`. Output to the console and the clock are left out.

A C array is a function on its indices. `readFromStore` writes through
`nextPage` and `nextFrame` without a bound check, so it has no next state when
one of them has run off its array; a read of `dram` outside the allocated
frames has no value. Counters and ages are unbounded, so they are those of the code as
long as its `int`s do not wrap around.
-/

namespace ComputerSystems.VirtualMemory

open ComputerSystems.Loop
open ComputerSystems.Transition

/-! ## Constants -/

/-- `TOTAL_FRAME_COUNT`: the number of frames of physical memory. -/
def totalFrameCount : Nat := 256

/-- `FRAME_SIZE`: the number of cells of a frame. -/
def frameSize : Nat := 256

/-- `PAGE_MASK` masks everything but the page number. -/
def pageMask : BitVec 32 := 0xFF00#32

/-- `OFFSET_MASK` masks everything but the offset. -/
def offsetMask : BitVec 32 := 0xFF#32

/-- `SHIFT`: the amount to shift when bitmasking. -/
def shift : Nat := 8

/-- `TLB_SIZE`. -/
def tlbSize : Nat := 16

/-- `PAGE_TABLE_SIZE`. -/
def pageTableSize : Nat := 256

/-- `PAGE_READ_SIZE`: the number of bytes read for one page. -/
def pageReadSize : Nat := 256

/-- The number of bytes of the backing store. -/
def storeSize : Nat := 65536

/-! ## Masking -/

/-- `getPageNumber`: the masked value, shifted right arithmetically. -/
def getPageNumber (mask value : BitVec 32) (shift : Nat) : BitVec 32 :=
  (value &&& mask).sshiftRight shift

/-- `getOffset`. -/
def getOffset (mask value : BitVec 32) : BitVec 32 :=
  value &&& mask

/-- The page number that the reading loop of `main` extracts from an address. -/
def pageOf (virtualAddr : BitVec 32) : Int :=
  (getPageNumber pageMask virtualAddr shift).toInt

/-- The offset that the reading loop of `main` extracts from an address. -/
def offsetOf (virtualAddr : BitVec 32) : Int :=
  (getOffset offsetMask virtualAddr).toInt

/-! ## Data -/

/-- `vmTable_t`: a cache of address translations, used both as the TLB and as
the page table. -/
structure VmTable where
  pageNumArr : Nat → Int
  frameNumArr : Nat → Int
  entryAgeArr : Nat → Int
  length : Nat
  pageFaultCount : Nat
  tlbHitCount : Nat
  tlbMissCount : Nat

/-- `createVMtable`. The page numbers are set to zero; the frame numbers and
the ages keep what the allocated memory happened to contain. -/
def createVMtable (length : Nat) (frameNumArr entryAgeArr : Nat → Int) : VmTable where
  pageNumArr := fun _ => 0
  frameNumArr := frameNumArr
  entryAgeArr := entryAgeArr
  length := length
  pageFaultCount := 0
  tlbHitCount := 0
  tlbMissCount := 0

/-- The contents of `BACKING_STORE.bin`, read as signed characters. -/
abbrev BackingStore := Fin storeSize → BitVec 8

/-- The signed byte at a position of the backing store, if the file reaches
that far. -/
def storedByte (store : BackingStore) (position : Nat) : Option Int :=
  if inside : position < storeSize then some (store ⟨position, inside⟩).toInt else none

/-- The globals that `main` and `translateAddress` work on. -/
structure State where
  tlbTable : VmTable
  pageTable : VmTable
  dram : Nat → Nat → Int
  nextTLBentry : Nat
  nextPage : Nat
  nextFrame : Nat
  virtualAddr : BitVec 32
  pageNumber : Int
  offsetNumber : Int
  functionCallCount : Nat
  fileReadBuffer : Nat → Int
  translatedValue : Option Int
  translationCount : Nat

/-- What the memory behind the frame numbers and ages of the two tables held
when it was allocated. -/
structure FreshMemory where
  tlbFrames : Nat → Int
  tlbAges : Nat → Int
  tableFrames : Nat → Int
  tableAges : Nat → Int

/-- Freshly mapped memory, all zero. -/
def FreshMemory.zero : FreshMemory :=
  ⟨fun _ => 0, fun _ => 0, fun _ => 0, fun _ => 0⟩

/-- The state in which `main` enters its reading loop: two tables made by
`createVMtable` and the zeroed frames of `dramAllocate`. -/
def bootState (fresh : FreshMemory) : State where
  tlbTable := createVMtable tlbSize fresh.tlbFrames fresh.tlbAges
  pageTable := createVMtable pageTableSize fresh.tableFrames fresh.tableAges
  dram := fun _ _ => 0
  nextTLBentry := 0
  nextPage := 0
  nextFrame := 0
  virtualAddr := 0#32
  pageNumber := 0
  offsetNumber := 0
  functionCallCount := 0
  fileReadBuffer := fun _ => 0
  translatedValue := none
  translationCount := 0

/-! ## Table operations -/

namespace VmTable

/-- Assign one cell of the page number array and of the frame number array. -/
def write (table : VmTable) (i : Nat) (pageNumber frameNumber : Int) : VmTable :=
  { table with
    pageNumArr := Function.update table.pageNumArr i pageNumber
    frameNumArr := Function.update table.frameNumArr i frameNumber }

/-- Assign one age. -/
def setAge (table : VmTable) (i : Nat) (age : Int) : VmTable :=
  { table with entryAgeArr := Function.update table.entryAgeArr i age }

/-- The shifting loop for `count` iterations from index `i`: page and frame
number of the next slot move into this one. -/
def moveOver (table : VmTable) (i : Nat) : Nat → VmTable
  | 0 => table
  | count + 1 =>
      (table.write i (table.pageNumArr (i + 1)) (table.frameNumArr (i + 1))).moveOver (i + 1) count

end VmTable

/-! ## FIFO insertion -/

/-- The TLB that `tlbFIFOinsert` leaves, given the number of entries. -/
def fifoSlots (tlb : VmTable) (next : Nat) (pageNumber frameNumber : Int) : VmTable :=
  match firstIndex tlb.pageNumArr pageNumber 0 next with
  | none =>
      if next < tlbSize then tlb.write next pageNumber frameNumber
      else (tlb.write (next - 1) pageNumber frameNumber).moveOver 0 (tlbSize - 1)
  | some i =>
      if next < tlbSize then
        (tlb.moveOver i (next - 1 - i)).write next pageNumber frameNumber
      else (tlb.moveOver i (next - 1 - i)).write (next - 1) pageNumber frameNumber

/-- `tlbFIFOinsert`. -/
def tlbFIFOinsert (state : State) (pageNumber frameNumber : Int) : State :=
  { state with
    tlbTable := fifoSlots state.tlbTable state.nextTLBentry pageNumber frameNumber
    nextTLBentry :=
      if state.nextTLBentry < tlbSize then state.nextTLBentry + 1 else state.nextTLBentry }

/-! ## LRU insertion -/

/-- The locals of the seeking loop of `tlbLRUinsert`, with the age array it
updates. -/
structure Seek where
  entryAgeArr : Nat → Int
  freeSpotFound : Bool
  alreadyThere : Bool
  replaceIndex : Nat

/-- One iteration of the seeking loop of `tlbLRUinsert`. -/
def seekStep (pages : Nat → Int) (pageNumber : Int) (seek : Seek) (i : Nat) : Seek :=
  if pages i ≠ pageNumber ∧ pages i ≠ 0 then
    { seek with entryAgeArr := Function.update seek.entryAgeArr i (seek.entryAgeArr i + 1) }
  else if pages i ≠ pageNumber ∧ pages i = 0 then
    if !seek.freeSpotFound then { seek with replaceIndex := i, freeSpotFound := true } else seek
  else if pages i = pageNumber then
    if !seek.alreadyThere then
      { seek with entryAgeArr := Function.update seek.entryAgeArr i 0, alreadyThere := true }
    else seek
  else seek

/-- The seeking loop of `tlbLRUinsert` after `count` iterations. -/
def seekLoop (table : VmTable) (pageNumber : Int) : Nat → Seek
  | 0 => ⟨table.entryAgeArr, false, false, 0⟩
  | count + 1 => seekStep table.pageNumArr pageNumber (seekLoop table pageNumber count) count

/-- The loop of `getOldestEntry` after index `count`: the largest age so far
and its first index. -/
def oldestLoop (ages : Nat → Int) : Nat → Int × Nat
  | 0 => (ages 0, 0)
  | count + 1 =>
      let (max, index) := oldestLoop ages count
      if ages (count + 1) > max then (ages (count + 1), count + 1) else (max, index)

/-- `getOldestEntry`. -/
def getOldestEntry (table : VmTable) (size : Nat) : Nat :=
  (oldestLoop table.entryAgeArr (size - 1)).2

/-- Store an entry and reset its age. -/
def VmTable.place (table : VmTable) (i : Nat) (pageNumber frameNumber : Int) : VmTable :=
  (table.write i pageNumber frameNumber).setAge i 0

/-- The TLB that `tlbLRUinsert` leaves. -/
def lruSlots (tlb : VmTable) (pageNumber frameNumber : Int) : VmTable :=
  let seek := seekLoop tlb pageNumber tlbSize
  let aged := { tlb with entryAgeArr := seek.entryAgeArr }
  if seek.alreadyThere then aged
  else if seek.freeSpotFound then aged.place seek.replaceIndex pageNumber frameNumber
  else aged.place (getOldestEntry aged tlbSize) pageNumber frameNumber

/-- `tlbLRUinsert`. -/
def tlbLRUinsert (state : State) (pageNumber frameNumber : Int) : State :=
  { state with tlbTable := lruSlots state.tlbTable pageNumber frameNumber }

/-! ## Reading a page -/

/-- `fread` of one page at the position `fseek` went to: bytes behind the end
of the file leave the buffer as it was. -/
def readPage (store : BackingStore) (position : Nat) (buffer : Nat → Int) (i : Nat) : Int :=
  if i < pageReadSize then (storedByte store (position + i)).getD (buffer i) else buffer i

/-- The assignments of `readFromStore`: the page goes into the next frame and
the next page table entry. -/
def loadPage (store : BackingStore) (state : State) (pageNumber : Int) : State :=
  let buffer := readPage store (pageNumber * pageReadSize).toNat state.fileReadBuffer
  { state with
    fileReadBuffer := buffer
    dram := Function.update state.dram state.nextFrame
      (fun i => if i < pageReadSize then buffer i else state.dram state.nextFrame i)
    pageTable := state.pageTable.write state.nextPage pageNumber state.nextFrame
    nextFrame := state.nextFrame + 1
    nextPage := state.nextPage + 1 }

/-- `readFromStore`. There is no next state when the frame or the page table
entry it writes lies outside its array, where it may change anything. -/
def readFromStore (store : BackingStore) (state : State) (pageNumber : Int) : Option State :=
  if state.nextFrame < totalFrameCount ∧ state.nextPage < state.pageTable.length then
    some (loadPage store state pageNumber)
  else none

/-! ## Translation -/

/-- The slot at which the first loop of `translateAddress` breaks. -/
def tlbSlot (state : State) (pageNumber : Int) : Option Nat :=
  firstIndex state.tlbTable.pageNumArr pageNumber 0 state.tlbTable.length

/-- `frame_number` after the first loop of `translateAddress`, minus one when
no slot was found. -/
def tlbFrame (state : State) (pageNumber : Int) : Int :=
  match tlbSlot state pageNumber with
  | some i => state.tlbTable.frameNumArr i
  | none => -1

/-- `frame_number` after the walk of the page table. -/
def tableFrame (state : State) (pageNumber : Int) : Int :=
  match firstIndex state.pageTable.pageNumArr pageNumber 0 state.nextPage with
  | some i => state.pageTable.frameNumArr i
  | none => -1

/-- The first loop of `translateAddress` counts a hit where it breaks. -/
def countHit (state : State) (pageNumber : Int) : State :=
  match tlbSlot state pageNumber with
  | some _ =>
      { state with
        tlbTable := { state.tlbTable with tlbHitCount := state.tlbTable.tlbHitCount + 1 } }
  | none => state

/-- `tlbTable->tlbMissCount++`. -/
def countMiss (state : State) : State :=
  { state with
    tlbTable := { state.tlbTable with tlbMissCount := state.tlbTable.tlbMissCount + 1 } }

/-- `pageTable->pageFaultCount++`. -/
def countFault (state : State) : State :=
  { state with
    pageTable := { state.pageTable with pageFaultCount := state.pageTable.pageFaultCount + 1 } }

/-- `functionCallCount++`. -/
def countCall (state : State) : State :=
  { state with functionCallCount := state.functionCallCount + 1 }

/-- The page fault branch of `translateAddress`. -/
def pageFault (store : BackingStore) (state : State) (pageNumber : Int) : Option (Int × State) :=
  (readFromStore store (countFault state) pageNumber).map fun loaded =>
    ((loaded.nextFrame : Int) - 1, countCall loaded)

/-- The part of `translateAddress` before the insertion: the frame number it
finds and the state it leaves. -/
def resolve (store : BackingStore) (state : State) (pageNumber : Int) : Option (Int × State) :=
  let searched := countHit state pageNumber
  if tlbFrame state pageNumber = -1 then
    let missed := countMiss searched
    if tableFrame missed pageNumber = -1 then pageFault store missed pageNumber
    else some (tableFrame missed pageNumber, missed)
  else some (tlbFrame state pageNumber, searched)

/-- The insertion that `algo_choice` selects. -/
def tlbInsert (algoChoice : Char) (state : State) (pageNumber frameNumber : Int) : State :=
  if algoChoice = '1' then tlbFIFOinsert state pageNumber frameNumber
  else tlbLRUinsert state pageNumber frameNumber

/-- `dram[frame][offset]`. A read outside the allocated frames, which only a frame number that
the fresh TLB holds can lead to, gives no value; it changes nothing that the run goes on with. -/
def dramCell (dram : Nat → Nat → Int) (frameNumber offset : Int) : Option Int :=
  if 0 ≤ frameNumber ∧ frameNumber < totalFrameCount ∧ 0 ≤ offset ∧ offset < frameSize then
    some (dram frameNumber.toNat offset.toNat)
  else none

/-- The part of `translateAddress` from the insertion on. -/
def insertAndRead (algoChoice : Char) (state : State) (frameNumber : Int) : State :=
  let inserted := tlbInsert algoChoice state state.pageNumber frameNumber
  { inserted with translatedValue := dramCell inserted.dram frameNumber inserted.offsetNumber }

/-- `translateAddress`. -/
def translateAddress (algoChoice : Char) (store : BackingStore) (state : State) : Option State :=
  (resolve store state state.pageNumber).map fun (frameNumber, resolved) =>
    insertAndRead algoChoice resolved frameNumber

/-- The globals that the reading loop of `main` sets from an address. -/
def readAddress (state : State) (virtualAddr : BitVec 32) : State :=
  { state with
    virtualAddr := virtualAddr
    pageNumber := pageOf virtualAddr
    offsetNumber := offsetOf virtualAddr }

/-- One iteration of the reading loop of `main`. -/
def mainStep (algoChoice : Char) (store : BackingStore) (state : State) (virtualAddr : BitVec 32) :
    Option State :=
  (translateAddress algoChoice store (readAddress state virtualAddr)).map fun translated =>
    { translated with translationCount := translated.translationCount + 1 }

/-- The reading loop of `main` over a list of addresses. -/
def run (algoChoice : Char) (store : BackingStore) (fresh : FreshMemory)
    (addresses : List (BitVec 32)) : Option State :=
  exec (mainStep algoChoice store) (bootState fresh) addresses

end ComputerSystems.VirtualMemory
